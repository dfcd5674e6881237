/-
Which texts are specifications, and what is read from them.

A specification has one of two forms, a function of a package or a method of a type of it, and
`Spells` says which texts have them.  Reading accepts exactly these texts and finds the parts
they are put together from, so that writing a specification and reading it are inverse.

The forms ask for little: something before the last dot and something behind it.  A text that
lacks its function but has a dotted host, or lacks its package but has a type, still has one of
them, and what is read from it is not what the forms are for.  These are the only texts for
which that happens.
-/
import ThreadAffinity.Proofs.SpecText

namespace ThreadAffinity.FunctionSpec

open Text

/-- Behind the last dot of a text stands what can be a type. -/
def EndsInType (text : List Char) : Prop :=
  ∃ front segment, text = front ++ '.' :: segment ∧ '.' ∉ segment ∧ isTypeSegment segment = true

/-- The two forms of a specification. -/
inductive Spells : List Char → FunctionSpec → Prop
  /-- `pkg/path.Func`, where the package does not end like a type. -/
  | function {package name : List Char} (hpackage : package ≠ [])
      (howner : ¬ EndsInType package) (hname : name ≠ []) (hdot : '.' ∉ name) :
      Spells (package ++ '.' :: name)
        { package := String.ofList package, name := String.ofList name }
  /-- `pkg/path.Type.Method`. -/
  | method {package segment name : List Char} (hsegment : '.' ∉ segment)
      (htype : isTypeSegment segment = true) (hname : name ≠ []) (hdot : '.' ∉ name) :
      Spells (package ++ '.' :: segment ++ '.' :: name)
        { package := String.ofList package, receiver := some (String.ofList segment)
          name := String.ofList name }

/-! ### Reading finds the form -/

theorem splitOwner_of_endsInType {package segment : List Char} (hsegment : '.' ∉ segment)
    (htype : isTypeSegment segment = true) :
    splitOwner (package ++ '.' :: segment) = (package, some segment) := by
  simp [splitOwner, cutLast_append hsegment, htype]

theorem splitOwner_of_not_endsInType {owner : List Char} (h : ¬ EndsInType owner) :
    splitOwner owner = (owner, none) := by
  unfold splitOwner
  split
  · rename_i package segment hcut
    obtain ⟨howner, hsegment⟩ := eq_of_cutLast_eq_some hcut
    have htype : ¬ isTypeSegment segment = true :=
      fun htype => h ⟨package, segment, howner, hsegment, htype⟩
    rw [if_neg htype]
  · rfl

theorem ofTrimmed_append {owner name : List Char} (howner : owner ≠ []) (hname : name ≠ [])
    (hdot : '.' ∉ name) :
    ofTrimmed (owner ++ '.' :: name) = .ok {
      package := String.ofList (splitOwner owner).1
      receiver := (splitOwner owner).2.map String.ofList
      name := String.ofList name } := by
  simp [ofTrimmed, cutLast_append hdot, howner, hname]

theorem Spells.ofTrimmed_eq {text : List Char} {s : FunctionSpec} (h : Spells text s) :
    ofTrimmed text = .ok s := by
  cases h with
  | function hpackage howner hname hdot =>
      rw [ofTrimmed_append hpackage hname hdot, splitOwner_of_not_endsInType howner]
      rfl
  | method hsegment htype hname hdot =>
      rw [ofTrimmed_append (by simp) hname hdot, splitOwner_of_endsInType hsegment htype]
      rfl

/-- The text is accepted if something stands on both sides of its last dot. -/
theorem exists_spells {owner name : List Char} (howner : owner ≠ []) (hname : name ≠ [])
    (hdot : '.' ∉ name) : ∃ s, Spells (owner ++ '.' :: name) s := by
  by_cases htype : EndsInType owner
  · obtain ⟨package, segment, rfl, hsegment, htype⟩ := htype
    exact ⟨_, .method hsegment htype hname hdot⟩
  · exact ⟨_, .function howner htype hname hdot⟩

theorem exists_of_ofTrimmed {text : List Char} {s : FunctionSpec} (h : ofTrimmed text = .ok s) :
    ∃ owner name, text = owner ++ '.' :: name ∧ owner ≠ [] ∧ name ≠ [] ∧ '.' ∉ name := by
  unfold ofTrimmed at h
  split at h
  · cases h
  · split at h
    · rename_i owner name hcut
      split at h
      · cases h
      · rename_i hparts
        obtain ⟨htext, hdot⟩ := eq_of_cutLast_eq_some hcut
        simp only [Bool.or_eq_true, List.isEmpty_iff, not_or] at hparts
        exact ⟨owner, name, htext, hparts.1, hparts.2, hdot⟩
    · cases h

theorem spells_of_ofTrimmed {text : List Char} {s : FunctionSpec} (h : ofTrimmed text = .ok s) :
    Spells text s := by
  obtain ⟨owner, name, rfl, howner, hname, hdot⟩ := exists_of_ofTrimmed h
  obtain ⟨s', hs'⟩ := exists_spells howner hname hdot
  obtain rfl : s' = s := Except.ok.inj (hs'.ofTrimmed_eq.symm.trans h)
  exact hs'

/-- Reading gives a specification exactly if the text, without the blanks around it, spells it. -/
theorem parse_eq_ok_iff {text : String} {s : FunctionSpec} :
    parse text = .ok s ↔ Spells (trim text.toList) s :=
  ⟨spells_of_ofTrimmed, Spells.ofTrimmed_eq⟩

/-! ### Reading and writing are inverse -/

theorem parse_congr {text other : String} (h : trimmed text = trimmed other) :
    parse text = parse other := by
  have hlists : trim text.toList = trim other.toList := by
    rw [← toList_trimmed, ← toList_trimmed, h]
  rw [parse, parse, hlists]

/-- **Reading and writing a specification are inverse.**  A text that is read as a specification
is what the specification is written as, up to the blanks around it; what is written is read as
the same specification; and no other text is, up to blanks.  Which texts are read at all is said
by their form. -/
theorem parse_render_inverse (text : String) (s : FunctionSpec) :
    (parse text = .ok s ↔ Spells (trim text.toList) s) ∧
    (parse text = .ok s → s.render = trimmed text ∧ parse s.render = .ok s ∧
      ∀ other, parse other = .ok s ↔ trimmed other = trimmed text) := by
  refine ⟨parse_eq_ok_iff, fun h => ?_⟩
  have hrender : s.render = trimmed text := render_of_parse h
  refine ⟨hrender, ?_, fun other => ⟨fun hother => ?_, fun hother => ?_⟩⟩
  · rw [hrender, parse_congr (trimmed_trimmed text), h]
  · rw [← render_of_parse hother, hrender]
  · rw [parse_congr hother, h]

theorem padded_method_inverse :
    parse "\t gopkg.in/ui.v2..Window.Redraw\u2003" =
      .ok { package := "gopkg.in/ui.v2.", receiver := some "Window", name := "Redraw" } ∧
    parse "gopkg.in/ui.v2..Window.Redraw" =
      .ok { package := "gopkg.in/ui.v2.", receiver := some "Window", name := "Redraw" } ∧
    ∀ other, parse other =
        .ok { package := "gopkg.in/ui.v2.", receiver := some "Window", name := "Redraw" } ↔
      trimmed other = "gopkg.in/ui.v2..Window.Redraw" := by
  have hread : parse "\t gopkg.in/ui.v2..Window.Redraw\u2003" =
      .ok { package := "gopkg.in/ui.v2.", receiver := some "Window", name := "Redraw" } := by
    decide
  obtain ⟨-, hback, hsame⟩ := (parse_render_inverse _ _).2 hread
  exact ⟨hread, hback, hsame⟩

/-! ### The shape of what is read -/

/-- What the two forms are for: a package, a function's name without dots and slashes, and
perhaps a type's name without them. -/
structure WellFormed (s : FunctionSpec) : Prop where
  package_ne : s.package ≠ ""
  name_ne : s.name ≠ ""
  name_dotless : '.' ∉ s.name.toList
  name_slashless : '/' ∉ s.name.toList
  receiver_plain : ∀ t ∈ s.receiver, t ≠ "" ∧ '.' ∉ t.toList ∧ '/' ∉ t.toList

/-- A path goes on behind the last dot, which is that of a host: `example.com/ui`. -/
def LacksFunction (text : List Char) : Prop :=
  ∃ front back, text = front ++ '.' :: back ∧ '.' ∉ back ∧ '/' ∈ back

/-- There is nothing in front of the dot before the type: `.Window.Redraw`. -/
def LacksPackage (text : List Char) : Prop :=
  ∃ segment name, text = '.' :: segment ++ '.' :: name ∧ '.' ∉ segment ∧ '.' ∉ name ∧
    isTypeSegment segment = true

theorem notMem_slash_of_isTypeSegment {segment : List Char} (h : isTypeSegment segment = true) :
    '/' ∉ segment := by
  cases segment with
  | nil => exact List.not_mem_nil
  | cons c cs =>
      simp only [isTypeSegment, Bool.and_eq_true, Bool.not_eq_true', List.contains_eq_mem,
        decide_eq_false_iff_not] at h
      exact h.2

theorem lacksFunction_append {owner name : List Char} (hdot : '.' ∉ name) :
    LacksFunction (owner ++ '.' :: name) ↔ '/' ∈ name := by
  constructor
  · rintro ⟨front, back, htext, hback, hslash⟩
    obtain ⟨-, rfl⟩ := eq_of_append_sep_eq hdot hback htext
    exact hslash
  · intro hslash
    exact ⟨owner, name, rfl, hdot, hslash⟩

theorem lacksPackage_append {owner name : List Char} (hdot : '.' ∉ name) :
    LacksPackage (owner ++ '.' :: name) ↔
      ∃ segment, owner = '.' :: segment ∧ '.' ∉ segment ∧ isTypeSegment segment = true := by
  constructor
  · rintro ⟨segment, name', htext, hsegment, hname', htype⟩
    obtain ⟨howner, -⟩ := eq_of_append_sep_eq hdot hname' htext
    exact ⟨segment, howner, hsegment, htype⟩
  · rintro ⟨segment, rfl, hsegment, htype⟩
    exact ⟨segment, name, rfl, hsegment, hdot, htype⟩

/-- The name is there and has no dot, and a type is a type's name, whatever the form. -/
theorem Spells.parts {text : List Char} {s : FunctionSpec} (h : Spells text s) :
    s.name ≠ "" ∧ '.' ∉ s.name.toList ∧
      ∀ t ∈ s.receiver, t ≠ "" ∧ '.' ∉ t.toList ∧ '/' ∉ t.toList := by
  cases h with
  | function _ _ hname hdot => simpa using ⟨hname, hdot⟩
  | @method _ segment _ hsegment htype hname hdot =>
      have hne : segment ≠ [] := by
        rintro rfl
        cases htype
      simpa using ⟨hname, hdot, hne, hsegment, notMem_slash_of_isTypeSegment htype⟩

theorem Spells.mem_slash_iff {text : List Char} {s : FunctionSpec} (h : Spells text s) :
    '/' ∈ s.name.toList ↔ LacksFunction text := by
  cases h with
  | function _ _ _ hdot => rw [lacksFunction_append hdot, String.toList_ofList]
  | method _ _ _ hdot => rw [lacksFunction_append hdot, String.toList_ofList]

theorem Spells.package_eq_iff {text : List Char} {s : FunctionSpec} (h : Spells text s) :
    s.package = "" ↔ LacksPackage text := by
  cases h with
  | @function package name hpackage howner _ hdot =>
      rw [lacksPackage_append hdot]
      constructor
      · intro hempty
        exact absurd (by simpa using hempty) hpackage
      · -- A package that is a dot and a type would have been read as one.
        rintro ⟨segment, rfl, hsegment, htype⟩
        exact absurd ⟨[], segment, rfl, hsegment, htype⟩ howner
  | @method package segment name hsegment htype _ hdot =>
      rw [lacksPackage_append hdot]
      constructor
      · intro hempty
        have hpackage : package = [] := by simpa using hempty
        exact ⟨segment, by rw [hpackage, List.nil_append], hsegment, htype⟩
      · rintro ⟨segment', howner, hsegment', -⟩
        have howner' : package ++ '.' :: segment = [] ++ '.' :: segment' := howner
        obtain ⟨rfl, -⟩ := eq_of_append_sep_eq hsegment hsegment' howner'
        rfl

/-- **What is read is well-formed, unless the text lacks its package or its function.**  A text
is accepted exactly if something stands on both sides of its last dot.  What is read has a name
without dots, and a type, if any, without dots and slashes; and it is well-formed exactly if the
path does not go on behind the last dot and the text is not a dot, a type, a dot and a name. -/
theorem parse_wellFormed_iff (text : String) :
    ((∃ s, parse text = .ok s) ↔ ∃ owner name, trim text.toList = owner ++ '.' :: name ∧
      owner ≠ [] ∧ name ≠ [] ∧ '.' ∉ name) ∧
    ∀ s, parse text = .ok s →
      (s.name ≠ "" ∧ '.' ∉ s.name.toList ∧
        ∀ t ∈ s.receiver, t ≠ "" ∧ '.' ∉ t.toList ∧ '/' ∉ t.toList) ∧
      (s.package = "" ↔ LacksPackage (trim text.toList)) ∧
      ('/' ∈ s.name.toList ↔ LacksFunction (trim text.toList)) ∧
      (s.WellFormed ↔
        ¬ LacksPackage (trim text.toList) ∧ ¬ LacksFunction (trim text.toList)) := by
  refine ⟨⟨?_, ?_⟩, fun s h => ?_⟩
  · rintro ⟨s, h⟩
    exact exists_of_ofTrimmed h
  · rintro ⟨owner, name, htext, howner, hname, hdot⟩
    obtain ⟨s, hs⟩ := exists_spells howner hname hdot
    exact ⟨s, parse_eq_ok_iff.mpr (htext ▸ hs)⟩
  · have hspells := parse_eq_ok_iff.mp h
    obtain ⟨hname, hdot, hreceiver⟩ := hspells.parts
    have hpackage := hspells.package_eq_iff
    have hslash := hspells.mem_slash_iff
    refine ⟨⟨hname, hdot, hreceiver⟩, hpackage, hslash, ?_⟩
    rw [← hpackage, ← hslash]
    constructor
    · intro hs
      exact ⟨hs.package_ne, hs.name_slashless⟩
    · rintro ⟨hne, hslashless⟩
      exact ⟨hne, hname, hdot, hslashless, hreceiver⟩

theorem window_wellFormed :
    parse " example.com/ui.v2.Window.Redraw" =
      .ok { package := "example.com/ui.v2", receiver := some "Window", name := "Redraw" } ∧
    WellFormed { package := "example.com/ui.v2", receiver := some "Window", name := "Redraw" } := by
  have hread : parse " example.com/ui.v2.Window.Redraw" =
      .ok { package := "example.com/ui.v2", receiver := some "Window", name := "Redraw" } := by
    decide
  obtain ⟨-, hpackage, hslash, hshape⟩ := (parse_wellFormed_iff _).2 _ hread
  refine ⟨hread, hshape.mpr ⟨?_, ?_⟩⟩
  · rw [← hpackage]
    decide
  · rw [← hslash]
    decide

theorem missing_parts_accepted :
    (parse "example.com/ui" = .ok { package := "example", name := "com/ui" } ∧
      ¬ WellFormed { package := "example", name := "com/ui" }) ∧
    parse ".Window.Redraw" = .ok { package := "", receiver := some "Window", name := "Redraw" } ∧
      ¬ WellFormed { package := "", receiver := some "Window", name := "Redraw" } := by
  refine ⟨⟨by decide, fun h => ?_⟩, by decide, fun h => ?_⟩
  · exact h.name_slashless (by decide)
  · exact h.package_ne rfl

end ThreadAffinity.FunctionSpec
