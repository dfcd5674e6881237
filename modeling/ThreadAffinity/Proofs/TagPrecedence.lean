/-
Which of several annotations decides a function's tag.

A function can have a tag of a kind from two sides: from the directives of its doc comment and
from external entries that name it.  Both are gone through in order, and a tag that is there
already is never replaced.  So the tag of a kind is the first one that the doc comment gives,
and where it gives none, the first one among the external entries.  What an annotation says
about one kind plays no part for the other.

The index keeps only functions whose doc comment gives some tag.  A function that is not in it
is therefore looked up as one whose doc comment gives nothing.
-/
import ThreadAffinity.Proofs.EffectiveDirectives

namespace ThreadAffinity

/-! ### Tags from doc comments -/

namespace Directive

/-- The tag of a kind that a doc comment gives: the argument of its first directive of that
kind that has one. -/
def firstTag? (k : Kind) (doc : List String) : Option Tag :=
  ((doc.filterMap ofComment?).find? (·.gives k)).map fun d => ⟨d.arg⟩

/-- Whether a comment is a directive of a kind. -/
def isOfKind (k : Kind) (comment : String) : Bool :=
  (ofComment? comment).any (·.kind? = some k)

theorem firstTag?_append (k : Kind) (doc rest : List String) :
    firstTag? k (doc ++ rest) = (firstTag? k doc).or (firstTag? k rest) := by
  unfold firstTag?
  rw [List.filterMap_append, List.find?_append, Option.map_or]

/-- Comments that are no directives of the kind can be left out. -/
theorem firstTag?_filter_isOfKind (k : Kind) (doc : List String) :
    firstTag? k (doc.filter (isOfKind k)) = firstTag? k doc := by
  induction doc with
  | nil => rfl
  | cons comment doc ih =>
      have hsplit : ∀ rest, firstTag? k (comment :: rest) =
          (firstTag? k [comment]).or (firstTag? k rest) := firstTag?_append k [comment]
      rw [List.filter_cons, hsplit]
      by_cases hkind : isOfKind k comment = true
      · rw [if_pos hkind, hsplit, ih]
      · have hnone : firstTag? k [comment] = none := by
          unfold firstTag?
          cases hd : ofComment? comment with
          | none => simp [hd]
          | some d =>
              have hne : d.kind? ≠ some k := by simpa [isOfKind, hd] using hkind
              simp [hd, gives, hne]
        rw [if_neg hkind, ih, hnone, Option.none_or]

end Directive

namespace Tags

/-- Two sets of tags merged kind by kind; a tag of the first one wins. -/
def orElse (ts us : Tags) : Tags where
  affinity := ts.affinity.or us.affinity
  dispatch := ts.dispatch.or us.dispatch

theorem get?_orElse (ts us : Tags) (k : Kind) :
    (ts.orElse us).get? k = (ts.get? k).or (us.get? k) := by
  cases k <;> rfl

theorem get?_ofDoc_eq_firstTag? (doc : List String) (k : Kind) :
    (ofDoc doc).get? k = Directive.firstTag? k doc :=
  get?_ofDoc doc k

/-- A doc comment in two parts gives the tags of the first part, and those of the second where
the first gives none. -/
theorem ofDoc_append (doc rest : List String) :
    ofDoc (doc ++ rest) = (ofDoc doc).orElse (ofDoc rest) := by
  refine ext_get? fun k => ?_
  rw [get?_orElse, get?_ofDoc_eq_firstTag?, get?_ofDoc_eq_firstTag?, get?_ofDoc_eq_firstTag?,
    Directive.firstTag?_append]

theorem get?_eq_none_of_isEmpty {ts : Tags} (h : ts.isEmpty = true) (k : Kind) :
    ts.get? k = none := by
  obtain ⟨haffinity, hdispatch⟩ := Bool.and_eq_true_iff.mp h
  cases k with
  | affinity => exact Option.isNone_iff_eq_none.mp haffinity
  | dispatch => exact Option.isNone_iff_eq_none.mp hdispatch

end Tags

/-! ### Tags from external entries -/

namespace External

/-- Whether an entry gives a function a tag of a kind. -/
def gives (k : Kind) (f : Func) (e : External) : Bool :=
  e.kind = k && ! e.tag.isEmpty && e.spec.matchesFunc f

/-- The tag of a kind that the first entry to give one gives a function. -/
def firstTag? (k : Kind) (f : Func) (external : List External) : Option Tag :=
  (external.find? (gives k f)).map (·.tag)

theorem firstTag?_cons (k : Kind) (f : Func) (e : External) (rest : List External) :
    firstTag? k f (e :: rest) =
      (if e.gives k f then some e.tag else none).or (firstTag? k f rest) := by
  unfold firstTag?
  rw [List.find?_cons]
  cases e.gives k f <;> rfl

theorem firstTag?_filter_kind (k : Kind) (f : Func) (external : List External) :
    firstTag? k f (external.filter (·.kind = k)) = firstTag? k f external := by
  unfold firstTag?
  rw [List.find?_filter]
  congr 2
  funext e
  by_cases hkind : e.kind = k
  · simp [gives, hkind]
  · simp [gives, hkind]

end External

namespace Tags

/-- External entries fill the kinds that are still free. -/
theorem get?_foldl_external (f : Func) (k : Kind) (external : List External) (ts : Tags) :
    (external.foldl (fun ts e => if e.spec.matchesFunc f then ts.add e.kind e.tag else ts)
      ts).get? k = (ts.get? k).or (External.firstTag? k f external) := by
  induction external generalizing ts with
  | nil => simp [External.firstTag?]
  | cons e rest ih =>
      rw [List.foldl_cons, ih, External.firstTag?_cons, ← Option.or_assoc]
      congr 1
      by_cases hmatch : e.spec.matchesFunc f = true
      · rw [if_pos hmatch, get?_add]
        by_cases hkind : k = e.kind
        · subst hkind
          cases hempty : e.tag.isEmpty with
          | true => simp [External.gives, hempty]
          | false => simp [External.gives, hempty, hmatch]
        · have hkind' : e.kind ≠ k := fun h => hkind h.symm
          simp [External.gives, hkind, hkind']
      · rw [if_neg hmatch]
        simp [External.gives, hmatch]

end Tags

/-! ### The index -/

namespace TagIndex

/-- The doc comment of a function's declaration, empty if it is not declared. -/
def docOf (docs : List (Option Func × List String)) (f : Func) : List String :=
  (docs.lookup (some f)).getD []

theorem lookup_addDecl (known : Table Func Tags) (func : Option Func) (doc : List String)
    (f : Func) :
    ((addDecl known func doc).lookup f) =
      if func = some f ∧ (Tags.ofDoc doc).isEmpty = false then some (Tags.ofDoc doc)
      else known.lookup f := by
  cases func with
  | none => simp [addDecl]
  | some g =>
      unfold addDecl
      cases hempty : (Tags.ofDoc doc).isEmpty with
      | true => simp
      | false =>
          simp only [Bool.false_eq_true, if_false, and_true, Option.some.injEq]
          rw [Table.lookup_set]
          simp only [eq_comm]

/-- Declarations of other functions leave what is known about a function as it is. -/
theorem lookup_foldl_addDecl_of_notMem {docs : List (Option Func × List String)} {f : Func}
    (h : f ∉ docs.filterMap (·.1)) (known : Table Func Tags) :
    (docs.foldl (fun known d => addDecl known d.1 d.2) known).lookup f = known.lookup f := by
  induction docs generalizing known with
  | nil => rfl
  | cons d docs ih =>
      have hne : d.1 ≠ some f := by
        intro hd
        exact h (List.mem_filterMap.mpr ⟨d, List.mem_cons_self, hd⟩)
      have hrest : f ∉ docs.filterMap (·.1) := by
        intro hmem
        obtain ⟨e, he, hf⟩ := List.mem_filterMap.mp hmem
        exact h (List.mem_filterMap.mpr ⟨e, List.mem_cons_of_mem _ he, hf⟩)
      rw [List.foldl_cons, ih hrest, lookup_addDecl, if_neg (fun hc => hne hc.1)]

/-- If no function is declared twice, what is known about one is what its doc comment gives. -/
theorem get?_foldl_addDecl {docs : List (Option Func × List String)}
    (hdistinct : (docs.filterMap (·.1)).Nodup) {known : Table Func Tags} {f : Func}
    (hnew : known.lookup f = none) (k : Kind) :
    (((docs.foldl (fun known d => addDecl known d.1 d.2) known).lookup f).getD .empty).get? k =
      Directive.firstTag? k (docOf docs f) := by
  induction docs generalizing known with
  | nil => simp [hnew, docOf, Directive.firstTag?]
  | cons d docs ih =>
      obtain ⟨func, doc⟩ := d
      by_cases hfunc : func = some f
      · subst hfunc
        rw [List.filterMap_cons_some (f := fun d : Option Func × List String => d.1) rfl,
          List.nodup_cons] at hdistinct
        have hdoc : docOf ((some f, doc) :: docs) f = doc := by simp [docOf]
        rw [List.foldl_cons, lookup_foldl_addDecl_of_notMem hdistinct.1, lookup_addDecl, hdoc,
          ← Tags.get?_ofDoc_eq_firstTag?]
        cases hempty : (Tags.ofDoc doc).isEmpty with
        | true => simp [hnew, Tags.get?_eq_none_of_isEmpty hempty]
        | false => simp
      · have hdoc : docOf ((func, doc) :: docs) f = docOf docs f := by
          have hbeq : (some f == func) = false := beq_false_of_ne fun h => hfunc h.symm
          simp [docOf, List.lookup_cons, hbeq]
        have hrest : (docs.filterMap (·.1)).Nodup := by
          refine hdistinct.sublist ?_
          exact (List.sublist_cons_self _ docs).filterMap _
        have hnew' : (addDecl known func doc).lookup f = none := by
          rw [lookup_addDecl, if_neg (fun hc => hfunc hc.1), hnew]
        rw [List.foldl_cons, ih hrest hnew', hdoc]

theorem get?_lookup_build {docs : List (Option Func × List String)}
    (hdistinct : (docs.filterMap (·.1)).Nodup) (external : List External) (f : Func) (k : Kind) :
    ((build docs external).lookup f).get? k =
      (Directive.firstTag? k (docOf docs f)).or (External.firstTag? k f external) := by
  have hnew : ([] : Table Func Tags).lookup f = none := rfl
  unfold lookup
  rw [Tags.get?_foldl_external]
  exact congrArg (Option.or · (External.firstTag? k f external))
    (get?_foldl_addDecl hdistinct hnew k)

/-- The declarations with nothing left in the doc comments but the directives of a kind. -/
def onlyKind (k : Kind) (docs : List (Option Func × List String)) :
    List (Option Func × List String) :=
  docs.map fun d => (d.1, d.2.filter (Directive.isOfKind k))

theorem filterMap_onlyKind (k : Kind) (docs : List (Option Func × List String)) :
    (onlyKind k docs).filterMap (·.1) = docs.filterMap (·.1) := by
  unfold onlyKind
  rw [List.filterMap_map]
  rfl

theorem docOf_onlyKind (k : Kind) (docs : List (Option Func × List String)) (f : Func) :
    docOf (onlyKind k docs) f = (docOf docs f).filter (Directive.isOfKind k) := by
  induction docs with
  | nil => rfl
  | cons d docs ih =>
      unfold docOf onlyKind at ih ⊢
      rw [List.map_cons, List.lookup_cons, List.lookup_cons]
      cases some f == d.1 with
      | true => rfl
      | false => exact ih

/--
**Directives decide before external entries, and each kind by itself.**  If no function is
declared twice, the tag of a kind that the index has for a function is the argument of the first
directive of that kind with an argument in its doc comment; without one, it is the tag of the
first external entry of that kind with a tag that names the function; without that, there is
none.  All directives and entries of the other kind can be left out.  Of a doc comment in two
parts, the first part decides each kind for which it gives a tag.
-/
theorem lookup_build_precedence {docs : List (Option Func × List String)}
    (hdistinct : (docs.filterMap (·.1)).Nodup) (external : List External) (f : Func) :
    (∀ k, ((build docs external).lookup f).get? k =
      (Directive.firstTag? k (docOf docs f)).or (External.firstTag? k f external)) ∧
    (∀ k, ((build (onlyKind k docs) (external.filter (·.kind = k))).lookup f).get? k =
      ((build docs external).lookup f).get? k) ∧
    ∀ doc rest : List String,
      Tags.ofDoc (doc ++ rest) = (Tags.ofDoc doc).orElse (Tags.ofDoc rest) := by
  refine ⟨get?_lookup_build hdistinct external f, fun k => ?_, Tags.ofDoc_append⟩
  have hdistinct' : ((onlyKind k docs).filterMap (·.1)).Nodup := by
    rwa [filterMap_onlyKind]
  rw [get?_lookup_build hdistinct', get?_lookup_build hdistinct, docOf_onlyKind,
    Directive.firstTag?_filter_isOfKind, External.firstTag?_filter_kind]

/-- A function whose doc comment gives an affinity tag after a directive without one, and no
dispatch tag. -/
def printer : Func := { id := 0, name := "print", package := some "atelier" }

/-- Declarations of that function, of another one and of none. -/
def atelierDocs : List (Option Func × List String) :=
  [(some { id := 1, name := "post", package := some "atelier" }, ["//threadctl:dispatch Worker"]),
    (none, ["//threadctl:dispatch Main"]),
    (some printer, ["// Prints.", "//threadctl:thread", "//threadctl:thread Main - the screen",
      "//threadctl:dispatch - nothing", "//threadctl:thread Worker"])]

/-- Entries that name the function, but for the third one; the second one has no tag. -/
def atelierExternal : List External :=
  [{ spec := { package := "atelier", name := "print" }, kind := .affinity, tag := ⟨"UI"⟩ },
    { spec := { package := "atelier", name := "print" }, kind := .dispatch, tag := ⟨""⟩ },
    { spec := { package := "atelier", name := "post" }, kind := .dispatch, tag := ⟨"UI"⟩ },
    { spec := { package := "atelier", name := "print" }, kind := .dispatch, tag := ⟨"Disk"⟩ },
    { spec := { package := "atelier", name := "print" }, kind := .dispatch, tag := ⟨"Net"⟩ }]

theorem printer_precedence :
    (atelierDocs.filterMap (·.1)).Nodup ∧
      ((build atelierDocs atelierExternal).lookup printer).get? .affinity = some ⟨"Main"⟩ ∧
      ((build atelierDocs atelierExternal).lookup printer).get? .dispatch = some ⟨"Disk"⟩ := by
  have hdistinct : (atelierDocs.filterMap (·.1)).Nodup := by decide
  obtain ⟨hfirst, -⟩ := lookup_build_precedence hdistinct atelierExternal printer
  refine ⟨hdistinct, ?_, ?_⟩
  · rw [hfirst]
    decide
  · rw [hfirst]
    decide

end TagIndex

end ThreadAffinity
