/-
Which functions can be addressed by their qualified name.

The qualified name of a function is its package, the type of its receiver if it has one, and
its name, with dots between them.  `Describes` says that a specification has the parts of a
function, and matching is nothing else; so a qualified name addresses its function exactly if
reading finds the parts that it was put together from.

Reading has to guess where the package ends.  It takes the segment before the last dot for a
type if it starts with an upper-case byte, so two sorts of functions are out of reach: the
methods of types that do not start so, and the functions of packages that end like a type.
-/
import ThreadAffinity.Proofs.SpecForms

namespace ThreadAffinity

/-- A defined type of the given name, or a pointer to one. -/
inductive Ty.IsOf (t : String) : Ty → Prop
  | value (definition : Ty) : IsOf t (.named t definition)
  | pointer (definition : Ty) : IsOf t (.pointer (.named t definition))

theorem Ty.receiverName?_eq_some_iff {ty : Ty} {t : String} :
    ty.receiverName? = some t ↔ ty.IsOf t := by
  constructor
  · intro h
    unfold receiverName? at h
    split at h
    · obtain rfl := Option.some.inj h
      exact .pointer _
    · obtain rfl := Option.some.inj h
      exact .value _
    · simp at h
  · intro h
    cases h with
    | value definition => rfl
    | pointer definition => rfl

namespace FunctionSpec

open Text

/-! ### Matching compares the parts -/

/-- The function is in the package, has the name, and has a receiver of the type, by value or
by pointer, or none if there is no type. -/
structure Describes (s : FunctionSpec) (f : Func) : Prop where
  package : f.package = some s.package
  name : f.name = s.name
  plain : s.receiver = none → f.receiver = none
  method : ∀ t, s.receiver = some t → ∃ ty, f.receiver = some ty ∧ ty.IsOf t

theorem matchesFunc_iff {s : FunctionSpec} {f : Func} :
    s.matchesFunc f = true ↔ Describes s f := by
  unfold matchesFunc
  simp only [Bool.and_eq_true, beq_iff_eq]
  cases hs : s.receiver with
  | none =>
      simp only [Option.isNone_iff_eq_none]
      constructor
      · intro h
        obtain ⟨⟨hname, hpackage⟩, hreceiver⟩ := h
        exact ⟨hpackage, hname, fun _ => hreceiver, by simp [hs]⟩
      · intro h
        exact ⟨⟨h.name, h.package⟩, h.plain hs⟩
  | some t =>
      simp only [beq_iff_eq, Option.bind_eq_some_iff, Ty.receiverName?_eq_some_iff]
      constructor
      · intro h
        obtain ⟨⟨hname, hpackage⟩, hreceiver⟩ := h
        refine ⟨hpackage, hname, by simp [hs], fun u hu => ?_⟩
        obtain rfl : t = u := Option.some.inj (hs.symm.trans hu)
        exact hreceiver
      · intro h
        exact ⟨⟨h.name, h.package⟩, h.method t hs⟩

/-- A function has one description. -/
theorem Describes.eq {s s' : FunctionSpec} {f : Func} (h : Describes s f) (h' : Describes s' f) :
    s' = s := by
  have hpackage : s'.package = s.package := Option.some.inj (h'.package.symm.trans h.package)
  have hname : s'.name = s.name := h'.name.symm.trans h.name
  have hreceiver : s'.receiver = s.receiver := by
    cases hs : s.receiver with
    | none =>
        have hnone := h.plain hs
        cases hs' : s'.receiver with
        | none => rfl
        | some t =>
            obtain ⟨ty, hty, -⟩ := h'.method t hs'
            simp [hnone] at hty
    | some t =>
        obtain ⟨ty, hty, hof⟩ := h.method t hs
        cases hs' : s'.receiver with
        | none => simp [h'.plain hs'] at hty
        | some t' =>
            obtain ⟨ty', hty', hof'⟩ := h'.method t' hs'
            obtain rfl : ty = ty' := Option.some.inj (hty.symm.trans hty')
            rw [← Ty.receiverName?_eq_some_iff] at hof hof'
            exact hof'.symm.trans hof
  cases s
  cases s'
  simp_all

/-! ### The first byte of a segment -/

/-- The first byte of the text is the code of an upper-case letter. -/
def StartsUpper (text : String) : Prop :=
  ∃ b, text.toUTF8.data[0]? = some b ∧
    (0x41 ≤ b ∧ b ≤ 0x5A ∨ 0xC0 ≤ b ∧ b ≤ 0xD6 ∨ 0xD8 ≤ b ∧ b ≤ 0xDE)

theorem toNat_lt (c : Char) : c.toNat < 0x110000 := by
  have hvalid := c.valid
  simp only [UInt32.isValidChar, Nat.isValidChar] at hvalid
  show c.val.toNat < 0x110000
  omega

theorem leadByte_lt (c : Char) : leadByte c < 256 := by
  have hmax := toNat_lt c
  unfold leadByte
  grind

/-- The lead byte of a character is the first byte of its encoding. -/
theorem utf8EncodeChar_head? (c : Char) :
    (String.utf8EncodeChar c).head? = some (UInt8.ofNat (leadByte c)) := by
  have hmax : c.val.toNat < 0x110000 := toNat_lt c
  unfold String.utf8EncodeChar leadByte Char.toNat
  generalize c.val.toNat = k at hmax
  simp only
  by_cases h1 : k < 0x80
  · rw [if_pos (by omega), if_pos h1, List.head?_cons]
  by_cases h2 : k < 0x800
  · rw [if_neg (by omega), if_pos (by omega), if_neg h1, if_pos h2, List.head?_cons,
      show k / 64 % 32 + 192 = 192 + k / 64 by omega]
  by_cases h3 : k < 0x10000
  · rw [if_neg (by omega), if_neg (by omega), if_pos (by omega), if_neg h1, if_neg h2, if_pos h3,
      List.head?_cons, show k / 4096 % 16 + 224 = 224 + k / 4096 by omega]
  · rw [if_neg (by omega), if_neg (by omega), if_neg (by omega), if_neg h1, if_neg h2, if_neg h3,
      List.head?_cons, show k / 262144 % 8 + 240 = 240 + k / 262144 by omega]

theorem firstByte_ofList (c : Char) (cs : List Char) :
    (String.ofList (c :: cs)).toUTF8.data[0]? = some (UInt8.ofNat (leadByte c)) := by
  have hbytes : (String.ofList (c :: cs)).toUTF8.data.toList =
      String.utf8EncodeChar c ++ cs.flatMap String.utf8EncodeChar := by
    simp [String.toUTF8_eq_toByteArray, List.utf8Encode]
  rw [← Array.getElem?_toList, hbytes, ← List.head?_eq_getElem?, List.head?_append,
    utf8EncodeChar_head?]
  rfl

theorem startsUpper_cons_iff {c : Char} {cs : List Char} :
    StartsUpper (String.ofList (c :: cs)) ↔ isUpperByte (leadByte c) = true := by
  have hlt := leadByte_lt c
  unfold StartsUpper isUpperByte
  simp only [firstByte_ofList, Option.some.injEq, exists_eq_left', UInt8.le_iff_toNat_le,
    UInt8.toNat_ofNat', UInt8.reduceToNat, Bool.or_eq_true, Bool.and_eq_true, decide_eq_true_eq]
  omega

theorem not_startsUpper_empty : ¬ StartsUpper "" := by
  unfold StartsUpper
  simp

/-- A segment is taken for a type if it has no slash and starts with an upper-case byte. -/
theorem isTypeSegment_iff {segment : List Char} :
    isTypeSegment segment = true ↔ StartsUpper (String.ofList segment) ∧ '/' ∉ segment := by
  cases segment with
  | nil =>
      constructor
      · intro h
        simp [isTypeSegment] at h
      · intro h
        exact absurd h.1 not_startsUpper_empty
  | cons c cs =>
      rw [startsUpper_cons_iff, isTypeSegment, Bool.and_eq_true]
      simp

/-! ### Qualified names -/

/-- The name of a function or of a type: there is something, and no dot, slash or blank. -/
def IsName (name : String) : Prop :=
  name ≠ "" ∧ ∀ c ∈ name.toList, c ≠ '.' ∧ c ≠ '/' ∧ isBlank c = false

/-- The path of a package: there is something, and no blank. -/
def IsPath (path : String) : Prop :=
  path ≠ "" ∧ ∀ c ∈ path.toList, isBlank c = false

/-- The parts that a qualified name is put together from. -/
structure HasNames (s : FunctionSpec) : Prop where
  package : IsPath s.package
  name : IsName s.name
  receiver : ∀ t, s.receiver = some t → IsName t

/-- The last segment of a package, behind its last dot, is slash-free and starts with an
upper-case byte. -/
def TypeLike (path : String) : Prop :=
  ∃ front segment, path = front ++ "." ++ segment ∧ '.' ∉ segment.toList ∧ segment ≠ "" ∧
    '/' ∉ segment.toList ∧ StartsUpper segment

/-- The parts can be told apart in the qualified name. -/
def Readable (s : FunctionSpec) : Prop :=
  match s.receiver with
  | some t => StartsUpper t
  | none => ¬ TypeLike s.package

theorem endsInType_iff {path : String} : EndsInType path.toList ↔ TypeLike path := by
  constructor
  · intro h
    obtain ⟨front, segment, hpath, hdot, htype⟩ := h
    obtain ⟨hupper, hslash⟩ := isTypeSegment_iff.mp htype
    refine ⟨String.ofList front, String.ofList segment, ?_, by simpa using hdot, ?_,
      by simpa using hslash, hupper⟩
    · rw [← String.toList_inj, hpath]
      simp
    · intro hempty
      rw [hempty] at hupper
      exact not_startsUpper_empty hupper
  · intro h
    obtain ⟨front, segment, rfl, hdot, -, hslash, hupper⟩ := h
    refine ⟨front.toList, segment.toList, by simp, hdot, isTypeSegment_iff.mpr ⟨?_, hslash⟩⟩
    simpa using hupper

/-- Behind a last dot the last segment is the one that counts. -/
theorem endsInType_append_iff {front segment : List Char} (hdot : '.' ∉ segment) :
    EndsInType (front ++ '.' :: segment) ↔ isTypeSegment segment = true := by
  constructor
  · intro h
    obtain ⟨front', segment', htext, hdot', htype⟩ := h
    obtain ⟨-, rfl⟩ := eq_of_append_sep_eq hdot hdot' htext
    exact htype
  · intro h
    exact ⟨front, segment, rfl, hdot, h⟩

theorem IsName.dotless {name : String} (h : IsName name) : '.' ∉ name.toList :=
  fun hmem => (h.2 _ hmem).1 rfl

theorem IsName.toList_ne_nil {name : String} (h : IsName name) : name.toList ≠ [] := by
  simpa using h.1

theorem IsName.isTypeSegment_iff {t : String} (h : IsName t) :
    isTypeSegment t.toList = true ↔ StartsUpper t := by
  have hslash : '/' ∉ t.toList := fun hmem => (h.2 _ hmem).2.1 rfl
  rw [FunctionSpec.isTypeSegment_iff, String.ofList_toList]
  exact and_iff_left hslash

/-- A qualified name has no blanks, so nothing is trimmed. -/
theorem HasNames.trim_render {s : FunctionSpec} (h : HasNames s) :
    trim s.render.toList = s.render.toList := by
  have hdot : isBlank '.' = false := by decide
  have hpackage := h.package.2
  have hname : ∀ c ∈ s.name.toList, isBlank c = false := fun c hc => (h.name.2 c hc).2.2
  refine trim_eq_self fun c hc => ?_
  unfold render at hc
  split at hc
  · simp only [String.toList_append, List.mem_append] at hc
    rcases hc with (hc | hc) | hc
    · exact hpackage c hc
    · obtain rfl : c = '.' := by simpa using hc
      exact hdot
    · exact hname c hc
  · rename_i t ht
    simp only [String.toList_append, List.mem_append] at hc
    rcases hc with (((hc | hc) | hc) | hc) | hc
    · exact hpackage c hc
    · obtain rfl : c = '.' := by simpa using hc
      exact hdot
    · exact ((h.receiver t ht).2 c hc).2.2
    · obtain rfl : c = '.' := by simpa using hc
      exact hdot
    · exact hname c hc

/-- The qualified name of a function without receiver. -/
theorem HasNames.spells_plain {s : FunctionSpec} (h : HasNames s) (hs : s.receiver = none) :
    ∃ s', Spells s.render.toList s' ∧ (s' = s ↔ Readable s) := by
  have hpackage : s.package.toList ≠ [] := by simpa using h.package.1
  have htext : s.render.toList = s.package.toList ++ '.' :: s.name.toList := by
    simp [render, hs]
  have hreadable : Readable s ↔ ¬ EndsInType s.package.toList := by
    rw [endsInType_iff]
    simp [Readable, hs]
  rw [htext, hreadable]
  by_cases htype : EndsInType s.package.toList
  · obtain ⟨front, segment, hsplit, hdot, hupper⟩ := htype
    rw [hsplit]
    refine ⟨_, .method hdot hupper h.name.toList_ne_nil h.name.dotless, ?_⟩
    refine iff_of_false (fun heq => ?_) (fun hnot => hnot ⟨front, segment, rfl, hdot, hupper⟩)
    have hreceiver := congrArg FunctionSpec.receiver heq
    simp [hs] at hreceiver
  · refine ⟨_, .function hpackage htype h.name.toList_ne_nil h.name.dotless, ?_⟩
    refine iff_of_true ?_ htype
    cases s
    simp_all

/-- The qualified name of a method. -/
theorem HasNames.spells_method {s : FunctionSpec} (h : HasNames s) {t : String}
    (hs : s.receiver = some t) : ∃ s', Spells s.render.toList s' ∧ (s' = s ↔ Readable s) := by
  have ht := h.receiver t hs
  have htext : s.render.toList =
      s.package.toList ++ '.' :: t.toList ++ '.' :: s.name.toList := by
    simp [render, hs]
  have hreadable : Readable s ↔ isTypeSegment t.toList = true := by
    rw [ht.isTypeSegment_iff]
    simp [Readable, hs]
  rw [htext, hreadable]
  by_cases htype : isTypeSegment t.toList = true
  · refine ⟨_, .method ht.dotless htype h.name.toList_ne_nil h.name.dotless, ?_⟩
    refine iff_of_true ?_ htype
    cases s
    simp_all
  · -- The type goes to the package, and what is read has no receiver.
    have howner : ¬ EndsInType (s.package.toList ++ '.' :: t.toList) := by
      rw [endsInType_append_iff ht.dotless]
      exact htype
    refine ⟨_, .function (by simp) howner h.name.toList_ne_nil h.name.dotless, ?_⟩
    refine iff_of_false (fun heq => ?_) htype
    have hreceiver := congrArg FunctionSpec.receiver heq
    simp [hs] at hreceiver

/-- A qualified name is always read, and the parts are found again if they can be told apart. -/
theorem HasNames.parse_render {s : FunctionSpec} (h : HasNames s) :
    ∃ s', parse s.render = .ok s' ∧ (s' = s ↔ Readable s) := by
  have hspells : ∃ s', Spells s.render.toList s' ∧ (s' = s ↔ Readable s) := by
    cases hs : s.receiver with
    | none => exact h.spells_plain hs
    | some t => exact h.spells_method hs
  obtain ⟨s', hs', hiff⟩ := hspells
  refine ⟨s', parse_eq_ok_iff.mpr ?_, hiff⟩
  rw [h.trim_render]
  exact hs'

/-- **A function is addressed by its qualified name exactly if the parts of the name can be told
apart.**  The qualified name is always read.  What is read matches the function exactly if, for
a method, the type starts with an upper-case byte and, for any other function, the package does
not end like such a type; and then it matches the functions of the same package, name and
receiver type, by value or by pointer, and no others. -/
theorem qualified_name_addresses (s : FunctionSpec) (f : Func) (hnames : HasNames s)
    (hf : Describes s f) :
    ∃ s', parse s.render = .ok s' ∧
      (s'.matchesFunc f = true ↔ Readable s) ∧
      (s'.matchesFunc f = true → ∀ g, s'.matchesFunc g = true ↔ Describes s g) := by
  obtain ⟨s', hparse, hiff⟩ := hnames.parse_render
  have hsame : s'.matchesFunc f = true ↔ s' = s := by
    rw [matchesFunc_iff]
    constructor
    · intro h
      exact hf.eq h
    · intro h
      rw [h]
      exact hf
  refine ⟨s', hparse, hsame.trans hiff, fun h g => ?_⟩
  rw [hsame.mp h]
  exact matchesFunc_iff

/-- A method of a type whose first letter is a small one with an upper-case first byte. -/
def elanDraw (receiver : Ty) : Func :=
  { id := 0, name := "Draw", package := some "gopkg.in/ui.v2", receiver := some receiver }

/-- The method is addressed, by pointer as well as by value. -/
theorem elanDraw_addressed :
    HasNames ⟨"gopkg.in/ui.v2", some "élan", "Draw"⟩ ∧
      ∃ s, parse "gopkg.in/ui.v2.élan.Draw" = .ok s ∧
        s.matchesFunc (elanDraw (.pointer (.named "élan" .struct))) = true ∧
        s.matchesFunc (elanDraw (.named "élan" .map)) = true := by
  have hnames : HasNames ⟨"gopkg.in/ui.v2", some "élan", "Draw"⟩ := by
    refine ⟨⟨by decide, by simp [isBlank]⟩, ⟨by decide, by simp [isBlank]⟩, fun t ht => ?_⟩
    obtain rfl : "élan" = t := Option.some.inj ht
    exact ⟨by decide, by simp [isBlank]⟩
  have hdescribes : ∀ ty : Ty, ty.IsOf "élan" →
      Describes ⟨"gopkg.in/ui.v2", some "élan", "Draw"⟩ (elanDraw ty) := by
    intro ty hty
    refine ⟨rfl, rfl, by simp, fun t ht => ?_⟩
    obtain rfl : "élan" = t := Option.some.inj ht
    exact ⟨ty, rfl, hty⟩
  obtain ⟨s, hparse, hmatches, hsame⟩ :=
    qualified_name_addresses _ _ hnames (hdescribes _ (.pointer .struct))
  have hmatched := hmatches.mpr ⟨0xC3, by decide, by decide⟩
  exact ⟨hnames, s, hparse, hmatched, (hsame hmatched _).mpr (hdescribes _ (.value .map))⟩

end FunctionSpec

end ThreadAffinity
