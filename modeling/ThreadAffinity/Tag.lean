/-
Thread tags and the two ways a function carries them.

An affinity tag says on which thread a function has to run.  A dispatch tag says to
which thread a function hands the callbacks it is given.  `Tags` holds at most one
tag of each kind, never an empty one, and the first tag of a kind wins.
-/
import ThreadAffinity.Text.Blank

namespace ThreadAffinity

/-- The name of a thread, compared by its exact text. -/
structure Tag where
  text : String
deriving DecidableEq, Repr, Inhabited

namespace Tag

/-- The tag written in a text, without the blanks around it. -/
def ofText (text : String) : Tag :=
  ⟨Text.trimmed text⟩

/-- The tag without characters, which no function can carry. -/
def isEmpty (t : Tag) : Bool :=
  t.text == ""

end Tag

/-- What a tag says about a function. -/
inductive Kind where
  /-- The function runs on the tagged thread. -/
  | affinity
  /-- The function hands its callbacks to the tagged thread. -/
  | dispatch
deriving DecidableEq, Repr

namespace Kind

/-- The name of the directive that gives a function a tag of this kind. -/
def directive : Kind → String
  | affinity => "threadctl:thread"
  | dispatch => "threadctl:dispatch"

/-- The kind's own name. -/
def label : Kind → String
  | affinity => "affinity"
  | dispatch => "dispatch"

/-- The kind whose directive has the given name. -/
def ofDirective? (name : String) : Option Kind :=
  if name = affinity.directive then some affinity
  else if name = dispatch.directive then some dispatch
  else none

/-- The kind with the given number: one for affinity, two for dispatch. -/
def ofNumber? : Int → Option Kind
  | 1 => some affinity
  | 2 => some dispatch
  | _ => none

/-- The directive name of a kind given by number, empty for a number without a kind. -/
def numberDirective (k : Int) : String :=
  (ofNumber? k).elim "" directive

/-- The name of a kind given by number. -/
def numberLabel (k : Int) : String :=
  (ofNumber? k).elim "unknown" label

@[simp] theorem ofDirective?_directive (k : Kind) : ofDirective? k.directive = some k := by
  cases k <;> decide

end Kind

/-- At most one tag of each kind. -/
structure Tags where
  affinity : Option Tag := none
  dispatch : Option Tag := none
deriving DecidableEq, Repr, Inhabited

namespace Tags

/-- No tag at all. -/
def empty : Tags := {}

/-- The tag of a kind. -/
def get? (ts : Tags) : Kind → Option Tag
  | .affinity => ts.affinity
  | .dispatch => ts.dispatch

/-- Adds a tag of a kind.  An empty tag is not added, and a tag already there stays. -/
def add (ts : Tags) (k : Kind) (t : Tag) : Tags :=
  if t.isEmpty || (ts.get? k).isSome then ts
  else match k with
    | .affinity => { ts with affinity := some t }
    | .dispatch => { ts with dispatch := some t }

/-- Adds a tag whose kind is given by number.  A number without a kind adds nothing. -/
def addNumbered (ts : Tags) (k : Int) (t : Tag) : Tags :=
  (Kind.ofNumber? k).elim ts (ts.add · t)

/-- Whether there is no tag of either kind. -/
def isEmpty (ts : Tags) : Bool :=
  ts.affinity.isNone && ts.dispatch.isNone

/-- The tags with their kinds, affinity first. -/
def toList (ts : Tags) : List (Kind × Tag) :=
  (ts.affinity.map (Kind.affinity, ·)).toList ++ (ts.dispatch.map (Kind.dispatch, ·)).toList

/-! ### What adding a tag changes -/

@[simp] theorem get?_empty (k : Kind) : Tags.empty.get? k = none := by
  cases k <;> rfl

/-- Adding a tag fills an empty place of its kind and changes nothing else. -/
theorem get?_add (ts : Tags) (k j : Kind) (t : Tag) :
    (ts.add k t).get? j =
      if j = k then (ts.get? k).or (if t.isEmpty then none else some t) else ts.get? j := by
  cases k <;> cases j <;> cases h : t.isEmpty <;> cases ha : ts.affinity <;>
    cases hd : ts.dispatch <;> simp [add, get?, h, ha, hd]

/-- Two sets of tags with the same tag of each kind are equal. -/
theorem ext_get? {ts us : Tags} (h : ∀ k, ts.get? k = us.get? k) : ts = us := by
  cases ts; cases us
  have ha := h .affinity
  have hd := h .dispatch
  simp [get?] at ha hd
  simp [ha, hd]

end Tags

end ThreadAffinity
