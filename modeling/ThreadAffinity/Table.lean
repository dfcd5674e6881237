/-
Values by key, for tables whose order is that in which the keys were first set.
-/
namespace ThreadAffinity

/-- Values by key; a key comes at most once. -/
abbrev Table (κ α : Type) := List (κ × α)

namespace Table

variable {κ α : Type} [DecidableEq κ]

/-- Sets the value of a key, in the place of the value it had. -/
def set (key : κ) (value : α) : Table κ α → Table κ α
  | [] => [(key, value)]
  | (k, v) :: rest => if k = key then (key, value) :: rest else (k, v) :: set key value rest

/-- Setting a key changes what is found under it and nothing else. -/
theorem lookup_set (key other : κ) (value : α) (t : Table κ α) :
    (set key value t).lookup other = if other = key then some value else t.lookup other := by
  induction t with
  | nil =>
    by_cases h : other = key
    · simp [set, h]
    · simp [set, h, List.lookup_cons, beq_false_of_ne h]
  | cons entry rest ih =>
    obtain ⟨k, v⟩ := entry
    by_cases hk : k = key
    · subst hk
      by_cases h : other = k
      · simp [set, h]
      · simp [set, h, List.lookup_cons, beq_false_of_ne h]
    · by_cases h : other = k
      · subst h
        simp [set, hk]
      · simp [set, hk, List.lookup_cons, beq_false_of_ne h, ih]

end Table

end ThreadAffinity
