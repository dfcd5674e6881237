/-
Entries of the form "specification to tag", by text.

`Entries` is an association list that `insert` keeps in increasing order of key,
with one entry per key and the last write winning.  Two tables with the same
entries are therefore the same list, whatever order they were filled in.
-/
namespace ThreadAffinity

/-- Texts by key, in increasing order of key. -/
abbrev Entries := List (String × String)

namespace Entries

/-- Sets the value of a key, in its place in the order. -/
def insert (key value : String) : Entries → Entries
  | [] => [(key, value)]
  | (k, v) :: rest =>
    if key < k then (key, value) :: (k, v) :: rest
    else if key = k then (key, value) :: rest
    else (k, v) :: insert key value rest

/-- The keys are in strictly increasing order, so that no key comes twice. -/
def Sorted (entries : Entries) : Prop :=
  entries.Pairwise fun a b => a.1 < b.1

/-- Sets the values of several keys, one after the other. -/
def insertAll (entries : Entries) (updates : List (String × String)) : Entries :=
  updates.foldl (fun es (key, value) => insert key value es) entries

/-! ### What a key holds, and the order of the keys -/

/-- Setting a key changes what is found under it and nothing else. -/
theorem lookup_insert (key other value : String) (entries : Entries) :
    (insert key value entries).lookup other =
      if other = key then some value else entries.lookup other := by
  induction entries with
  | nil =>
    by_cases ho : other = key
    · simp [insert, ho]
    · simp [insert, ho, List.lookup_cons, beq_false_of_ne ho]
  | cons entry rest ih =>
    obtain ⟨k, v⟩ := entry
    by_cases hlt : key < k
    · by_cases ho : other = key
      · simp [insert, hlt, ho]
      · simp [insert, hlt, ho, List.lookup_cons, beq_false_of_ne ho]
    · by_cases hk : key = k
      · subst hk
        by_cases ho : other = key
        · simp [insert, ho]
        · simp [insert, ho, List.lookup_cons, beq_false_of_ne ho]
      · by_cases ho : other = k
        · subst ho
          simp [insert, hlt, hk, Ne.symm hk]
        · simp [insert, hlt, hk, List.lookup_cons, beq_false_of_ne ho, ih]

/-- Inserting adds one entry and drops at most the old entry of its key. -/
theorem mem_insert {key value : String} {entries : Entries} {entry : String × String}
    (h : entry ∈ insert key value entries) : entry = (key, value) ∨ entry ∈ entries := by
  induction entries with
  | nil => simpa [insert] using h
  | cons head rest ih =>
    obtain ⟨k, v⟩ := head
    by_cases hlt : key < k
    · simpa [insert, hlt] using h
    · by_cases hk : key = k
      · rcases (by simpa [insert, hlt, hk] using h : entry = (k, value) ∨ entry ∈ rest) with
          heq | hmem
        · exact .inl (by simp [heq, hk])
        · exact .inr (List.mem_cons_of_mem _ hmem)
      · rcases (by simpa [insert, hlt, hk] using h :
          entry = (k, v) ∨ entry ∈ insert key value rest) with heq | hmem
        · exact .inr (by simp [heq])
        · exact (ih hmem).imp id (List.mem_cons_of_mem _)

/-- Inserting keeps the keys in order. -/
theorem Sorted.insert {entries : Entries} (h : Sorted entries) (key value : String) :
    Sorted (Entries.insert key value entries) := by
  induction entries with
  | nil => simp [Entries.insert, Sorted]
  | cons head rest ih =>
    obtain ⟨k, v⟩ := head
    obtain ⟨hhead, hrest⟩ := List.pairwise_cons.1 h
    by_cases hlt : key < k
    · simp only [Entries.insert, if_pos hlt]
      refine List.pairwise_cons.2 ⟨?_, h⟩
      intro entry hmem
      rcases List.mem_cons.1 hmem with rfl | hmem
      · exact hlt
      · exact String.lt_trans hlt (hhead entry hmem)
    · by_cases hk : key = k
      · subst hk
        simp only [Entries.insert, if_neg hlt, if_pos]
        exact List.pairwise_cons.2 ⟨hhead, hrest⟩
      · simp only [Entries.insert, if_neg hlt, if_neg hk]
        refine List.pairwise_cons.2 ⟨?_, ih hrest⟩
        intro entry hmem
        rcases mem_insert hmem with rfl | hmem
        · exact String.not_le.1 fun hle => hk (String.le_antisymm hle (String.not_lt.1 hlt))
        · exact hhead entry hmem

end Entries

end ThreadAffinity
