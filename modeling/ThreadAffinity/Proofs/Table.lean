/-
Tables that are filled entry by entry.

To set a key a second time replaces its value, so a table that is filled from a list has
each key once, and under it the last value that the list gives it.  A list that gives no
key twice is the table itself.
-/
import Mathlib.Data.List.Induction
import Mathlib.Data.List.Nodup
import ThreadAffinity.Table

namespace ThreadAffinity

namespace Table

variable {κ α : Type} [DecidableEq κ]

/-- The table that a list of entries fills, one after the other. -/
def ofEntries (entries : List (κ × α)) : Table κ α :=
  entries.foldl (fun table e => set e.1 e.2 table) []

theorem keys_set (key : κ) (value : α) (t : Table κ α) :
    (set key value t).map (·.1) =
      if key ∈ t.map (·.1) then t.map (·.1) else t.map (·.1) ++ [key] := by
  induction t with
  | nil => simp [set]
  | cons entry rest ih =>
      obtain ⟨k, v⟩ := entry
      by_cases hk : k = key
      · simp [set, hk]
      · rw [set, if_neg hk, List.map_cons, ih, List.map_cons]
        by_cases hmem : key ∈ rest.map (·.1)
        · rw [if_pos hmem, if_pos (List.mem_cons_of_mem _ hmem)]
        · rw [if_neg hmem, if_neg (by simp only [List.mem_cons, Ne.symm hk, hmem, or_self,
            not_false_eq_true]), List.cons_append]

theorem nodup_keys_set {key : κ} {value : α} {t : Table κ α} (h : (t.map (·.1)).Nodup) :
    ((set key value t).map (·.1)).Nodup := by
  rw [keys_set]
  split
  · exact h
  · rename_i hmem
    rw [← List.concat_eq_append]
    exact List.Nodup.concat hmem h

theorem set_of_notMem {key : κ} {value : α} {t : Table κ α} (h : key ∉ t.map (·.1)) :
    set key value t = t ++ [(key, value)] := by
  induction t with
  | nil => rfl
  | cons entry rest ih =>
      rw [List.map_cons, List.mem_cons, not_or] at h
      rw [set, if_neg (Ne.symm h.1), ih h.2, List.cons_append]

/-- An entry is what is found under its key. -/
theorem mem_iff_lookup {t : Table κ α} (h : (t.map (·.1)).Nodup) {key : κ} {value : α} :
    (key, value) ∈ t ↔ t.lookup key = some value := by
  induction t with
  | nil => simp
  | cons entry rest ih =>
      obtain ⟨k, v⟩ := entry
      rw [List.map_cons, List.nodup_cons] at h
      by_cases hk : key = k
      · subst hk
        have hnot : (key, value) ∉ rest := fun hc => h.1 (List.mem_map.mpr ⟨_, hc, rfl⟩)
        simp [hnot, eq_comm]
      · simp [List.lookup_cons, beq_false_of_ne hk, hk, ih h.2]

/-! ### Filling a table -/

theorem ofEntries_concat (entries : List (κ × α)) (e : κ × α) :
    ofEntries (entries ++ [e]) = set e.1 e.2 (ofEntries entries) := by
  rw [ofEntries, List.foldl_concat]
  rfl

theorem nodup_keys_ofEntries (entries : List (κ × α)) :
    ((ofEntries entries).map (·.1)).Nodup := by
  induction entries using List.reverseRecOn with
  | nil => exact List.nodup_nil
  | append_singleton entries e ih =>
      rw [ofEntries_concat]
      exact nodup_keys_set ih

/-- The last entry of a key is the one that is found. -/
theorem lookup_ofEntries (entries : List (κ × α)) (key : κ) :
    (ofEntries entries).lookup key = entries.reverse.lookup key := by
  induction entries using List.reverseRecOn with
  | nil => rfl
  | append_singleton entries e ih =>
      rw [ofEntries_concat, lookup_set, ih, List.reverse_append, List.reverse_singleton,
        List.singleton_append, List.lookup_cons]
      by_cases hkey : key = e.1
      · simp [hkey]
      · simp [hkey, beq_false_of_ne hkey]

/-- What is in the table is what no later entry replaces. -/
theorem mem_ofEntries {entries : List (κ × α)} {key : κ} {value : α} :
    (key, value) ∈ ofEntries entries ↔
      ∃ before after, entries = before ++ (key, value) :: after ∧ key ∉ after.map (·.1) := by
  rw [mem_iff_lookup (nodup_keys_ofEntries entries), lookup_ofEntries, List.lookup_eq_some_iff]
  constructor
  · intro h
    obtain ⟨after, before, heq, hafter⟩ := h
    refine ⟨before.reverse, after.reverse, ?_, ?_⟩
    · rw [← List.reverse_reverse entries, heq]
      simp
    · intro hmem
      obtain ⟨e, he, hkey⟩ := List.mem_map.mp hmem
      have := hafter e (List.mem_reverse.mp he)
      simp [hkey] at this
  · intro h
    obtain ⟨before, after, rfl, hafter⟩ := h
    refine ⟨after.reverse, before.reverse, by simp, ?_⟩
    intro e he
    have hne : key ≠ e.1 := by
      intro hkey
      exact hafter (hkey ▸ List.mem_map_of_mem (List.mem_reverse.mp he))
    simpa using hne

theorem ofEntries_eq_self {entries : List (κ × α)} (h : (entries.map (·.1)).Nodup) :
    ofEntries entries = entries := by
  induction entries using List.reverseRecOn with
  | nil => rfl
  | append_singleton entries e ih =>
      rw [List.map_append, List.map_singleton, List.nodup_append] at h
      have hnot : e.1 ∉ entries.map (·.1) := fun hc =>
        h.2.2 e.1 hc e.1 (List.mem_singleton_self _) rfl
      rw [ofEntries_concat, ih h.1, set_of_notMem hnot]

end Table

end ThreadAffinity
