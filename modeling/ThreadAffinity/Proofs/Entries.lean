/-
What is entered under a key, and what a flag value enters.

A table of entries is kept in the order of its keys, so each key is in it once, under the value
that was entered last.  The parts of a flag value enter their tags one after the other, if each
of them has one: then the tag of a key is that of the last part with this key.
-/
import Mathlib.Data.List.Sort
import Mathlib.Data.String.Basic
import ThreadAffinity.External.Flag
import ThreadAffinity.Proofs.FirstFault
import ThreadAffinity.Proofs.Table
import ThreadAffinity.Proofs.Text

namespace ThreadAffinity.Entries

open Text

/-! ### Entering several values -/

theorem Sorted.insertAll {entries : Entries} (h : entries.Sorted)
    (updates : List (String × String)) : (Entries.insertAll entries updates).Sorted := by
  induction updates generalizing entries with
  | nil => exact h
  | cons update updates ih => exact ih (h.insert update.1 update.2)

theorem sorted_insertAll_nil (updates : List (String × String)) :
    (insertAll [] updates).Sorted := by
  have hnil : Sorted [] := List.Pairwise.nil
  exact hnil.insertAll updates

/-- The last value entered for a key counts; a key for which none is entered keeps its value. -/
theorem lookup_insertAll (entries : Entries) (updates : List (String × String)) (key : String) :
    (insertAll entries updates).lookup key =
      (updates.reverse.lookup key).or (entries.lookup key) := by
  induction updates using List.reverseRecOn with
  | nil => rfl
  | append_singleton updates update ih =>
      unfold insertAll at ih ⊢
      rw [List.foldl_concat, lookup_insert, ih, List.reverse_append, List.reverse_singleton,
        List.singleton_append, List.lookup_cons]
      by_cases hkey : key = update.1
      · simp [hkey]
      · simp [hkey, beq_false_of_ne hkey]

theorem Sorted.nodup_keys {entries : Entries} (h : entries.Sorted) : (entries.map (·.1)).Nodup :=
  List.pairwise_map.mpr (h.imp fun hlt => ne_of_lt hlt)

theorem Sorted.mem_iff_lookup {entries : Entries} (h : entries.Sorted) {key value : String} :
    (key, value) ∈ entries ↔ entries.lookup key = some value :=
  Table.mem_iff_lookup h.nodup_keys

theorem mem_keys_iff {entries : List (String × String)} {key : String} :
    key ∈ entries.map (·.1) ↔ (entries.lookup key).isSome := by
  simp only [List.mem_map, List.lookup_isSome_iff, beq_iff_eq, eq_comm (a := key)]

/-- A key that is there has a last value. -/
theorem exists_lookup_reverse {entries : List (String × String)} {key : String}
    (h : key ∈ entries.map (·.1)) :
    ∃ value, entries.reverse.lookup key = some value ∧ (key, value) ∈ entries := by
  rw [← List.mem_reverse, ← List.map_reverse, mem_keys_iff, Option.isSome_iff_exists] at h
  obtain ⟨value, hvalue⟩ := h
  obtain ⟨before, after, hsplit, -⟩ := List.lookup_eq_some_iff.mp hvalue
  refine ⟨value, hvalue, List.mem_reverse.mp ?_⟩
  rw [hsplit]
  exact List.mem_append_right before List.mem_cons_self

/-- Two tables with the same values under the same keys are the same. -/
theorem Sorted.ext {entries others : Entries} (h : entries.Sorted) (h' : others.Sorted)
    (hlookup : ∀ key, entries.lookup key = others.lookup key) : entries = others := by
  have hirrefl : Std.Irrefl fun a b : String × String => a.1 < b.1 := ⟨fun a => lt_irrefl a.1⟩
  have hasymm : Std.Antisymm fun a b : String × String => a.1 < b.1 :=
    ⟨fun a b hab hba => absurd hba (lt_asymm hab)⟩
  refine List.Pairwise.eq_of_mem_iff h h' fun ⟨key, value⟩ => ?_
  rw [h.mem_iff_lookup, h'.mem_iff_lookup, hlookup]

theorem lookup_perm {entries others : List (String × String)} (h : (entries.map (·.1)).Nodup)
    (hperm : entries.Perm others) (key : String) : entries.lookup key = others.lookup key := by
  have h' : (others.map (·.1)).Nodup := (hperm.map _).nodup_iff.mp h
  refine Option.ext fun value => ?_
  rw [← Table.mem_iff_lookup h, ← Table.mem_iff_lookup h', hperm.mem_iff]

/-- Where no key comes twice, it does not matter from which end a value is looked for. -/
theorem lookup_reverse {entries : List (String × String)} (h : (entries.map (·.1)).Nodup)
    (key : String) : entries.reverse.lookup key = entries.lookup key :=
  (lookup_perm h (List.reverse_perm entries).symm key).symm

/-! ### Flag values -/

/-- A part of a flag value sets the tag of a key: key and tag are what stands before and after
its first equals sign, without the blanks around them, and there is a tag. -/
def SetsTag (part : List Char) (key tag : String) : Prop :=
  ∃ front back, part = front ++ '=' :: back ∧ '=' ∉ front ∧ key = String.ofList (trim front) ∧
    tag = String.ofList (trim back) ∧ tag ≠ ""

theorem SetsTag.trimmed_key {part : List Char} {key tag : String} (h : SetsTag part key tag) :
    trimmed key = key := by
  obtain ⟨front, -, -, -, rfl, -⟩ := h
  simp [trimmed, trim_trim]

theorem SetsTag.trimmed_tag {part : List Char} {key tag : String} (h : SetsTag part key tag) :
    trimmed tag = tag := by
  obtain ⟨-, back, -, -, -, rfl, -⟩ := h
  simp [trimmed, trim_trim]

theorem flagEntry_eq_ok_iff {part : List Char} {key tag : String} :
    flagEntry part = .ok (key, tag) ↔ SetsTag part key tag := by
  unfold flagEntry
  constructor
  · intro h
    split at h
    · rename_i front back hcut
      obtain ⟨hpart, hmem⟩ := cutFirst_eq_some_iff.mp hcut
      split at h
      · cases h
      · rename_i hne
        obtain ⟨rfl, rfl⟩ := Prod.mk.inj (Except.ok.inj h)
        exact ⟨front, back, hpart, hmem, rfl, rfl, by simpa using hne⟩
    · cases h
  · rintro ⟨front, back, rfl, hmem, rfl, rfl, hne⟩
    have hback : (trim back).isEmpty = false := by simpa using hne
    rw [cutFirst_append hmem]
    simp [hback]

/-- The tag that a flag value gives a key: that of the last of its parts with this key. -/
def FlagGives (flag key tag : String) : Prop :=
  ∃ before part after, flagParts flag.toList = before ++ part :: after ∧ SetsTag part key tag ∧
    ∀ p ∈ after, ∀ other, ¬ SetsTag p key other

theorem parseFlag_eq_ok_iff {flag : String} {table : Entries} :
    parseFlag flag = .ok table ↔ ∃ pairs, (flagParts flag.toList).mapM flagEntry = .ok pairs ∧
      table = insertAll [] pairs := by
  simp only [parseFlag, bind_eq_ok_iff, pure, Except.pure, Except.ok.injEq, eq_comm (a := table)]

theorem lookup_reverse_eq_some_iff {pairs : List (String × String)} {key tag : String} :
    pairs.reverse.lookup key = some tag ↔
      ∃ before after, pairs = before ++ (key, tag) :: after ∧ key ∉ after.map (·.1) := by
  rw [← Table.lookup_ofEntries, ← Table.mem_iff_lookup (Table.nodup_keys_ofEntries pairs),
    Table.mem_ofEntries]

theorem lookup_pairs_iff {flag : String} {pairs : List (String × String)}
    (h : (flagParts flag.toList).mapM flagEntry = .ok pairs) {key tag : String} :
    pairs.reverse.lookup key = some tag ↔ FlagGives flag key tag := by
  have hmap := mapM_eq_ok_iff.mp h
  rw [lookup_reverse_eq_some_iff]
  constructor
  · rintro ⟨before, after, rfl, hlast⟩
    rw [List.map_append, List.map_cons, List.map_eq_append_iff] at hmap
    obtain ⟨front, rest, hparts, -, hrest⟩ := hmap
    obtain ⟨part, back, rfl, hpart, hback⟩ := List.map_eq_cons_iff.mp hrest
    refine ⟨front, part, back, hparts, flagEntry_eq_ok_iff.mp hpart, fun p hp other hsets => ?_⟩
    have hmem : flagEntry p ∈ after.map .ok := hback ▸ List.mem_map_of_mem hp
    rw [flagEntry_eq_ok_iff.mpr hsets] at hmem
    obtain ⟨pair, hpair, heq⟩ := List.mem_map.mp hmem
    rw [Except.ok.injEq] at heq
    exact hlast (List.mem_map.mpr ⟨pair, hpair, by rw [heq]⟩)
  · rintro ⟨front, part, back, hparts, hpart, hlast⟩
    rw [hparts, List.map_append, List.map_cons, eq_comm, List.map_eq_append_iff] at hmap
    obtain ⟨before, rest, rfl, -, hrest⟩ := hmap
    obtain ⟨pair, after, rfl, hpair, hafter⟩ := List.map_eq_cons_iff.mp hrest
    rw [flagEntry_eq_ok_iff.mpr hpart, Except.ok.injEq] at hpair
    refine ⟨before, after, by rw [hpair], fun hmem => ?_⟩
    obtain ⟨⟨key', other⟩, hother, rfl⟩ := List.mem_map.mp hmem
    have hmem' : Except.ok (key', other) ∈ back.map flagEntry :=
      hafter ▸ List.mem_map_of_mem hother
    obtain ⟨p, hp, heq⟩ := List.mem_map.mp hmem'
    exact hlast p hp other (flagEntry_eq_ok_iff.mp heq)

/-- A flag value is read exactly if every part sets a tag. -/
theorem exists_parseFlag_iff {flag : String} :
    (∃ table, parseFlag flag = .ok table) ↔
      ∀ part ∈ flagParts flag.toList, ∃ key tag, SetsTag part key tag := by
  constructor
  · rintro ⟨table, h⟩ part hpart
    obtain ⟨pairs, hpairs, -⟩ := parseFlag_eq_ok_iff.mp h
    obtain ⟨⟨key, tag⟩, -, hpair⟩ := exists_of_mapM_eq_ok hpairs hpart
    exact ⟨key, tag, flagEntry_eq_ok_iff.mp hpair⟩
  · intro h
    obtain ⟨pairs, hpairs⟩ := exists_mapM_eq_ok fun part hpart => by
      obtain ⟨key, tag, hsets⟩ := h part hpart
      exact ⟨(key, tag), flagEntry_eq_ok_iff.mpr hsets⟩
    exact ⟨_, parseFlag_eq_ok_iff.mpr ⟨pairs, hpairs, rfl⟩⟩

theorem sorted_parseFlag {flag : String} {table : Entries} (h : parseFlag flag = .ok table) :
    table.Sorted := by
  obtain ⟨pairs, -, rfl⟩ := parseFlag_eq_ok_iff.mp h
  exact sorted_insertAll_nil pairs

/-- The table that is read from a flag value holds what the value gives. -/
theorem lookup_parseFlag_iff {flag : String} {table : Entries} (h : parseFlag flag = .ok table)
    {key tag : String} : table.lookup key = some tag ↔ FlagGives flag key tag := by
  obtain ⟨pairs, hpairs, rfl⟩ := parseFlag_eq_ok_iff.mp h
  rw [lookup_insertAll, List.lookup_nil, Option.or_none, lookup_pairs_iff hpairs]

end ThreadAffinity.Entries
