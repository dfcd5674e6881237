/-
In which order the entries of a file and of the flags are visited.

A table of entries has no order of its own, so whoever goes through one may meet its entries in
any.  The keys are sorted after they are collected and a flag has each key once: neither order
can be seen.  A section of the file may have several keys that are equal up to the blanks around
them, and of these the one that is visited last gives the tag.  Each of them can be that one, so
what the visits agree on is what holds for every choice of a value for each key.
-/
import ThreadAffinity.Proofs.ExternalTags

namespace ThreadAffinity.External

open Text Entries

/-- The tags of a table, key by key. -/
theorem ofEntries_eq_mapM_keys (kind : Kind) {entries : Entries} (h : entries.Sorted) :
    ofEntries kind entries =
      (entries.map (·.1)).mapM fun key => ofEntry kind key ((entries.lookup key).getD "") := by
  rw [List.mapM_map, ofEntries]
  refine mapM_congr fun ⟨key, value⟩ hentry => ?_
  simp only [Function.comp, h.mem_iff_lookup.mp hentry, Option.getD_some]

/-- The orders in which the tables of a kind are visited: the section of the file and the table
of the flag when they are merged, and the merged table when its keys are collected. -/
structure Visits where
  file : Kind → List (String × String) → List (String × String)
  flag : Kind → List (String × String) → List (String × String)
  keys : Kind → List String → List String
  file_perm : ∀ k entries, (file k entries).Perm entries
  flag_perm : ∀ k table, (flag k table).Perm table
  keys_perm : ∀ k texts, (keys k texts).Perm texts

namespace Visits

/-- Every table from its first entry to its last. -/
def inOrder : Visits where
  file _ entries := entries
  flag _ table := table
  keys _ texts := texts
  file_perm _ _ := .refl _
  flag_perm _ _ := .refl _
  keys_perm _ _ := .refl _

/-- Every table from its last entry to its first. -/
def reversed : Visits where
  file _ := List.reverse
  flag _ := List.reverse
  keys _ := List.reverse
  file_perm _ := List.reverse_perm
  flag_perm _ := List.reverse_perm
  keys_perm _ := List.reverse_perm

/-- Both tables of a kind merged as they are visited. -/
def merge (v : Visits) (kind : Kind) (entries table : Entries) : Entries :=
  External.merge (v.file kind entries) (v.flag kind table)

/-- The tags of a merged table.  The keys are collected as they are visited, and then sorted. -/
def ofEntries (v : Visits) (kind : Kind) (merged : Entries) :
    Except ExternalError (List External) :=
  ((v.keys kind (merged.map (·.1))).mergeSort (· ≤ ·)).mapM fun key =>
    ofEntry kind key ((merged.lookup key).getD "")

/-- The tags that a file and the tables of both flags give together. -/
def combine (v : Visits) (file : AnnotationFile) (thread dispatch : Entries) :
    Except ExternalError (List External) := do
  let affinities ← v.ofEntries .affinity (v.merge .affinity file.thread thread)
  let dispatches ← v.ofEntries .dispatch (v.merge .dispatch file.dispatch dispatch)
  return affinities ++ dispatches

/-- The tags that a file and both flag values give, with all tables visited in these orders. -/
def ofFile (v : Visits) (file : AnnotationFile) (flag : Kind → String) :
    Except ExternalError (List External) := do
  let threads ← (parseFlag (flag .affinity)).mapError (.flag .affinity)
  let dispatches ← (parseFlag (flag .dispatch)).mapError (.flag .dispatch)
  v.combine file threads dispatches

/-! ### Only the order of the file can be seen -/

theorem mergeSort_keys (v : Visits) (kind : Kind) {merged : Entries} (h : merged.Sorted) :
    (v.keys kind (merged.map (·.1))).mergeSort (· ≤ ·) = merged.map (·.1) := by
  have hsorted : (merged.map (·.1)).Pairwise (· ≤ ·) :=
    List.pairwise_map.mpr (h.imp le_of_lt)
  have hmerged : ((v.keys kind (merged.map (·.1))).mergeSort (· ≤ ·)).Pairwise
      fun a b => decide (a ≤ b) = true :=
    List.pairwise_mergeSort (fun a b c => by simpa using le_trans)
      (fun a b => by simpa using le_total a b) _
  simp only [decide_eq_true_eq] at hmerged
  refine List.Perm.eq_of_pairwise (fun a b _ _ => le_antisymm) hmerged hsorted ?_
  exact (List.mergeSort_perm _ _).trans (v.keys_perm kind _)

/-- The order in which the keys are collected cannot be seen. -/
theorem ofEntries_eq (v : Visits) (kind : Kind) {merged : Entries} (h : merged.Sorted) :
    v.ofEntries kind merged = External.ofEntries kind merged := by
  rw [ofEntries, v.mergeSort_keys kind h, ofEntries_eq_mapM_keys kind h]

/-- The order in which the flag is visited cannot be seen. -/
theorem merge_eq (v : Visits) (kind : Kind) (entries : Entries) {table : Entries}
    (h : table.Sorted) :
    v.merge kind entries table = External.merge (v.file kind entries) table := by
  have hperm := v.flag_perm kind table
  have hnodup : ((v.flag kind table).map (·.1)).Nodup := (hperm.map _).nodup_iff.mpr h.nodup_keys
  refine (sorted_merge _ _).ext (sorted_merge _ _) fun key => ?_
  rw [lookup_merge, lookup_merge, lookup_reverse hnodup, lookup_reverse h.nodup_keys,
    lookup_perm hnodup hperm]

/-- The file with its sections in the order in which they are visited. -/
def visited (v : Visits) (file : AnnotationFile) : AnnotationFile :=
  { thread := v.file .affinity file.thread, dispatch := v.file .dispatch file.dispatch }

theorem entriesOf_visited (v : Visits) (file : AnnotationFile) (k : Kind) :
    (v.visited file).entriesOf k = v.file k (file.entriesOf k) := by
  cases k <;> rfl

theorem combine_eq (v : Visits) (file : AnnotationFile) {thread dispatch : Entries}
    (hthread : thread.Sorted) (hdispatch : dispatch.Sorted) :
    v.combine file thread dispatch = External.combine (v.visited file) thread dispatch := by
  rw [combine, v.merge_eq _ _ hthread, v.merge_eq _ _ hdispatch,
    v.ofEntries_eq _ (sorted_merge _ _), v.ofEntries_eq _ (sorted_merge _ _)]
  rfl

/-- What comes out is what the file gives with its sections in the order of the visit. -/
theorem ofFile_eq (v : Visits) (file : AnnotationFile) (flag : Kind → String) :
    v.ofFile file flag = External.ofFile (v.visited file) (flag .affinity) (flag .dispatch) := by
  unfold ofFile External.ofFile
  cases hthread : parseFlag (flag .affinity) with
  | error e => rfl
  | ok threads =>
      cases hdispatch : parseFlag (flag .dispatch) with
      | error e => rfl
      | ok dispatches =>
          exact v.combine_eq file (sorted_parseFlag hthread) (sorted_parseFlag hdispatch)

end Visits

/-! ### The values that a key can get -/

/-- The keys that the tables of a kind have together, without outer blanks. -/
def keysOf (entries table : Entries) : List String :=
  (merge entries table).map (·.1)

/-- The values that a key can get: that of the flag, or any that the file has for it. -/
def valuesOf (entries table : Entries) (key : String) : List String :=
  match table.lookup key with
  | some tag => [tag]
  | none => (entries.filter fun e => trimmed e.1 = key).map (·.2)

/-- The value that a key gets. -/
def valueOf (entries table : Entries) (key : String) : String :=
  ((merge entries table).lookup key).getD ""

theorem mem_keysOf {entries table : Entries} {key : String} :
    key ∈ keysOf entries table ↔
      key ∈ table.map (·.1) ∨ key ∈ (trimmedKeys entries).map (·.1) := by
  rw [keysOf, mem_keys_iff, lookup_merge, Option.isSome_or, Bool.or_eq_true, ← mem_keys_iff,
    ← mem_keys_iff, List.map_reverse, List.mem_reverse, List.map_reverse, List.mem_reverse]

theorem keysOf_perm {entries others : Entries} (table : Entries) (h : entries.Perm others) :
    keysOf entries table = keysOf others table := by
  have hsorted : ∀ entries, (keysOf entries table).Pairwise (· < ·) := fun entries =>
    List.pairwise_map.mpr (sorted_merge entries table)
  have hkeys : ((trimmedKeys entries).map (·.1)).Perm ((trimmedKeys others).map (·.1)) :=
    (h.map _).map _
  refine List.Pairwise.eq_of_mem_iff (hsorted entries) (hsorted others) fun key => ?_
  rw [mem_keysOf, mem_keysOf, hkeys.mem_iff]

theorem mem_valuesOf_of_lookup_eq_none {entries table : Entries} {key value : String}
    (h : table.lookup key = none) :
    value ∈ valuesOf entries table key ↔ (key, value) ∈ trimmedKeys entries := by
  simp [valuesOf, h, mem_trimmedKeys]

theorem valueOf_of_lookup_eq_some {entries table : Entries} {key tag : String}
    (htable : table.Sorted) (h : table.lookup key = some tag) :
    valueOf entries table key = tag := by
  rw [valueOf, lookup_merge, lookup_reverse htable.nodup_keys, h]
  rfl

theorem valueOf_of_lookup_eq_none {entries table : Entries} {key : String}
    (htable : table.Sorted) (h : table.lookup key = none) :
    valueOf entries table key = ((trimmedKeys entries).reverse.lookup key).getD "" := by
  rw [valueOf, lookup_merge, lookup_reverse htable.nodup_keys, h]
  rfl

/-- In whatever order a section is visited, a key gets one of its values. -/
theorem valueOf_mem {entries others table : Entries} {key : String} (htable : table.Sorted)
    (hperm : others.Perm entries) (hkey : key ∈ keysOf entries table) :
    valueOf others table key ∈ valuesOf entries table key := by
  cases hflag : table.lookup key with
  | some tag => simp [valueOf_of_lookup_eq_some htable hflag, valuesOf, hflag]
  | none =>
      have hfile : key ∈ (trimmedKeys others).map (·.1) := by
        rw [← keysOf_perm table hperm, mem_keysOf, mem_keys_iff, hflag] at hkey
        exact hkey.resolve_left (by simp)
      obtain ⟨value, hvalue, hmem⟩ := exists_lookup_reverse hfile
      rw [valueOf_of_lookup_eq_none htable hflag, hvalue, Option.getD_some,
        mem_valuesOf_of_lookup_eq_none hflag]
      exact ((hperm.map _).mem_iff).mp hmem

theorem trimmedKeys_append (entries others : List (String × String)) :
    trimmedKeys (entries ++ others) = trimmedKeys entries ++ trimmedKeys others :=
  List.map_append

/-- A visit that meets the entries with a chosen value after all others of their section. -/
def Visits.choosing (g : Kind × String → String) : Visits where
  file k entries :=
    entries.filter (fun e => ! decide (e.2 = g (k, trimmed e.1))) ++
      entries.filter fun e => decide (e.2 = g (k, trimmed e.1))
  flag _ table := table
  keys _ texts := texts
  file_perm _ entries := List.perm_append_comm.trans (List.filter_append_perm _ entries)
  flag_perm _ _ := .refl _
  keys_perm _ _ := .refl _

/-- Every value that a key can get is the one it gets on some visit. -/
theorem valueOf_choosing {g : Kind × String → String} {k : Kind} {entries table : Entries}
    {key : String} (htable : table.Sorted) (hg : g (k, key) ∈ valuesOf entries table key) :
    valueOf ((Visits.choosing g).file k entries) table key = g (k, key) := by
  cases hflag : table.lookup key with
  | some tag =>
      rw [valueOf_of_lookup_eq_some htable hflag]
      simpa [valuesOf, hflag, eq_comm] using hg
  | none =>
      rw [mem_valuesOf_of_lookup_eq_none hflag, mem_trimmedKeys] at hg
      obtain ⟨raw, hraw, rfl⟩ := hg
      -- All entries that come last for this key have the chosen value, and there is one.
      have hlast : trimmed raw ∈ (trimmedKeys
          (entries.filter fun e => decide (e.2 = g (k, trimmed e.1)))).map (·.1) :=
        List.mem_map.mpr ⟨_, mem_trimmedKeys.mpr
          ⟨raw, List.mem_filter.mpr ⟨hraw, by simp⟩, rfl⟩, rfl⟩
      obtain ⟨value, hvalue, hmem⟩ := exists_lookup_reverse hlast
      obtain ⟨raw', hraw', hkey⟩ := mem_trimmedKeys.mp hmem
      have hchosen : value = g (k, trimmed raw) := by
        simpa [hkey] using (List.mem_filter.mp hraw').2
      rw [valueOf_of_lookup_eq_none htable hflag, Visits.choosing, trimmedKeys_append,
        List.reverse_append, List.lookup_append, hvalue, hchosen]
      rfl

/-! ### Both kinds -/

/-- The keys that get a tag, with the kind of the tag, in the order in which they get it. -/
def slots (file : AnnotationFile) (tables : Kind → Entries) : List (Kind × String) :=
  (keysOf (file.entriesOf .affinity) (tables .affinity)).map (Kind.affinity, ·) ++
    (keysOf (file.entriesOf .dispatch) (tables .dispatch)).map (Kind.dispatch, ·)

/-- The values that a key of a kind can get. -/
def slotValues (file : AnnotationFile) (tables : Kind → Entries) (s : Kind × String) :
    List String :=
  valuesOf (file.entriesOf s.1) (tables s.1) s.2

/-- The value that a key of a kind gets. -/
def slotValue (file : AnnotationFile) (tables : Kind → Entries) (s : Kind × String) : String :=
  valueOf (file.entriesOf s.1) (tables s.1) s.2

theorem mem_slots {file : AnnotationFile} {tables : Kind → Entries} {k : Kind} {key : String} :
    (k, key) ∈ slots file tables ↔ key ∈ keysOf (file.entriesOf k) (tables k) := by
  cases k <;> simp [slots]

theorem slots_visited (v : Visits) (file : AnnotationFile) (tables : Kind → Entries) :
    slots (v.visited file) tables = slots file tables := by
  simp only [slots, v.entriesOf_visited, keysOf_perm _ (v.file_perm _ _)]

section Agreement

variable {file : AnnotationFile} {flag : Kind → String} {tables : Kind → Entries}
  (htables : ∀ k, parseFlag (flag k) = .ok (tables k))

include htables

theorem ofFile_eq_mapM : ofFile file (flag .affinity) (flag .dispatch) =
    (slots file tables).mapM fun s => ofEntry s.1 s.2 (slotValue file tables s) := by
  rw [ofFile, htables, htables, slots, List.mapM_append, List.mapM_map, List.mapM_map]
  change combine file (tables .affinity) (tables .dispatch) = _
  rw [combine, ofEntries_eq_mapM_keys _ (sorted_merge _ _),
    ofEntries_eq_mapM_keys _ (sorted_merge _ _)]
  rfl

theorem Visits.ofFile_eq_mapM (v : Visits) : v.ofFile file flag =
    (slots file tables).mapM fun s => ofEntry s.1 s.2 (slotValue (v.visited file) tables s) := by
  rw [v.ofFile_eq, External.ofFile_eq_mapM htables, slots_visited]

theorem isChoice_visited (v : Visits) :
    IsChoice (slotValues file tables) (slots file tables) (slotValue (v.visited file) tables) := by
  intro ⟨k, key⟩ hslot
  rw [slotValue, v.entriesOf_visited]
  exact valueOf_mem (sorted_parseFlag (htables k)) (v.file_perm k _) (mem_slots.mp hslot)

theorem Visits.ofFile_choosing {g : Kind × String → String}
    (hg : IsChoice (slotValues file tables) (slots file tables) g) :
    (Visits.choosing g).ofFile file flag =
      (slots file tables).mapM fun s => ofEntry s.1 s.2 (g s) := by
  rw [Visits.ofFile_eq_mapM htables]
  refine mapM_congr fun s hs => ?_
  rw [slotValue, Visits.entriesOf_visited,
    valueOf_choosing (sorted_parseFlag (htables s.1)) (hg s hs)]

/-- The visits agree exactly if the choice of the values makes no difference. -/
theorem agree_iff_settled : (∀ v w : Visits, v.ofFile file flag = w.ofFile file flag) ↔
    Settled (slotValues file tables) (fun s => ofEntry s.1 s.2) (slots file tables) := by
  have hvalues : ∀ s ∈ slots file tables, slotValues file tables s ≠ [] := fun s hs =>
    List.ne_nil_of_mem (isChoice_visited htables Visits.inOrder s hs)
  rw [← indistinct_iff_settled hvalues]
  constructor
  · intro h g g' hg hg'
    have hruns := h (Visits.choosing g) (Visits.choosing g')
    rwa [Visits.ofFile_choosing htables hg, Visits.ofFile_choosing htables hg'] at hruns
  · intro h v w
    rw [v.ofFile_eq_mapM htables, w.ofFile_eq_mapM htables]
    exact h _ _ (isChoice_visited htables v) (isChoice_visited htables w)

end Agreement

theorem eq_of_mem_valuesOf {entries table : Entries} {key value other : String}
    (hkeys : (entries.map fun e => trimmed e.1).Nodup) (hvalue : value ∈ valuesOf entries table key)
    (hother : other ∈ valuesOf entries table key) : value = other := by
  cases hflag : table.lookup key with
  | some tag =>
      simp only [valuesOf, hflag, List.mem_singleton] at hvalue hother
      rw [hvalue, hother]
  | none =>
      rw [mem_valuesOf_of_lookup_eq_none hflag, mem_trimmedKeys,
        ← lookup_trimmedKeys_iff hkeys] at hvalue hother
      exact Option.some.inj (hvalue.symm.trans hother)

/-- If a flag value cannot be read, no visit is made. -/
theorem exists_fault {flag : Kind → String}
    (h : ¬ ∃ tables : Kind → Entries, ∀ k, parseFlag (flag k) = .ok (tables k)) :
    ∃ cause, ∀ (file : AnnotationFile) (v : Visits), v.ofFile file flag = .error cause := by
  cases hthread : parseFlag (flag .affinity) with
  | error e =>
      refine ⟨.flag .affinity e, fun file v => ?_⟩
      rw [Visits.ofFile, hthread]
      rfl
  | ok threads =>
      cases hdispatch : parseFlag (flag .dispatch) with
      | error e =>
          refine ⟨.flag .dispatch e, fun file v => ?_⟩
          rw [Visits.ofFile, hthread, hdispatch]
          rfl
      | ok dispatches =>
          refine absurd ⟨(Kind.rec threads dispatches ·), ?_⟩ h
          rintro (_ | _)
          · exact hthread
          · exact hdispatch

theorem agree_of_settled {file : AnnotationFile} {flag : Kind → String}
    (h : ∀ tables : Kind → Entries, (∀ k, parseFlag (flag k) = .ok (tables k)) →
      Settled (slotValues file tables) (fun s => ofEntry s.1 s.2) (slots file tables))
    (v w : Visits) : v.ofFile file flag = w.ofFile file flag := by
  by_cases hflags : ∃ tables : Kind → Entries, ∀ k, parseFlag (flag k) = .ok (tables k)
  · obtain ⟨tables, htables⟩ := hflags
    exact (agree_iff_settled htables).mpr (h tables htables) v w
  · obtain ⟨cause, hcause⟩ := exists_fault hflags
    rw [hcause file v, hcause file w]

theorem Visits.ofFile_inOrder (file : AnnotationFile) (flag : Kind → String) :
    Visits.inOrder.ofFile file flag = External.ofFile file (flag .affinity) (flag .dispatch) :=
  Visits.inOrder.ofFile_eq file flag

/-- **All visits agree exactly if it makes no difference which of its values each key gets.**
That is, no key can tell its values apart, or some key fails under all of them and no key before
it can fail otherwise.  They agree in particular, on what `ofFile` gives, if no two keys of a
section are equal up to the blanks around them. -/
theorem visits_agree_iff (file : AnnotationFile) (flag : Kind → String) :
    ((∀ v w : Visits, v.ofFile file flag = w.ofFile file flag) ↔
      ∀ tables : Kind → Entries, (∀ k, parseFlag (flag k) = .ok (tables k)) →
        Settled (slotValues file tables) (fun s => ofEntry s.1 s.2) (slots file tables)) ∧
    Visits.inOrder.ofFile file flag = ofFile file (flag .affinity) (flag .dispatch) ∧
    ((∀ k, ((file.entriesOf k).map fun e => trimmed e.1).Nodup) →
      ∀ v : Visits, v.ofFile file flag = ofFile file (flag .affinity) (flag .dispatch)) := by
  refine ⟨⟨fun h tables htables => (agree_iff_settled htables).mp h, agree_of_settled⟩,
    Visits.ofFile_inOrder file flag, fun hkeys v => ?_⟩
  rw [← Visits.ofFile_inOrder]
  refine agree_of_settled (fun tables _ => .inl ?_) v Visits.inOrder
  intro s _ value hvalue other hother
  rw [eq_of_mem_valuesOf (hkeys s.1) hvalue hother]

/-- A section with two keys that are equal up to a blank. -/
def paddedFile : AnnotationFile :=
  { thread := [(" a.B", "X"), ("a.B", "Y")] }

/-- Flag values that give the key of this section a tag. -/
def settlingFlag : Kind → String
  | .affinity => "a.B=Z"
  | .dispatch => ""

theorem settled_visits_agree :
    (∀ v w : Visits, v.ofFile paddedFile settlingFlag = w.ofFile paddedFile settlingFlag) ∧
    (∀ k, ((raggedFile.entriesOf k).map fun e => trimmed e.1).Nodup) ∧
    ∀ v : Visits, v.ofFile raggedFile raggedFlag =
      ofFile raggedFile (raggedFlag .affinity) (raggedFlag .dispatch) := by
  have hkeys : ∀ k, ((raggedFile.entriesOf k).map fun e => trimmed e.1).Nodup := by
    rintro (_ | _) <;> decide
  refine ⟨(visits_agree_iff paddedFile settlingFlag).1.mpr fun tables htables => .inl ?_, hkeys,
    (visits_agree_iff raggedFile raggedFlag).2.2 hkeys⟩
  have hthread : tables .affinity = [("a.B", "Z")] :=
    Except.ok.inj ((htables .affinity).symm.trans (by decide))
  have hdispatch : tables .dispatch = [] :=
    Except.ok.inj ((htables .dispatch).symm.trans (by decide))
  have hslots : slots paddedFile tables = [(.affinity, "a.B")] := by
    rw [slots, hthread, hdispatch]
    decide
  intro s hs value hvalue other hother
  rw [hslots, List.mem_singleton] at hs
  subst hs
  rw [slotValues, hthread] at hvalue hother
  rw [List.mem_singleton.mp hvalue, List.mem_singleton.mp hother]

theorem padded_keys_disagree :
    AnnotationFile.load "tags.yaml" (some "thread:\n  \" a.B\": X\n  a.B: Y\n") = .ok paddedFile ∧
    (∀ k, ((paddedFile.entriesOf k).map (·.1)).Nodup) ∧
    Visits.inOrder.ofFile paddedFile (fun _ => "") =
      .ok [{ spec := { package := "a", name := "B" }, kind := .affinity, tag := ⟨"Y"⟩ }] ∧
    Visits.reversed.ofFile paddedFile (fun _ => "") =
      .ok [{ spec := { package := "a", name := "B" }, kind := .affinity, tag := ⟨"X"⟩ }] := by
  refine ⟨by decide +kernel, by rintro (_ | _) <;> decide, ?_, ?_⟩
  · rw [Visits.ofFile_eq]
    decide
  · rw [Visits.ofFile_eq]
    decide

end ThreadAffinity.External
