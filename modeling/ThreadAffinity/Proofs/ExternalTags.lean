/-
Which tags a file and two flag values give together.

A merged table holds, under each key, the tag of the flag if there is one and that of the file
otherwise.  Its keys are without outer blanks, so a key is the text of the specification that is
read from it.  That is what carries the order of the keys over to the specifications, and why
two entries never share one.
-/
import ThreadAffinity.External.Basic
import ThreadAffinity.Proofs.Entries
import ThreadAffinity.Proofs.SpecText

namespace ThreadAffinity

open Text

/-- The section of a file with the entries of a kind. -/
def AnnotationFile.entriesOf (file : AnnotationFile) : Kind → Entries
  | .affinity => file.thread
  | .dispatch => file.dispatch

namespace External

open Entries

/-! ### The tag of a key -/

/-- A section of the file and a flag value together give a key a tag: that of the flag if it
has one for the key, and otherwise that of the file.  A blank value of the file counts as well,
as the empty tag. -/
def Gives (entries : Entries) (flag key tag : String) : Prop :=
  FlagGives flag key tag ∨
    (∀ other, ¬ FlagGives flag key other) ∧
      ∃ raw value, (raw, value) ∈ entries ∧ trimmed raw = key ∧ trimmed value = tag

theorem Gives.trimmed_key {entries : Entries} {flag key tag : String}
    (h : Gives entries flag key tag) : trimmed key = key := by
  rcases h with ⟨_, _, _, -, hsets, -⟩ | ⟨-, raw, _, -, rfl, -⟩
  · exact hsets.trimmed_key
  · exact trimmed_trimmed raw

/-- The entries of a section with their keys as the merged table has them. -/
def trimmedKeys (entries : List (String × String)) : List (String × String) :=
  entries.map fun e => (trimmed e.1, e.2)

theorem merge_eq (entries table : List (String × String)) :
    merge entries table = insertAll (insertAll [] (trimmedKeys entries)) table :=
  rfl

theorem sorted_merge (entries table : List (String × String)) : (merge entries table).Sorted :=
  (sorted_insertAll_nil _).insertAll table

theorem lookup_merge (entries table : List (String × String)) (key : String) :
    (merge entries table).lookup key =
      (table.reverse.lookup key).or ((trimmedKeys entries).reverse.lookup key) := by
  rw [merge_eq, lookup_insertAll, lookup_insertAll, List.lookup_nil, Option.or_none]

theorem mem_trimmedKeys {entries : List (String × String)} {key value : String} :
    (key, value) ∈ trimmedKeys entries ↔ ∃ raw, (raw, value) ∈ entries ∧ trimmed raw = key := by
  simp [trimmedKeys]

theorem lookup_trimmedKeys_iff {entries : List (String × String)}
    (hkeys : (entries.map fun e => trimmed e.1).Nodup) {key value : String} :
    (trimmedKeys entries).reverse.lookup key = some value ↔
      ∃ raw, (raw, value) ∈ entries ∧ trimmed raw = key := by
  have hnodup : ((trimmedKeys entries).map (·.1)).Nodup := by
    rw [trimmedKeys, List.map_map]
    exact hkeys
  rw [lookup_reverse hnodup, ← Table.mem_iff_lookup hnodup, mem_trimmedKeys]

/-- The merged table holds what the file and the flag give. -/
theorem gives_iff {entries table : Entries} {flag key tag : String}
    (hkeys : (entries.map fun e => trimmed e.1).Nodup) (hflag : parseFlag flag = .ok table) :
    Gives entries flag key tag ↔ ∃ value, (key, value) ∈ merge entries table ∧
      trimmed value = tag := by
  have htable := (sorted_parseFlag hflag).nodup_keys
  simp only [(sorted_merge entries table).mem_iff_lookup, lookup_merge, lookup_reverse htable,
    Gives, ← lookup_parseFlag_iff hflag]
  cases hlookup : table.lookup key with
  | none =>
      simp only [Option.none_or, lookup_trimmedKeys_iff hkeys, reduceCtorEq, not_false_eq_true,
        implies_true, false_or, true_and]
      constructor
      · rintro ⟨raw, value, hmem, hraw, hvalue⟩
        exact ⟨value, ⟨raw, hmem, hraw⟩, hvalue⟩
      · rintro ⟨value, ⟨raw, hmem, hraw⟩, hvalue⟩
        exact ⟨raw, value, hmem, hraw, hvalue⟩
  | some found =>
      obtain ⟨_, _, _, -, hsets, -⟩ := (lookup_parseFlag_iff hflag).mp hlookup
      simp [hsets.trimmed_tag]

/-! ### From entries to tags -/

theorem ofEntry_eq_ok_iff {kind : Kind} {key value : String} {e : External} :
    ofEntry kind key value = .ok e ↔ ∃ spec, FunctionSpec.parse key = .ok spec ∧
      trimmed value ≠ "" ∧ e = { spec, kind, tag := ⟨trimmed value⟩ } := by
  unfold ofEntry
  cases FunctionSpec.parse key with
  | error cause => exact iff_of_false (by rintro ⟨⟩) (by rintro ⟨_, ⟨⟩, -⟩)
  | ok spec =>
      by_cases hblank : trimmed value = ""
      · simp [Tag.ofText, Tag.isEmpty, hblank]
      · simp [Tag.ofText, Tag.isEmpty, hblank, eq_comm (a := e)]

/-- What shows of a tag: its kind, the text of its specification and its own. -/
def shown (e : External) : Kind × String × String :=
  (e.kind, e.spec.render, e.tag.text)

/-- Tags show what the entries are that they come from. -/
theorem map_shown {kind : Kind} {entries : Entries} {part : List External}
    (hkeys : ∀ e ∈ entries, trimmed e.1 = e.1) (h : ofEntries kind entries = .ok part) :
    part.map shown = entries.map fun e => (kind, e.1, trimmed e.2) := by
  refine map_eq_of_mapM_eq_ok ?_ h
  intro entry hentry e he
  obtain ⟨spec, hspec, -, rfl⟩ := ofEntry_eq_ok_iff.mp he
  rw [shown, FunctionSpec.render_of_parse hspec, hkeys entry hentry]

theorem exists_of_mem_part {kind : Kind} {entries : Entries} {part : List External}
    (hkeys : ∀ e ∈ entries, trimmed e.1 = e.1) (h : ofEntries kind entries = .ok part)
    {e : External} (he : e ∈ part) : e.kind = kind ∧
      ∃ value, (e.spec.render, value) ∈ entries ∧ trimmed value = e.tag.text := by
  have hmem := List.mem_map_of_mem (f := shown) he
  rw [map_shown hkeys h, List.mem_map] at hmem
  obtain ⟨⟨key, value⟩, hentry, heq⟩ := hmem
  obtain ⟨hkind, hrest⟩ := Prod.mk.inj heq
  obtain ⟨rfl, htag⟩ := Prod.mk.inj hrest
  exact ⟨hkind.symm, value, hentry, htag⟩

theorem increasing_part {kind : Kind} {entries : Entries} {part : List External}
    (hsorted : entries.Sorted) (hkeys : ∀ e ∈ entries, trimmed e.1 = e.1)
    (h : ofEntries kind entries = .ok part) :
    part.Pairwise fun a b => a.spec.render < b.spec.render := by
  have htexts : part.map (fun e => e.spec.render) = entries.map (·.1) := by
    have hshown := congrArg (List.map fun s => s.2.1) (map_shown hkeys h)
    rwa [List.map_map, List.map_map] at hshown
  have hpairs := List.pairwise_map.mpr hsorted
  rw [← htexts] at hpairs
  exact List.pairwise_map.mp hpairs

/-! ### Both kinds -/

/-- Why a file and flag values can be combined: every part of a flag has a tag, every key is a
specification, and no key is left with a blank tag. -/
structure Acceptable (file : AnnotationFile) (flag : Kind → String) : Prop where
  flags : ∀ k, ∀ part ∈ flagParts (flag k).toList, ∃ key tag, SetsTag part key tag
  keys : ∀ k key tag, Gives (file.entriesOf k) (flag k) key tag →
    ∃ spec, FunctionSpec.parse key = .ok spec
  tags : ∀ k key tag, Gives (file.entriesOf k) (flag k) key tag → tag ≠ ""

/-- The tags that a file and flag values combine to. -/
structure Combined (file : AnnotationFile) (flag : Kind → String) (out : List External) :
    Prop where
  affinityFirst : out = out.filter (·.kind = .affinity) ++ out.filter (·.kind = .dispatch)
  increasing : ∀ k, (out.filter (·.kind = k)).Pairwise fun a b => a.spec.render < b.spec.render
  distinct : (out.map fun e => (e.kind, e.spec)).Nodup
  /-- A key with a tag has exactly one entry, with this tag. -/
  entries : ∀ k key tag, Gives (file.entriesOf k) (flag k) key tag →
    ∃ spec, FunctionSpec.parse key = .ok spec ∧
      out.filter (fun e => (e.kind, e.spec.render) = (k, key)) = [{ spec, kind := k, tag := ⟨tag⟩ }]
  /-- There are no other entries. -/
  given : ∀ e ∈ out, Gives (file.entriesOf e.kind) (flag e.kind) e.spec.render e.tag.text

variable {file : AnnotationFile} {flag : Kind → String}

theorem ofFile_eq_ok_iff {out : List External} :
    ofFile file (flag .affinity) (flag .dispatch) = .ok out ↔
      ∃ (tables : Kind → Entries) (parts : Kind → List External),
        (∀ k, parseFlag (flag k) = .ok (tables k)) ∧
        (∀ k, ofEntries k (merge (file.entriesOf k) (tables k)) = .ok (parts k)) ∧
        out = parts .affinity ++ parts .dispatch := by
  simp only [ofFile, combine, bind_eq_ok_iff, mapError_eq_ok_iff, pure, Except.pure,
    Except.ok.injEq]
  constructor
  · rintro ⟨threads, hthreads, dispatches, hdispatches, first, hfirst, second, hsecond, rfl⟩
    refine ⟨(Kind.rec threads dispatches ·), (Kind.rec first second ·), ?_, ?_, rfl⟩
    · rintro (_ | _)
      · exact hthreads
      · exact hdispatches
    · rintro (_ | _)
      · exact hfirst
      · exact hsecond
  · rintro ⟨tables, parts, htables, hparts, rfl⟩
    exact ⟨_, htables .affinity, _, htables .dispatch, _, hparts .affinity, _, hparts .dispatch,
      rfl⟩

theorem filter_kind {parts : Kind → List External} (hkinds : ∀ k, ∀ e ∈ parts k, e.kind = k)
    (k : Kind) : (parts .affinity ++ parts .dispatch).filter (·.kind = k) = parts k := by
  have hall : ∀ k, (parts k).filter (·.kind = k) = parts k := fun k =>
    List.filter_eq_self.mpr fun e he => by simp [hkinds k e he]
  have hnone : ∀ k other, other ≠ k → (parts other).filter (·.kind = k) = [] :=
    fun k other hne => List.filter_eq_nil_iff.mpr fun e he => by simp [hkinds other e he, hne]
  rw [List.filter_append]
  cases k with
  | affinity => rw [hall, hnone _ _ (by decide), List.append_nil]
  | dispatch => rw [hall, hnone _ _ (by decide), List.nil_append]

theorem mem_parts_iff {parts : Kind → List External} (hkinds : ∀ k, ∀ e ∈ parts k, e.kind = k)
    {e : External} : e ∈ parts .affinity ++ parts .dispatch ↔ e ∈ parts e.kind := by
  rw [← filter_kind hkinds e.kind, List.mem_filter]
  simp

theorem nodup_of_increasing {parts : Kind → List External}
    (hkinds : ∀ k, ∀ e ∈ parts k, e.kind = k)
    (h : ∀ k, (parts k).Pairwise fun a b => a.spec.render < b.spec.render) :
    ((parts .affinity ++ parts .dispatch).map fun e => (e.kind, e.spec.render)).Nodup := by
  have hpart : ∀ k, (parts k).Pairwise fun a b =>
      (a.kind, a.spec.render) ≠ (b.kind, b.spec.render) :=
    fun k => (h k).imp fun {a b} hlt (heq : (a.kind, _) = (b.kind, _)) =>
      ne_of_lt hlt (Prod.mk.inj heq).2
  refine List.pairwise_map.mpr (List.pairwise_append.mpr ⟨hpart _, hpart _, ?_⟩)
  intro a ha b hb heq
  have hkind := (Prod.mk.inj heq).1
  rw [hkinds _ a ha, hkinds _ b hb] at hkind
  cases hkind

theorem filter_eq_singleton {α κ : Type} [DecidableEq κ] {key : α → κ} {l : List α} {a : α}
    (h : (l.map key).Nodup) (ha : a ∈ l) : l.filter (fun b => key b = key a) = [a] := by
  obtain ⟨before, after, rfl⟩ := List.append_of_mem ha
  rw [List.map_append, List.map_cons, List.nodup_middle, List.nodup_cons, ← List.map_append] at h
  have hother : ∀ b ∈ before ++ after, key b ≠ key a := fun b hb heq =>
    h.1 (List.mem_map.mpr ⟨b, hb, heq⟩)
  rw [List.filter_append, List.filter_cons_of_pos (by simp),
    List.filter_eq_nil_iff.mpr fun b hb => by simpa using hother b (List.mem_append_left _ hb),
    List.filter_eq_nil_iff.mpr fun b hb => by simpa using hother b (List.mem_append_right _ hb)]
  rfl

section Combining

variable (hkeys : ∀ k, ((file.entriesOf k).map fun e => trimmed e.1).Nodup)

include hkeys

theorem acceptable_iff :
    Acceptable file flag ↔ ∃ out, ofFile file (flag .affinity) (flag .dispatch) = .ok out := by
  constructor
  · intro h
    choose tables htables using fun k => exists_parseFlag_iff.mpr (h.flags k)
    have hparts : ∀ k, ∃ part, ofEntries k (merge (file.entriesOf k) (tables k)) = .ok part := by
      intro k
      refine exists_mapM_eq_ok fun ⟨key, value⟩ hentry => ?_
      have hgives := (gives_iff (hkeys k) (htables k)).mpr ⟨value, hentry, rfl⟩
      obtain ⟨spec, hspec⟩ := h.keys k key _ hgives
      exact ⟨_, ofEntry_eq_ok_iff.mpr ⟨spec, hspec, h.tags k key _ hgives, rfl⟩⟩
    choose parts hparts using hparts
    exact ⟨_, ofFile_eq_ok_iff.mpr ⟨tables, parts, htables, hparts, rfl⟩⟩
  · rintro ⟨out, h⟩
    obtain ⟨tables, parts, htables, hparts, -⟩ := ofFile_eq_ok_iff.mp h
    have hentry : ∀ k key tag, Gives (file.entriesOf k) (flag k) key tag →
        (∃ spec, FunctionSpec.parse key = .ok spec) ∧ tag ≠ "" := by
      intro k key tag hgives
      obtain ⟨value, hmem, rfl⟩ := (gives_iff (hkeys k) (htables k)).mp hgives
      obtain ⟨e, -, he⟩ := exists_of_mapM_eq_ok (hparts k) hmem
      obtain ⟨spec, hspec, htag, -⟩ := ofEntry_eq_ok_iff.mp he
      exact ⟨⟨spec, hspec⟩, htag⟩
    exact ⟨fun k => exists_parseFlag_iff.mp ⟨_, htables k⟩,
      fun k key tag hgives => (hentry k key tag hgives).1,
      fun k key tag hgives => (hentry k key tag hgives).2⟩

theorem combined_of_ofFile {out : List External}
    (h : ofFile file (flag .affinity) (flag .dispatch) = .ok out) : Combined file flag out := by
  obtain ⟨tables, parts, htables, hparts, rfl⟩ := ofFile_eq_ok_iff.mp h
  have hgives : ∀ k key tag, Gives (file.entriesOf k) (flag k) key tag ↔
      ∃ value, (key, value) ∈ merge (file.entriesOf k) (tables k) ∧ trimmed value = tag :=
    fun k key tag => gives_iff (hkeys k) (htables k)
  have htrimmed : ∀ k, ∀ e ∈ merge (file.entriesOf k) (tables k), trimmed e.1 = e.1 :=
    fun k e he => ((hgives k e.1 _).mpr ⟨e.2, he, rfl⟩).trimmed_key
  have hmem := fun k e (he : e ∈ parts k) => exists_of_mem_part (htrimmed k) (hparts k) he
  have hkinds : ∀ k, ∀ e ∈ parts k, e.kind = k := fun k e he => (hmem k e he).1
  have hincreasing := fun k => increasing_part (sorted_merge _ _) (htrimmed k) (hparts k)
  have hnodup := nodup_of_increasing hkinds hincreasing
  refine ⟨?_, fun k => ?_, ?_, fun k key tag hkey => ?_, fun e he => ?_⟩
  · rw [filter_kind hkinds, filter_kind hkinds]
  · rw [filter_kind hkinds]
    exact hincreasing k
  · refine List.Nodup.of_map (fun p : Kind × FunctionSpec => (p.1, p.2.render)) ?_
    rwa [List.map_map]
  · obtain ⟨value, hentry, rfl⟩ := (hgives k key tag).mp hkey
    obtain ⟨e, he, hok⟩ := exists_of_mapM_eq_ok (hparts k) hentry
    obtain ⟨spec, hspec, -, rfl⟩ := ofEntry_eq_ok_iff.mp hok
    have hrender := FunctionSpec.render_of_parse hspec
    rw [htrimmed k _ hentry] at hrender
    refine ⟨spec, hspec, ?_⟩
    rw [← filter_eq_singleton hnodup ((mem_parts_iff hkinds).mpr he), hrender]
  · exact (hgives _ _ _).mpr (hmem _ e ((mem_parts_iff hkinds).mp he)).2

end Combining

/-- **A file and two flag values combine exactly if they are acceptable, and then to one tag for
each key that one of them has.**  If they are not, there is a fault, and no tag at all.  No two
keys of a section may be equal up to the blanks around them.  Whatever decoder has read the file,
loading it together with the flags comes to the same. -/
theorem combines_file_and_flags (file : AnnotationFile) (flag : Kind → String)
    (hkeys : ∀ k, ((file.entriesOf k).map fun e => trimmed e.1).Nodup) :
    (Acceptable file flag → ∃ out, ofFile file (flag .affinity) (flag .dispatch) = .ok out ∧
      Combined file flag out) ∧
    (¬ Acceptable file flag →
      ∃ cause, ofFile file (flag .affinity) (flag .dispatch) = .error cause) ∧
    ∀ path contents decoder, AnnotationFile.load path contents decoder = .ok file →
      load { path, contents, decoder, thread := flag .affinity, dispatch := flag .dispatch } =
        ofFile file (flag .affinity) (flag .dispatch) := by
  refine ⟨fun h => ?_, fun h => ?_, fun path contents decoder hload => ?_⟩
  · obtain ⟨out, hout⟩ := (acceptable_iff hkeys).mp h
    exact ⟨out, hout, combined_of_ofFile hkeys hout⟩
  · cases hresult : ofFile file (flag .affinity) (flag .dispatch) with
    | error cause => exact ⟨cause, rfl⟩
    | ok out => exact absurd ((acceptable_iff hkeys).mpr ⟨out, hresult⟩) h
  · rw [load, hload]
    rfl

/-- A file with blanks around a key and a value, and with a blank value. -/
def raggedFile : AnnotationFile :=
  { thread := [(" a.B", "X "), ("a.C", " ")], dispatch := [("a.B", "Z")] }

/-- Flag values with a key that comes twice and a blank part. -/
def raggedFlag : Kind → String
  | .affinity => "a.C=Y, a.C = W ,"
  | .dispatch => ""

theorem ragged_sources_combine :
    (∀ k, ((raggedFile.entriesOf k).map fun e => trimmed e.1).Nodup) ∧
    Acceptable raggedFile raggedFlag ∧
    Combined raggedFile raggedFlag
      [{ spec := { package := "a", name := "B" }, kind := .affinity, tag := ⟨"X"⟩ },
        { spec := { package := "a", name := "C" }, kind := .affinity, tag := ⟨"W"⟩ },
        { spec := { package := "a", name := "B" }, kind := .dispatch, tag := ⟨"Z"⟩ }] := by
  have hkeys : ∀ k, ((raggedFile.entriesOf k).map fun e => trimmed e.1).Nodup := by
    rintro (_ | _) <;> decide
  have hresult : ofFile raggedFile (raggedFlag .affinity) (raggedFlag .dispatch) = .ok
      [{ spec := { package := "a", name := "B" }, kind := .affinity, tag := ⟨"X"⟩ },
        { spec := { package := "a", name := "C" }, kind := .affinity, tag := ⟨"W"⟩ },
        { spec := { package := "a", name := "B" }, kind := .dispatch, tag := ⟨"Z"⟩ }] := by
    decide
  obtain ⟨hcombined, hfault, -⟩ := combines_file_and_flags raggedFile raggedFlag hkeys
  -- The result is no fault, so the sources are acceptable.
  have hacceptable : Acceptable raggedFile raggedFlag := by
    by_contra hnot
    obtain ⟨cause, hcause⟩ := hfault hnot
    rw [hresult] at hcause
    cases hcause
  obtain ⟨out, hout, hspec⟩ := hcombined hacceptable
  rw [hresult, Except.ok.injEq] at hout
  exact ⟨hkeys, hacceptable, hout ▸ hspec⟩

end External

end ThreadAffinity
