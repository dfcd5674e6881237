/-
Flag values are read as they were written, and every other text for its first fault.

A flag value is split at its commas, each part is trimmed and cut at its first equals sign, and
what stands on both sides is trimmed again.  `Written` says how a list of pairs can be written so
that all of this undoes itself: with blanks around keys and tags, and with blank parts anywhere.
Since blanks are neither commas nor equals signs, padding moves no cut.

A part without a tag is a fault wherever it stands, and a fault does not depend on the parts
around it; so a text is refused exactly if one of its parts is at fault, for the first of them.
-/
import ThreadAffinity.Proofs.Entries

namespace ThreadAffinity.Entries

open Text

/-! ### How a list of pairs is written -/

/-- A pair that can be written: no comma in it and no equals sign in the key, nothing to trim on
either, and a tag that is not empty. -/
structure IsPair (key tag : String) : Prop where
  key_comma : ',' ∉ key.toList
  key_equals : '=' ∉ key.toList
  key_trimmed : trimmed key = key
  tag_comma : ',' ∉ tag.toList
  tag_trimmed : trimmed tag = tag
  tag_ne : tag ≠ ""

/-- A text of blanks. -/
def AllBlank (text : String) : Prop :=
  ∀ c ∈ text.toList, isBlank c = true

/-- The parts that a list of pairs is written as: a part for each pair, in order, with blanks
around the key and the tag, and blank parts in any number before, between and after. -/
inductive Written : List (String × String) → List String → Prop
  | nil : Written [] []
  | blank {pairs : List (String × String)} {parts : List String} {text : String}
      (htext : AllBlank text) (h : Written pairs parts) : Written pairs (text :: parts)
  | pair {pairs : List (String × String)} {parts : List String} {key tag a b c d : String}
      (hkey : IsPair key tag) (ha : AllBlank a) (hb : AllBlank b) (hc : AllBlank c)
      (hd : AllBlank d) (h : Written pairs parts) :
      Written ((key, tag) :: pairs) ((a ++ key ++ b ++ "=" ++ (c ++ tag ++ d)) :: parts)

theorem AllBlank.notMem {text : String} (h : AllBlank text) {c : Char} (hc : isBlank c = false) :
    c ∉ text.toList := by
  intro hmem
  rw [h c hmem] at hc
  cases hc

theorem isBlank_comma : isBlank ',' = false := by decide

theorem isBlank_equals : isBlank '=' = false := by decide

/-- No part of what is written has a comma, so splitting finds the parts again. -/
theorem Written.comma_notMem {pairs : List (String × String)} {parts : List String}
    (h : Written pairs parts) : ∀ part ∈ parts, ',' ∉ part.toList := by
  induction h with
  | nil => simp
  | blank htext _ ih =>
      intro part hpart
      rcases List.mem_cons.mp hpart with rfl | hpart
      · exact htext.notMem isBlank_comma
      · exact ih part hpart
  | pair hkey ha hb hc hd _ ih =>
      intro part hpart
      rcases List.mem_cons.mp hpart with rfl | hpart
      · simp [hkey.key_comma, hkey.tag_comma, ha.notMem isBlank_comma, hb.notMem isBlank_comma,
          hc.notMem isBlank_comma, hd.notMem isBlank_comma]
      · exact ih part hpart

/-- A part that is written for a pair sets the tag of its key. -/
theorem IsPair.setsTag {key tag a b c d : String} (h : IsPair key tag) (ha : AllBlank a)
    (hb : AllBlank b) (hc : AllBlank c) (hd : AllBlank d) :
    SetsTag (trim (a ++ key ++ b ++ "=" ++ (c ++ tag ++ d)).toList) key tag := by
  have htext : (a ++ key ++ b ++ "=" ++ (c ++ tag ++ d)).toList =
      (a.toList ++ key.toList ++ b.toList) ++ '=' :: (c.toList ++ tag.toList ++ d.toList) := by
    simp
  have hkey : trim (a.toList ++ key.toList ++ b.toList) = key.toList := by
    rw [trim_append_append ha hb, ← toList_trimmed, h.key_trimmed]
  have htag : trim (c.toList ++ tag.toList ++ d.toList) = tag.toList := by
    rw [trim_append_append hc hd, ← toList_trimmed, h.tag_trimmed]
  have hequals : '=' ∉ a.toList ++ key.toList ++ b.toList := by
    simp [h.key_equals, ha.notMem isBlank_equals, hb.notMem isBlank_equals]
  rw [htext, trim_append_cons isBlank_equals]
  refine ⟨_, _, rfl, ?_, ?_, ?_, h.tag_ne⟩
  · exact fun hmem => hequals ((List.dropWhile_suffix _).subset hmem)
  · rw [trim_trimStart, hkey, String.ofList_toList]
  · rw [trim_trimEnd, htag, String.ofList_toList]

/-! ### Reading what was written -/

/-- The parts of a text that are not blank, trimmed. -/
theorem flagParts_eq (text : List Char) :
    flagParts text = ((text.splitOn ',').map trim).filter (! ·.isEmpty) := by
  rw [flagParts, splitWhen_eq_splitOn]

theorem flagParts_intercalate {parts : List String} (h : ∀ part ∈ parts, ',' ∉ part.toList) :
    flagParts (",".intercalate parts).toList =
      (parts.map fun part => trim part.toList).filter (! ·.isEmpty) := by
  have htext : (",".intercalate parts).toList = [','].intercalate (parts.map String.toList) := by
    simp [String.toList_intercalate]
  rw [flagParts_eq, htext]
  by_cases hparts : parts = []
  · rw [hparts]
    rfl
  · rw [List.splitOn_intercalate ',' (by simpa using h) (by simpa using hparts), List.map_map]
    rfl

theorem SetsTag.part_ne {part : List Char} {key tag : String} (h : SetsTag part key tag) :
    part ≠ [] := by
  obtain ⟨front, back, rfl, -⟩ := h
  simp

theorem Written.mapM_flagEntry {pairs : List (String × String)} {parts : List String}
    (h : Written pairs parts) :
    ((parts.map fun part => trim part.toList).filter (! ·.isEmpty)).mapM flagEntry =
      .ok pairs := by
  rw [mapM_eq_ok_iff]
  induction h with
  | nil => rfl
  | blank htext _ ih =>
      have hnil := trim_eq_nil_iff.mpr htext
      rw [List.map_cons, hnil, List.filter_cons_of_neg (by simp), ih]
  | pair hkey ha hb hc hd _ ih =>
      have hsets := hkey.setsTag ha hb hc hd
      rw [List.map_cons, List.filter_cons_of_pos (by simpa using hsets.part_ne), List.map_cons,
        ih, List.map_cons, flagEntry_eq_ok_iff.mpr hsets]

/-- The last of the pairs with a key gives its tag. -/
def IsLast (pairs : List (String × String)) (key tag : String) : Prop :=
  ∃ before after, pairs = before ++ (key, tag) :: after ∧ key ∉ after.map (·.1)

theorem Written.exists_parseFlag {pairs : List (String × String)} {parts : List String}
    (h : Written pairs parts) :
    ∃ table, parseFlag (",".intercalate parts) = .ok table ∧ table.Sorted ∧
      ∀ key tag, (key, tag) ∈ table ↔ IsLast pairs key tag := by
  have hsorted := sorted_insertAll_nil pairs
  refine ⟨insertAll [] pairs, parseFlag_eq_ok_iff.mpr ⟨pairs, ?_, rfl⟩, hsorted, ?_⟩
  · rw [flagParts_intercalate h.comma_notMem, h.mapM_flagEntry]
  · intro key tag
    rw [hsorted.mem_iff_lookup, lookup_insertAll, List.lookup_nil, Option.or_none,
      lookup_reverse_eq_some_iff]
    rfl

/-! ### Parts at fault -/

/-- The part is not blank and has no equals sign, or nothing but blanks behind its first. -/
def LacksTag (part : List Char) : Prop :=
  (∃ c ∈ part, isBlank c = false) ∧
    ('=' ∉ part ∨
      ∃ front back, part = front ++ '=' :: back ∧ '=' ∉ front ∧ ∀ c ∈ back, isBlank c = true)

/-- Blanks around a part do not decide whether it sets a tag. -/
theorem exists_setsTag_trim_iff {part : List Char} :
    (∃ key tag, SetsTag (trim part) key tag) ↔
      ∃ front back, part = front ++ '=' :: back ∧ '=' ∉ front ∧ ∃ c ∈ back, isBlank c = false := by
  constructor
  · intro h
    obtain ⟨key, tag, front, back, htrim, hequals, -, htag, hne⟩ := h
    obtain ⟨lead, tail, hpart, hlead, -⟩ := exists_append_trim_append part
    refine ⟨lead ++ front, back ++ tail, ?_, ?_, ?_⟩
    · rw [hpart, htrim]
      simp
    · intro hmem
      rcases List.mem_append.mp hmem with hmem | hmem
      · have hblank := hlead _ hmem
        rw [isBlank_equals] at hblank
        cases hblank
      · exact hequals hmem
    · by_contra hblank
      push Not at hblank
      have hnil : trim back = [] := by
        refine trim_eq_nil_iff.mpr fun c hc => ?_
        simpa using hblank c (List.mem_append_left tail hc)
      exact hne (by rw [htag, hnil, String.ofList_nil])
  · intro h
    obtain ⟨front, back, rfl, hequals, c, hc, hblank⟩ := h
    rw [trim_append_cons isBlank_equals]
    refine ⟨_, _, trimStart front, trimEnd back, rfl, ?_, rfl, rfl, ?_⟩
    · exact fun hmem => hequals ((List.dropWhile_suffix _).subset hmem)
    · intro hempty
      have hnil : trim back = [] := by
        rw [trim_trimEnd] at hempty
        simpa using hempty
      rw [trim_eq_nil_iff.mp hnil c hc] at hblank
      cases hblank

theorem lacksTag_iff {part : List Char} :
    LacksTag part ↔ trim part ≠ [] ∧ ¬ ∃ key tag, SetsTag (trim part) key tag := by
  have hblank : (∃ c ∈ part, isBlank c = false) ↔ trim part ≠ [] := by
    rw [Ne, trim_eq_nil_iff]
    push Not
    simp
  rw [LacksTag, hblank, exists_setsTag_trim_iff]
  refine and_congr_right fun _ => ?_
  constructor
  · intro h hsets
    obtain ⟨front, back, rfl, hequals, c, hc, hfilled⟩ := hsets
    rcases h with hnone | ⟨front', back', hsplit, hequals', hback⟩
    · exact hnone (by simp)
    · -- The first equals sign of a text is in one place.
      have hcut := cutFirst_append hequals' back'
      rw [← hsplit, cutFirst_append hequals back] at hcut
      obtain ⟨-, rfl⟩ := Prod.mk.inj (Option.some.inj hcut)
      rw [hback c hc] at hfilled
      cases hfilled
  · intro h
    by_cases hmem : '=' ∈ part
    · obtain ⟨front, back, hsplit, hequals⟩ := List.eq_append_cons_of_mem hmem
      refine Or.inr ⟨front, back, hsplit, hequals, fun c hc => ?_⟩
      by_contra hfilled
      exact h ⟨front, back, hsplit, hequals, c, hc, by simpa using hfilled⟩
    · exact Or.inl hmem

/-- A part without a tag is its own fault. -/
theorem flagEntry_eq_error {part : List Char} (h : ¬ ∃ key tag, SetsTag part key tag) :
    flagEntry part = .error ⟨String.ofList part⟩ := by
  cases hentry : flagEntry part with
  | ok pair => exact absurd ⟨pair.1, pair.2, flagEntry_eq_ok_iff.mp hentry⟩ h
  | error e =>
      unfold flagEntry at hentry
      split at hentry
      · split at hentry
        · exact hentry.symm
        · cases hentry
      · exact hentry.symm

theorem exists_setsTag_of_mem_flagParts {text part : List Char}
    (h : ∀ piece ∈ text.splitOn ',', ¬ LacksTag piece) (hpart : part ∈ flagParts text) :
    ∃ key tag, SetsTag part key tag := by
  rw [flagParts_eq] at hpart
  obtain ⟨hmem, hne⟩ := List.mem_filter.mp hpart
  obtain ⟨piece, hpiece, rfl⟩ := List.mem_map.mp hmem
  by_contra hnone
  exact h piece hpiece (lacksTag_iff.mpr ⟨by simpa using hne, hnone⟩)

/-- The first part at fault is the error. -/
theorem parseFlag_eq_error {text : String} {before after : List (List Char)} {part : List Char}
    (htext : text.toList.splitOn ',' = before ++ part :: after)
    (hbefore : ∀ piece ∈ before, ¬ LacksTag piece) (hpart : LacksTag part) :
    parseFlag text = .error ⟨String.ofList (trim part)⟩ := by
  obtain ⟨hne, hnone⟩ := lacksTag_iff.mp hpart
  have hparts : flagParts text.toList =
      (before.map trim).filter (! ·.isEmpty) ++ trim part ::
        (after.map trim).filter (! ·.isEmpty) := by
    rw [flagParts_eq, htext, List.map_append, List.map_cons, List.filter_append,
      List.filter_cons_of_pos (by simpa using hne)]
  have hrun : (flagParts text.toList).mapM flagEntry = .error ⟨String.ofList (trim part)⟩ := by
    rw [hparts]
    refine mapM_eq_error (fun entry hentry e he => ?_) (flagEntry_eq_error hnone)
    obtain ⟨hmem, hfilled⟩ := List.mem_filter.mp hentry
    obtain ⟨piece, hpiece, rfl⟩ := List.mem_map.mp hmem
    by_cases hsets : ∃ key tag, SetsTag (trim piece) key tag
    · obtain ⟨key, tag, hsets⟩ := hsets
      rw [flagEntry_eq_ok_iff.mpr hsets] at he
      cases he
    · exact absurd (lacksTag_iff.mpr ⟨by simpa using hfilled, hsets⟩) (hbefore piece hpiece)
  rw [parseFlag, hrun]
  rfl

/-- **A text is refused exactly if one of its parts is at fault, and for the first of them.** -/
theorem parseFlag_eq_error_iff {text : String} {e : FlagError} :
    parseFlag text = .error e ↔ ∃ before part after,
      text.toList.splitOn ',' = before ++ part :: after ∧ LacksTag part ∧
        (∀ piece ∈ before, ¬ LacksTag piece) ∧ e.entry = String.ofList (trim part) := by
  constructor
  · intro h
    by_cases hfault : ∃ part ∈ text.toList.splitOn ',', LacksTag part
    · obtain ⟨before, part, after, hsplit, hpart, hbefore⟩ := exists_first hfault
      have herror := parseFlag_eq_error hsplit hbefore hpart
      rw [h, Except.error.injEq] at herror
      exact ⟨before, part, after, hsplit, hpart, hbefore, by rw [herror]⟩
    · push Not at hfault
      obtain ⟨table, htable⟩ := exists_parseFlag_iff.mpr
        fun part hpart => exists_setsTag_of_mem_flagParts hfault hpart
      rw [h] at htable
      cases htable
  · intro h
    obtain ⟨before, part, after, hsplit, hpart, hbefore, hentry⟩ := h
    rw [parseFlag_eq_error hsplit hbefore hpart, ← hentry]

theorem exists_parseFlag_eq_error_iff {text : String} :
    (∃ e, parseFlag text = .error e) ↔ ∃ part ∈ text.toList.splitOn ',', LacksTag part := by
  constructor
  · intro h
    obtain ⟨e, he⟩ := h
    obtain ⟨before, part, after, hsplit, hpart, -⟩ := parseFlag_eq_error_iff.mp he
    exact ⟨part, by rw [hsplit]; simp, hpart⟩
  · intro h
    obtain ⟨before, part, after, hsplit, hpart, hbefore⟩ := exists_first h
    exact ⟨_, parseFlag_eq_error hsplit hbefore hpart⟩

theorem trimmed_of_mem_parseFlag {text : String} {table : Entries} {key tag : String}
    (h : parseFlag text = .ok table) (hmem : (key, tag) ∈ table) :
    trimmed key = key ∧ trimmed tag = tag ∧ tag ≠ "" := by
  rw [(sorted_parseFlag h).mem_iff_lookup, lookup_parseFlag_iff h] at hmem
  obtain ⟨before, part, after, -, hsets, -⟩ := hmem
  refine ⟨hsets.trimmed_key, hsets.trimmed_tag, ?_⟩
  obtain ⟨-, -, -, -, -, -, hne⟩ := hsets
  exact hne

/-- **Flag values are read back, and refused for their first fault.**  However a list of pairs is
written, it is read as the table of the last tag of each key.  Any text is refused exactly if one
of its parts between commas is not blank and has no tag, the error names the first such part
without the blanks around it, and a table that is read holds nothing that is untrimmed and no
empty tag. -/
theorem parseFlag_reads_pairs :
    (∀ pairs parts, Written pairs parts →
      ∃ table, parseFlag (",".intercalate parts) = .ok table ∧ table.Sorted ∧
        ∀ key tag, (key, tag) ∈ table ↔ IsLast pairs key tag) ∧
    ∀ text,
      ((∃ e, parseFlag text = .error e) ↔ ∃ part ∈ text.toList.splitOn ',', LacksTag part) ∧
      (∀ e, parseFlag text = .error e ↔ ∃ before part after,
        text.toList.splitOn ',' = before ++ part :: after ∧ LacksTag part ∧
          (∀ piece ∈ before, ¬ LacksTag piece) ∧ e.entry = String.ofList (trim part)) ∧
      ∀ table, parseFlag text = .ok table → ∀ key tag, (key, tag) ∈ table →
        trimmed key = key ∧ trimmed tag = tag ∧ tag ≠ "" := by
  refine ⟨fun pairs parts h => h.exists_parseFlag,
    fun text => ⟨exists_parseFlag_eq_error_iff, ?_, ?_⟩⟩
  · exact fun e => parseFlag_eq_error_iff
  · exact fun table h key tag hmem => trimmed_of_mem_parseFlag h hmem

/-- A key with two tags, one of them with an equals sign, an empty key, and blank parts. -/
def raggedParts : List String :=
  [" a.B\t= X=Y", "", " =Z\u2003", "\t", "a.B =W"]

theorem raggedParts_written :
    Written [("a.B", "X=Y"), ("", "Z"), ("a.B", "W")] raggedParts := by
  have hspace : AllBlank " " := by simp [AllBlank, isBlank]
  have htab : AllBlank "\t" := by simp [AllBlank, isBlank]
  have hwide : AllBlank "\u2003" := by simp [AllBlank, isBlank]
  have hnone : AllBlank "" := by simp [AllBlank]
  have hfirst : IsPair "a.B" "X=Y" := by constructor <;> decide
  have hempty : IsPair "" "Z" := by constructor <;> decide
  have hlast : IsPair "a.B" "W" := by constructor <;> decide
  exact .pair hfirst hspace htab hspace hnone <| .blank hnone <|
    .pair hempty hspace hnone hnone hwide <| .blank htab <|
    .pair hlast hnone hspace hnone hnone .nil

/-- The later tag of the key counts; a part with nothing behind its equals sign is refused although
a good one comes before it. -/
theorem raggedParts_read :
    Written [("a.B", "X=Y"), ("", "Z"), ("a.B", "W")] raggedParts ∧
      (∃ table, parseFlag " a.B\t= X=Y,, =Z\u2003,\t,a.B =W" = .ok table ∧
        ("a.B", "W") ∈ table ∧ trimmed "a.B" = "a.B" ∧ trimmed "W" = "W") ∧
      parseFlag "a.B=X, c.D =\t,e.F" = .error ⟨"c.D ="⟩ ∧
      ∃ part ∈ "a.B=X, c.D =\t,e.F".toList.splitOn ',', LacksTag part := by
  obtain ⟨table, hread, -, hmem⟩ := parseFlag_reads_pairs.1 _ _ raggedParts_written
  have hlast : ("a.B", "W") ∈ table :=
    (hmem _ _).mpr ⟨[("a.B", "X=Y"), ("", "Z")], [], rfl, by simp⟩
  obtain ⟨hkey, htag, -⟩ := (parseFlag_reads_pairs.2 _).2.2 table hread _ _ hlast
  have hrefused : parseFlag "a.B=X, c.D =\t,e.F" = .error ⟨"c.D ="⟩ := by decide
  exact ⟨raggedParts_written, ⟨table, hread, hlast, hkey, htag⟩, hrefused,
    (parseFlag_reads_pairs.2 _).1.mp ⟨_, hrefused⟩⟩

end ThreadAffinity.Entries
