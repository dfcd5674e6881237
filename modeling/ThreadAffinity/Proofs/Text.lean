/-
What trimming and cutting do to a text whose parts are known.

A reader takes a text apart: it trims it, cuts it at a marker or a separator, and splits it into
words.  Each lemma here says what one of these steps makes of a text in two parts.  What has to
be known of the parts is always the same: that the step finds nothing to act on in the first
part, nor at the place where the two meet.
-/
import Mathlib.Data.List.DropRight
import Mathlib.Data.List.Infix
import Mathlib.Data.List.TakeWhile
import ThreadAffinity.Text.Blank

namespace ThreadAffinity.Text

theorem mem_head?_of_isPrefix {front text : List Char} {c : Char} (h : front <+: text)
    (hc : c ∈ front.head?) : c ∈ text.head? := by
  obtain ⟨rest, rfl⟩ := h
  rw [List.head?_append, Option.mem_def.mp hc]
  exact Option.mem_some_self c

/-! ### Trimming -/

theorem trimStart_append {lead : List Char} (h : ∀ c ∈ lead, isBlank c = true)
    (rest : List Char) : trimStart (lead ++ rest) = trimStart rest :=
  List.dropWhile_append_of_pos h

theorem trimStart_cons {c : Char} (h : isBlank c = false) (rest : List Char) :
    trimStart (c :: rest) = c :: rest := by
  simp [trimStart, h]

theorem trimStart_append_of_ne_nil {front : List Char} (h : trimStart front ≠ [])
    (back : List Char) : trimStart (front ++ back) = trimStart front ++ back := by
  unfold trimStart at h ⊢
  rw [List.dropWhile_append, if_neg (by simpa using h)]

theorem isBlank_of_trimStart_eq_cons {text rest : List Char} {c : Char}
    (h : trimStart text = c :: rest) : isBlank c = false := by
  unfold trimStart at h
  have hne : text.dropWhile isBlank ≠ [] := by
    rw [h]
    exact List.cons_ne_nil c rest
  simpa [h] using List.head_dropWhile_not isBlank hne

theorem trimEnd_eq_rdropWhile (text : List Char) : trimEnd text = text.rdropWhile isBlank :=
  rfl

/-- Blanks are taken from the end only down to a character that is none. -/
theorem trimEnd_append_cons {c : Char} (h : isBlank c = false) (front tail : List Char) :
    trimEnd (front ++ c :: tail) = front ++ c :: trimEnd tail := by
  simp only [trimEnd_eq_rdropWhile]
  induction tail using List.reverseRecOn with
  | nil => rw [List.rdropWhile_concat, h, List.rdropWhile_nil]; rfl
  | append_singleton tail d ih =>
      rw [← List.cons_append, ← List.append_assoc, List.rdropWhile_concat, List.rdropWhile_concat]
      by_cases hd : isBlank d = true
      · rw [if_pos hd, if_pos hd, ih]
      · rw [if_neg hd, if_neg hd, List.append_assoc, List.cons_append]

/-- What stands in front of a part with something else than blanks is out of reach. -/
theorem trimEnd_append {back : List Char} (h : ∃ c ∈ back, isBlank c = false)
    (front : List Char) : trimEnd (front ++ back) = front ++ trimEnd back := by
  obtain ⟨c, hc, hblank⟩ := h
  obtain ⟨left, right, rfl⟩ := List.append_of_mem hc
  rw [trimEnd_append_cons hblank left right, ← List.append_assoc, ← List.append_assoc]
  exact trimEnd_append_cons hblank (front ++ left) right

theorem trimEnd_append_of_blank {back : List Char} (h : ∀ c ∈ back, isBlank c = true)
    (front : List Char) : trimEnd (front ++ back) = trimEnd front := by
  unfold trimEnd
  rw [List.reverse_append, List.dropWhile_append_of_pos]
  intro c hc
  exact h c (List.mem_reverse.mp hc)

theorem isPrefix_trimEnd (text : List Char) : trimEnd text <+: text :=
  List.rdropWhile_prefix isBlank text

/-- What trimming takes from the end is blank. -/
theorem exists_trimEnd_append (text : List Char) :
    ∃ tail, text = trimEnd text ++ tail ∧ ∀ c ∈ tail, isBlank c = true :=
  ⟨text.rtakeWhile isBlank, List.rdropWhile_append_rtakeWhile.symm,
    fun _ => List.mem_rtakeWhile_imp⟩

theorem trim_eq_self {text : List Char} (h : ∀ c ∈ text, isBlank c = false) : trim text = text := by
  have hkeep : ∀ {cs : List Char}, (∀ c ∈ cs, isBlank c = false) → cs.dropWhile isBlank = cs := by
    intro cs hcs
    cases cs with
    | nil => rfl
    | cons c cs => simp [hcs c List.mem_cons_self]
  unfold trim trimEnd trimStart
  rw [hkeep h, hkeep (fun c hc => h c (List.mem_reverse.mp hc)), List.reverse_reverse]

/-- Trimming twice is trimming once. -/
theorem trim_trim (text : List Char) : trim (trim text) = trim text := by
  have hstart : trimStart (trim text) = trim text := by
    unfold trim
    cases h : trimStart text with
    | nil => rfl
    | cons c rest =>
        have hc := isBlank_of_trimStart_eq_cons h
        have hkept : trimEnd (c :: rest) = c :: trimEnd rest := trimEnd_append_cons hc [] rest
        rw [hkept, trimStart_cons hc]
  calc trim (trim text) = trimEnd (trim text) := by rw [trim, hstart]
    _ = trim text := by
        unfold trim
        rw [trimEnd_eq_rdropWhile, trimEnd_eq_rdropWhile, List.rdropWhile_idempotent]

theorem trimmed_trimmed (s : String) : trimmed (trimmed s) = trimmed s := by
  unfold trimmed
  rw [String.toList_ofList, trim_trim]

/-- What trimming takes from the start is blank. -/
theorem exists_append_trimStart (text : List Char) :
    ∃ lead, text = lead ++ trimStart text ∧ ∀ c ∈ lead, isBlank c = true :=
  ⟨text.takeWhile isBlank, List.takeWhile_append_dropWhile.symm, fun _ => List.mem_takeWhile_imp⟩

/-- A text is what trimming leaves of it, with blanks around. -/
theorem exists_append_trim_append (text : List Char) :
    ∃ lead tail, text = lead ++ trim text ++ tail ∧ (∀ c ∈ lead, isBlank c = true) ∧
      ∀ c ∈ tail, isBlank c = true := by
  obtain ⟨lead, hlead, hleadBlank⟩ := exists_append_trimStart text
  obtain ⟨tail, htail, htailBlank⟩ := exists_trimEnd_append (trimStart text)
  refine ⟨lead, tail, ?_, hleadBlank, htailBlank⟩
  rw [trim, List.append_assoc, ← htail, ← hlead]

theorem trim_eq_nil_iff {text : List Char} : trim text = [] ↔ ∀ c ∈ text, isBlank c = true := by
  constructor
  · intro h
    obtain ⟨lead, tail, htext, hlead, htail⟩ := exists_append_trim_append text
    rw [h, List.append_nil] at htext
    intro c hc
    rw [htext] at hc
    exact (List.mem_append.mp hc).elim (hlead c) (htail c)
  · intro h
    have hstart := trimStart_append h []
    rw [List.append_nil] at hstart
    rw [trim, hstart]
    rfl

/-- Blanks around a text do not count. -/
theorem trim_append_append {lead tail : List Char} (hlead : ∀ c ∈ lead, isBlank c = true)
    (htail : ∀ c ∈ tail, isBlank c = true) (text : List Char) :
    trim (lead ++ text ++ tail) = trim text := by
  by_cases hblank : ∀ c ∈ text, isBlank c = true
  · rw [trim_eq_nil_iff.mpr hblank, trim_eq_nil_iff]
    intro c hc
    rcases List.mem_append.mp hc with hc | hc
    · exact (List.mem_append.mp hc).elim (hlead c) (hblank c)
    · exact htail c hc
  · have hne : trimStart text ≠ [] := by
      intro hnil
      refine hblank (trim_eq_nil_iff.mp ?_)
      rw [trim, hnil, trimEnd_nil]
    rw [trim, List.append_assoc, trimStart_append hlead, trimStart_append_of_ne_nil hne,
      trimEnd_append_of_blank htail, trim]

/-- Around a character that is not blank, trimming acts on both sides apart. -/
theorem trim_append_cons {c : Char} (h : isBlank c = false) (front back : List Char) :
    trim (front ++ c :: back) = trimStart front ++ c :: trimEnd back := by
  have hstart : trimStart (front ++ c :: back) = trimStart front ++ c :: back := by
    by_cases hnil : trimStart front = []
    · obtain ⟨lead, hfront, hlead⟩ := exists_append_trimStart front
      rw [hnil, List.append_nil] at hfront
      rw [hnil, hfront, trimStart_append hlead, trimStart_cons h, List.nil_append]
    · exact trimStart_append_of_ne_nil hnil _
  rw [trim, hstart, trimEnd_append_cons h]

theorem trim_trimStart (text : List Char) : trim (trimStart text) = trim text := by
  obtain ⟨lead, htext, hlead⟩ := exists_append_trimStart text
  have hpad := trim_append_append hlead (by simp : ∀ c ∈ [], isBlank c = true) (trimStart text)
  rwa [List.append_nil, ← htext, eq_comm] at hpad

theorem trim_trimEnd (text : List Char) : trim (trimEnd text) = trim text := by
  obtain ⟨tail, htext, htail⟩ := exists_trimEnd_append text
  have hpad := trim_append_append (by simp : ∀ c ∈ [], isBlank c = true) htail (trimEnd text)
  rwa [List.nil_append, ← htext, eq_comm] at hpad

/-! ### Cutting at a marker -/

/-- A marker that starts nowhere in the first part is looked for in the second. -/
theorem before_append {marker front : List Char} (rest : List Char)
    (h : ∀ part, part ≠ [] → part <:+ front → ¬ marker <+: part ++ rest) :
    before marker (front ++ rest) = front ++ before marker rest := by
  induction front with
  | nil => rfl
  | cons c front ih =>
      have hhead : ¬ marker.isPrefixOf (c :: (front ++ rest)) = true := by
        intro hmarker
        have hstarts := List.isPrefixOf_iff_prefix.mp hmarker
        exact h (c :: front) (List.cons_ne_nil c front) List.suffix_rfl hstarts
      have htail := ih fun part hne hpart =>
        h part hne (hpart.trans (List.suffix_cons c front))
      rw [List.cons_append, before, if_neg hhead, htail, List.cons_append]

theorem before_append_of_notMem {m : Char} {marker front : List Char} (h : m ∉ front)
    (rest : List Char) :
    before (m :: marker) (front ++ rest) = front ++ before (m :: marker) rest := by
  refine before_append rest fun part hne hpart hmarker => ?_
  cases part with
  | nil => exact hne rfl
  | cons c part =>
      obtain ⟨rfl, -⟩ := List.cons_prefix_cons.mp hmarker
      exact h (hpart.subset List.mem_cons_self)

theorem isPrefix_before (marker text : List Char) : before marker text <+: text := by
  induction text with
  | nil => exact List.prefix_rfl
  | cons c text ih =>
      unfold before
      split
      · exact List.nil_prefix
      · exact (List.prefix_cons_inj c).mpr ih

/-- The marker does not stand in the text before it. -/
theorem not_infix_before {marker : List Char} (hne : marker ≠ []) (text : List Char) :
    ¬ marker <:+: before marker text := by
  induction text with
  | nil =>
      intro h
      exact hne (List.eq_nil_of_infix_nil h)
  | cons c text ih =>
      unfold before
      split
      · intro h
        exact hne (List.eq_nil_of_infix_nil h)
      · rename_i hhead
        intro h
        rcases List.infix_cons_iff.mp h with hpre | hin
        · refine hhead (List.isPrefixOf_iff_prefix.mpr (hpre.trans ?_))
          exact (List.prefix_cons_inj c).mpr (isPrefix_before marker text)
        · exact ih hin

theorem before_eq_self {marker text : List Char} (h : ¬ marker <:+: text) :
    before marker text = text := by
  induction text with
  | nil => rfl
  | cons c text ih =>
      have hhead : ¬ marker.isPrefixOf (c :: text) = true :=
        fun hpre => h (List.isPrefixOf_iff_prefix.mp hpre).isInfix
      have htail := ih fun hin => h (hin.trans (List.suffix_cons c text).isInfix)
      rw [before, if_neg hhead, htail]

/-- If the marker stands in the first part, the second part does not count. -/
theorem before_append_of_infix {marker front : List Char} (h : marker <:+: front)
    (hne : marker ≠ []) (rest : List Char) :
    before marker (front ++ rest) = before marker front := by
  induction front with
  | nil => exact absurd (List.eq_nil_of_infix_nil h) hne
  | cons c front ih =>
      have hhead : marker <+: c :: (front ++ rest) ↔ marker <+: c :: front := by
        constructor
        · intro hpre
          exact List.prefix_of_prefix_length_le hpre (List.prefix_append (c :: front) rest)
            h.length_le
        · intro hpre
          exact hpre.trans (List.prefix_append (c :: front) rest)
      by_cases hpre : marker <+: c :: front
      · rw [List.cons_append, before, before, if_pos (List.isPrefixOf_iff_prefix.mpr hpre),
          if_pos (List.isPrefixOf_iff_prefix.mpr (hhead.mpr hpre))]
      · have hin : marker <:+: front := (List.infix_cons_iff.mp h).resolve_left hpre
        rw [List.cons_append, before, before, ih hin,
          if_neg (mt List.isPrefixOf_iff_prefix.mp hpre),
          if_neg (mt List.isPrefixOf_iff_prefix.mp (mt hhead.mp hpre))]

/-- The text is cut where the marker is complete for the first time. -/
theorem before_append_marker {most front : List Char} {c : Char}
    (h : ¬ most ++ [c] <:+: front ++ most) (rest : List Char) :
    before (most ++ [c]) (front ++ (most ++ [c] ++ rest)) = front := by
  have hfront : ∀ part, part ≠ [] → part <:+ front →
      ¬ most ++ [c] <+: part ++ (most ++ [c] ++ rest) := by
    intro part hne hpart hmarker
    have hlength : (most ++ [c]).length ≤ (part ++ most).length := by
      have := List.length_pos_iff.mpr hne
      simp only [List.length_append, List.length_singleton]
      omega
    have hearly : part ++ most <+: part ++ (most ++ [c] ++ rest) := by
      simp only [List.append_assoc, List.prefix_append_right_inj]
      exact List.prefix_append most _
    have hinside := List.prefix_of_prefix_length_le hmarker hearly hlength
    obtain ⟨left, rfl⟩ := hpart
    refine h (hinside.isInfix.trans ?_)
    rw [List.append_assoc]
    exact (List.suffix_append left (part ++ most)).isInfix
  rw [before_append _ hfront]
  cases hmarker : most ++ [c] with
  | nil => simp at hmarker
  | cons m marker => simp [before]

/-- A part that shares no character with the marker does not help to form it. -/
theorem infix_of_infix_append {marker front tail : List Char} (hne : marker ≠ [])
    (htail : ∀ c ∈ tail, c ∉ marker) (h : marker <:+: front ++ tail) : marker <:+: front := by
  induction tail using List.reverseRecOn with
  | nil => rwa [List.append_nil] at h
  | append_singleton tail c ih =>
      rw [← List.append_assoc] at h
      rcases List.infix_concat_iff.mp h with hend | hin
      · rcases List.suffix_concat_iff.mp hend with hnil | ⟨marker', rfl, -⟩
        · exact absurd hnil hne
        · exact absurd (by simp) (htail c (by simp))
      · exact ih (fun d hd => htail d (by simp [hd])) hin

/-! ### Cutting at one separator -/

theorem cutFirst_append {sep : Char} {front : List Char} (h : sep ∉ front) (back : List Char) :
    cutFirst sep (front ++ sep :: back) = some (front, back) := by
  induction front with
  | nil => simp [cutFirst]
  | cons c front ih =>
      rw [List.mem_cons, not_or] at h
      simp [cutFirst, Ne.symm h.1, ih h.2]

/-- The first cut is at the first separator. -/
theorem cutFirst_eq_some_iff {sep : Char} {text front back : List Char} :
    cutFirst sep text = some (front, back) ↔ text = front ++ sep :: back ∧ sep ∉ front := by
  refine ⟨fun h => ?_, fun ⟨htext, hmem⟩ => htext ▸ cutFirst_append hmem back⟩
  induction text generalizing front with
  | nil => simp [cutFirst] at h
  | cons c text ih =>
      unfold cutFirst at h
      split at h
      · rename_i hc
        obtain ⟨rfl, rfl⟩ := Prod.mk.inj (Option.some.inj h)
        exact ⟨by rw [hc, List.nil_append], List.not_mem_nil⟩
      · rename_i hc
        obtain ⟨⟨front', back'⟩, hcut, heq⟩ := Option.map_eq_some_iff.mp h
        obtain ⟨rfl, rfl⟩ := Prod.mk.inj heq
        obtain ⟨rfl, hmem⟩ := ih hcut
        exact ⟨rfl, List.not_mem_cons_of_ne_of_not_mem (Ne.symm hc) hmem⟩

theorem notMem_of_cutLast_eq_none {sep : Char} {text : List Char} (h : cutLast sep text = none) :
    sep ∉ text := by
  induction text with
  | nil => exact List.not_mem_nil
  | cons c text ih =>
      unfold cutLast at h
      split at h
      · cases h
      · rename_i hcut
        split at h
        · cases h
        · rename_i hc
          exact List.not_mem_cons_of_ne_of_not_mem (Ne.symm hc) (ih hcut)

/-- The last cut is at the last separator. -/
theorem eq_of_cutLast_eq_some {sep : Char} {text front back : List Char}
    (h : cutLast sep text = some (front, back)) : text = front ++ sep :: back ∧ sep ∉ back := by
  induction text generalizing front with
  | nil => simp [cutLast] at h
  | cons c text ih =>
      unfold cutLast at h
      split at h
      · rename_i front' back' hcut
        obtain ⟨rfl, rfl⟩ := Prod.mk.inj (Option.some.inj h)
        obtain ⟨rfl, hmem⟩ := ih hcut
        exact ⟨rfl, hmem⟩
      · rename_i hcut
        split at h
        · rename_i hc
          obtain ⟨rfl, rfl⟩ := Prod.mk.inj (Option.some.inj h)
          exact ⟨by rw [hc, List.nil_append], notMem_of_cutLast_eq_none hcut⟩
        · cases h

theorem cutLast_eq_none {sep : Char} {text : List Char} (h : sep ∉ text) :
    cutLast sep text = none := by
  induction text with
  | nil => rfl
  | cons c text ih =>
      rw [List.mem_cons, not_or] at h
      simp [cutLast, ih h.2, Ne.symm h.1]

theorem cutLast_append {sep : Char} {back : List Char} (h : sep ∉ back) (front : List Char) :
    cutLast sep (front ++ sep :: back) = some (front, back) := by
  induction front with
  | nil => simp [cutLast, cutLast_eq_none h]
  | cons c front ih => simp [cutLast, ih]

/-- There is one way to cut a text at its last separator. -/
theorem eq_of_append_sep_eq {sep : Char} {front back front' back' : List Char}
    (hback : sep ∉ back) (hback' : sep ∉ back')
    (h : front ++ sep :: back = front' ++ sep :: back') : front = front' ∧ back = back' := by
  have hcut := cutLast_append hback front
  rw [h, cutLast_append hback' front'] at hcut
  obtain ⟨rfl, rfl⟩ := Prod.mk.inj (Option.some.inj hcut)
  exact ⟨rfl, rfl⟩

/-! ### Splitting at separators -/

theorem splitWhen_ne_nil (p : Char → Bool) (text : List Char) : splitWhen p text ≠ [] := by
  cases text with
  | nil => simp [splitWhen]
  | cons c text =>
      unfold splitWhen
      split
      · simp
      · split <;> simp

/-- At a separator the text is split in two. -/
theorem splitWhen_append {p : Char → Bool} {c : Char} (hc : p c = true) (front back : List Char) :
    splitWhen p (front ++ c :: back) = splitWhen p front ++ splitWhen p back := by
  induction front with
  | nil => simp [splitWhen, hc]
  | cons d front ih =>
      by_cases hd : p d = true
      · simp [splitWhen, hd, ih]
      · cases hsplit : splitWhen p front with
        | nil => exact absurd hsplit (splitWhen_ne_nil p front)
        | cons piece pieces => simp [splitWhen, hd, ih, hsplit]

theorem splitWhen_eq_singleton {p : Char → Bool} {piece : List Char}
    (hpiece : ∀ d ∈ piece, p d = false) : splitWhen p piece = [piece] := by
  induction piece with
  | nil => rfl
  | cons d piece ih =>
      have hd : p d = false := hpiece d List.mem_cons_self
      have htail := ih fun e he => hpiece e (List.mem_cons_of_mem d he)
      simp [splitWhen, hd, htail]

theorem splitWhen_append_cons {p : Char → Bool} {piece : List Char} {c : Char}
    (hpiece : ∀ d ∈ piece, p d = false) (hc : p c = true) (rest : List Char) :
    splitWhen p (piece ++ c :: rest) = piece :: splitWhen p rest := by
  rw [splitWhen_append hc, splitWhen_eq_singleton hpiece, List.singleton_append]

/-- The pieces are those of the library's splitting. -/
theorem splitWhen_eq_splitOn (c : Char) (text : List Char) :
    splitWhen (· == c) text = text.splitOn c := by
  rw [List.splitOn]
  induction text with
  | nil => rfl
  | cons d text ih =>
      rw [List.splitOnP_cons_eq_if_modifyHead, splitWhen, ih]
      split
      · rfl
      · cases hsplit : text.splitOnP (· == c) with
        | nil => exact absurd (ih.trans hsplit) (splitWhen_ne_nil _ text)
        | cons piece pieces => rfl

theorem splitWhen_intercalate {p : Char → Bool} {c : Char} (hc : p c = true)
    {pieces : List (List Char)} (hne : pieces ≠ [])
    (h : ∀ piece ∈ pieces, ∀ d ∈ piece, p d = false) :
    splitWhen p ([c].intercalate pieces) = pieces := by
  induction pieces with
  | nil => exact absurd rfl hne
  | cons piece pieces ih =>
      cases pieces with
      | nil => rw [List.intercalate_singleton, splitWhen_eq_singleton (h piece List.mem_cons_self)]
      | cons next pieces =>
          have hrest := ih (by simp) fun q hq => h q (List.mem_cons_of_mem piece hq)
          rw [List.intercalate_cons_cons, List.append_assoc, List.singleton_append,
            splitWhen_append_cons (h piece List.mem_cons_self) hc, hrest]

theorem mem_intercalate {sep : List Char} {pieces : List (List Char)} {c : Char}
    (h : c ∈ sep.intercalate pieces) : c ∈ sep ∨ ∃ piece ∈ pieces, c ∈ piece := by
  induction pieces with
  | nil => simp at h
  | cons piece pieces ih =>
      cases pieces with
      | nil => exact .inr ⟨piece, by simp, by simpa using h⟩
      | cons next pieces =>
          rw [List.intercalate_cons_cons, List.mem_append, List.mem_append] at h
          rcases h with (hpiece | hsep) | hrest
          · exact .inr ⟨piece, List.mem_cons_self, hpiece⟩
          · exact .inl hsep
          · refine (ih hrest).imp_right ?_
            rintro ⟨other, hother, hc⟩
            exact ⟨other, List.mem_cons_of_mem piece hother, hc⟩

theorem filter_intercalate (p : Char → Bool) (sep : List Char) (pieces : List (List Char)) :
    (sep.intercalate pieces).filter p = (sep.filter p).intercalate (pieces.map (·.filter p)) := by
  induction pieces with
  | nil => rfl
  | cons piece pieces ih =>
      cases pieces with
      | nil => simp
      | cons next pieces =>
          simp only [List.map_cons, List.intercalate_cons_cons, List.filter_append] at ih ⊢
          rw [ih]

/-- The pieces hold every character but the separators. -/
theorem flatten_splitWhen (p : Char → Bool) (text : List Char) :
    (splitWhen p text).flatten = text.filter (! p ·) := by
  induction text with
  | nil => rfl
  | cons c text ih =>
      by_cases hc : p c = true
      · simp [splitWhen, hc, ih]
      · cases hsplit : splitWhen p text with
        | nil => exact absurd hsplit (splitWhen_ne_nil p text)
        | cons piece pieces => simp [splitWhen, hc, hsplit, ← ih]

theorem eq_false_of_mem_splitWhen {p : Char → Bool} {text piece : List Char} {c : Char}
    (hpiece : piece ∈ splitWhen p text) (hc : c ∈ piece) : p c = false := by
  induction text generalizing piece with
  | nil =>
      obtain rfl := List.mem_singleton.mp hpiece
      simp at hc
  | cons b text ih =>
      unfold splitWhen at hpiece
      by_cases hb : p b = true
      · rw [if_pos hb] at hpiece
        rcases List.mem_cons.mp hpiece with rfl | hpiece
        · simp at hc
        · exact ih hpiece hc
      · have hb' : p b = false := by simpa using hb
        rw [if_neg hb] at hpiece
        split at hpiece
        · obtain rfl := List.mem_singleton.mp hpiece
          obtain rfl := List.mem_singleton.mp hc
          exact hb'
        · rename_i first rest hsplit
          rcases List.mem_cons.mp hpiece with rfl | hpiece
          · rcases List.mem_cons.mp hc with rfl | hc
            · exact hb'
            · exact ih (by rw [hsplit]; exact List.mem_cons_self) hc
          · exact ih (by rw [hsplit]; exact List.mem_cons_of_mem _ hpiece) hc

/-- The first piece stands at the start of the text, and every piece stands in it. -/
theorem pieces_of_splitWhen (p : Char → Bool) (text : List Char) :
    (∀ piece ∈ (splitWhen p text).head?, piece <+: text) ∧
      ∀ piece ∈ splitWhen p text, piece <:+: text := by
  induction text with
  | nil => simp [splitWhen]
  | cons c text ih =>
      obtain ⟨hfirst, hall⟩ := ih
      unfold splitWhen
      split
      · refine ⟨by simp, fun piece hpiece => ?_⟩
        rcases List.mem_cons.mp hpiece with rfl | hpiece
        · exact List.nil_infix
        · exact (hall piece hpiece).trans (List.suffix_cons c text).isInfix
      · split
        · have hstart : [c] <+: c :: text := List.prefix_append [c] text
          exact ⟨by simp, by simpa using hstart.isInfix⟩
        · rename_i first rest hsplit
          rw [hsplit] at hfirst hall
          have hstart : c :: first <+: c :: text :=
            (List.prefix_cons_inj c).mpr (hfirst first rfl)
          refine ⟨by simpa using hstart, fun piece hpiece => ?_⟩
          rcases List.mem_cons.mp hpiece with rfl | hpiece
          · exact hstart.isInfix
          · exact (hall piece (List.mem_cons_of_mem first hpiece)).trans
              (List.suffix_cons c text).isInfix

/-! ### Words -/

theorem words_append_of_blank {lead : List Char} (h : ∀ c ∈ lead, isBlank c = true)
    (rest : List Char) : words (lead ++ rest) = words rest := by
  induction lead with
  | nil => rfl
  | cons c lead ih =>
      have hc : isBlank c = true := h c List.mem_cons_self
      have htail := ih fun d hd => h d (List.mem_cons_of_mem c hd)
      rw [← htail]
      simp [words, splitWhen, hc]

/-- A word ends where the text ends or a blank follows. -/
theorem words_append {word rest : List Char} (hne : word ≠ [])
    (hword : ∀ c ∈ word, isBlank c = false) (hrest : ∀ c ∈ rest.head?, isBlank c = true) :
    words (word ++ rest) = word :: words rest := by
  have hkeep : (! word.isEmpty) = true := by simpa using hne
  cases rest with
  | nil => simp [words, splitWhen_eq_singleton hword, splitWhen, hkeep]
  | cons c rest =>
      have hc : isBlank c = true := hrest c rfl
      have hskip : words ([c] ++ rest) = words rest :=
        words_append_of_blank (by simpa using hc) rest
      rw [List.singleton_append] at hskip
      rw [hskip]
      unfold words
      rw [splitWhen_append_cons hword hc, List.filter_cons, if_pos hkeep]

/-- At a blank the words are parted. -/
theorem words_append_cons {c : Char} (hc : isBlank c = true) (front back : List Char) :
    words (front ++ c :: back) = words front ++ words back := by
  unfold words
  rw [splitWhen_append hc, List.filter_append]

theorem words_append_blanks {tail : List Char} (h : ∀ c ∈ tail, isBlank c = true)
    (text : List Char) : words (text ++ tail) = words text := by
  cases tail with
  | nil => rw [List.append_nil]
  | cons c tail =>
      have hc : isBlank c = true := h c List.mem_cons_self
      have hnone := words_append_of_blank (fun d hd => h d (List.mem_cons_of_mem c hd)) []
      rw [List.append_nil] at hnone
      rw [words_append_cons hc, hnone, show words [] = [] from rfl, List.append_nil]

theorem words_trimEnd (text : List Char) : words (trimEnd text) = words text := by
  obtain ⟨tail, htext, hblank⟩ := exists_trimEnd_append text
  conv => rhs; rw [htext, words_append_blanks hblank]

/-- The words hold every character but the blanks. -/
theorem flatten_words (text : List Char) : (words text).flatten = text.filter (! isBlank ·) := by
  rw [words, List.flatten_filter_not_isEmpty, flatten_splitWhen]

theorem infix_of_mem_words {text word : List Char} (h : word ∈ words text) : word <:+: text :=
  (pieces_of_splitWhen isBlank text).2 word (List.mem_filter.mp h).1

end ThreadAffinity.Text
