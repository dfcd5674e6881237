/-
Which tags a directive can give, and that each of them is read back.

The words of a directive are what is left after two cuts: at the first lone dash between blanks,
and at the first pair of slashes.  So the first word is never a lone dash and has neither blanks
nor a pair of slashes.  What is proved here is that there is no other limit.  Any such text,
written after the name of the directive, is the first word again, whatever blanks stand around
and whatever follows behind a blank: neither cut can fall into the text, nor between it and the
blanks around it.
-/
import ThreadAffinity.Proofs.TagPrecedence

namespace ThreadAffinity

open Text

/-- A text that can be the tag of a directive. -/
structure Expressible (t : String) : Prop where
  ne_empty : t ≠ ""
  noBlank : ∀ c ∈ t.toList, isBlank c = false
  noSlashes : ¬ ['/', '/'] <:+: t.toList
  ne_dash : t ≠ "-"

namespace Directive

theorem isBlank_of_endsName {c : Char} (h : endsName c = true) : isBlank c = true := by
  rcases (by simpa [endsName] using h : c = ' ' ∨ c = '\t') with rfl | rfl
  · decide
  · decide

/-! ### The first word is expressible -/

/-- The words of a directive are those of some text behind its name. -/
theorem exists_args_eq {comment : String} {d : Directive} (h : ofComment? comment = some d) :
    ∃ rest, d.args = (argWords rest).map String.ofList := by
  unfold ofComment? at h
  split at h
  · unfold ofBody? at h
    split at h
    · obtain rfl := Option.some.inj h
      exact ⟨_, rfl⟩
    · cases h
  · cases h

theorem words_of_argWords_eq_cons {rest word : List Char} {more : List (List Char)}
    (h : argWords rest = word :: more) :
    words (before ['/', '/'] (before [' ', '-', ' '] rest)) = word :: more ∧ word ≠ ['-'] := by
  unfold argWords at h
  split at h
  · cases h
  · rename_i hdash
    refine ⟨h, ?_⟩
    rintro rfl
    exact hdash more h

theorem expressible_arg {comment : String} {d : Directive} (h : ofComment? comment = some d)
    (hne : d.arg ≠ "") : Expressible d.arg := by
  obtain ⟨rest, hargs⟩ := exists_args_eq h
  cases hwords : argWords rest with
  | nil => simp [arg, hargs, hwords] at hne
  | cons word more =>
      have harg : d.arg = String.ofList word := by simp [arg, hargs, hwords]
      obtain ⟨hcut, hdash⟩ := words_of_argWords_eq_cons hwords
      have hmem : word ∈ words (before ['/', '/'] (before [' ', '-', ' '] rest)) := by
        rw [hcut]
        exact List.mem_cons_self
      have hblank : ∀ c ∈ d.arg.toList, isBlank c = false :=
        isBlank_eq_false_of_mem_args h (by simp [harg, hargs, hwords])
      rw [harg] at hne hblank ⊢
      refine ⟨hne, hblank, ?_, ?_⟩
      · intro hslashes
        rw [String.toList_ofList] at hslashes
        exact not_infix_before (by simp) _ (hslashes.trans (infix_of_mem_words hmem))
      · intro heq
        exact hdash (by simpa using congrArg String.toList heq)

/-! ### An expressible text is read back -/

/-- A body that is a name, and behind it something that cannot belong to the name. -/
theorem ofBody?_append {name rest : List Char} (hdomain : domain <+: name)
    (hname : ∀ c ∈ name, endsName c = false) (hrest : ∀ c ∈ rest.head?, endsName c = true) :
    ofBody? (name ++ rest) =
      some { name := String.ofList name, args := (argWords rest).map String.ofList } := by
  have hinside : ∀ c ∈ name, (! endsName c) = true := fun c hc => by simp [hname c hc]
  have htake : rest.takeWhile (! endsName ·) = [] := by
    cases rest with
    | nil => rfl
    | cons c rest => simp [hrest c rfl]
  have hdrop : rest.dropWhile (! endsName ·) = rest := by
    cases rest with
    | nil => rfl
    | cons c rest => simp [hrest c rfl]
  have hstarts : domain.isPrefixOf (name ++ rest) = true :=
    List.isPrefixOf_iff_prefix.mpr (hdomain.trans (List.prefix_append name rest))
  rw [ofBody?, if_pos hstarts, List.takeWhile_append_of_pos hinside,
    List.dropWhile_append_of_pos hinside, htake, hdrop, List.append_nil]

theorem isPrefix_directive (k : Kind) : domain <+: k.directive.toList := by
  have hstarts : domain.isPrefixOf k.directive.toList = true := by
    cases k with
    | affinity => decide
    | dispatch => decide
  exact List.isPrefixOf_iff_prefix.mp hstarts

theorem endsName_of_mem_directive {k : Kind} {c : Char} (h : c ∈ k.directive.toList) :
    endsName c = false := by
  have hall : k.directive.toList.all (! endsName ·) = true := by
    cases k with
    | affinity => decide
    | dispatch => decide
  simpa using List.all_eq_true.mp hall c h

/-- A lone dash between blanks is not found before the end of the word. -/
theorem before_dash {gap word : List Char} (hgap : ∀ c ∈ gap, endsName c = true) (hne : word ≠ [])
    (hword : ∀ c ∈ word, isBlank c = false) (hdash : word ≠ ['-']) (tail : List Char) :
    before [' ', '-', ' '] (gap ++ (word ++ tail)) =
      gap ++ (word ++ before [' ', '-', ' '] tail) := by
  have hgapFree : ∀ part, part ≠ [] → part <:+ gap →
      ¬ [' ', '-', ' '] <+: part ++ (word ++ tail) := by
    intro part hpart hsuffix hmarker
    cases part with
    | nil => exact hpart rfl
    | cons c part =>
        have hsecond := (List.cons_prefix_cons.mp hmarker).2
        cases part with
        | cons d part =>
            obtain ⟨rfl, -⟩ := List.cons_prefix_cons.mp hsecond
            have hd := hgap '-' (hsuffix.subset (by simp))
            exact absurd hd (by decide)
        | nil =>
            -- The dash is the first character of the word, which has another one.
            cases word with
            | nil => exact hne rfl
            | cons d word =>
                obtain ⟨rfl, hthird⟩ := List.cons_prefix_cons.mp hsecond
                cases word with
                | nil => exact hdash rfl
                | cons e word =>
                    obtain ⟨rfl, -⟩ := List.cons_prefix_cons.mp hthird
                    exact absurd (hword ' ' (by simp)) (by decide)
  have hwordFree : ' ' ∉ word := fun hmem => absurd (hword ' ' hmem) (by decide)
  rw [before_append _ hgapFree, before_append_of_notMem hwordFree]

/-- A pair of slashes is not found before the end of the word. -/
theorem before_slashes {gap word tail : List Char} (hgap : ∀ c ∈ gap, endsName c = true)
    (hslashes : ¬ ['/', '/'] <:+: word) (htail : ∀ c ∈ tail.head?, isBlank c = true) :
    before ['/', '/'] (gap ++ (word ++ tail)) = gap ++ (word ++ before ['/', '/'] tail) := by
  have hgapFree : '/' ∉ gap := fun hmem => absurd (hgap '/' hmem) (by decide)
  have hwordFree : ∀ part, part ≠ [] → part <:+ word → ¬ ['/', '/'] <+: part ++ tail := by
    intro part hpart hsuffix hmarker
    cases part with
    | nil => exact hpart rfl
    | cons c part =>
        obtain ⟨rfl, hsecond⟩ := List.cons_prefix_cons.mp hmarker
        cases part with
        | cons d part =>
            obtain ⟨rfl, -⟩ := List.cons_prefix_cons.mp hsecond
            exact hslashes ((List.prefix_append ['/', '/'] part).isInfix.trans hsuffix.isInfix)
        | nil =>
            -- The second slash is the first character behind the word, where a blank stands.
            cases tail with
            | nil => simp at hsecond
            | cons d tail =>
                obtain ⟨rfl, -⟩ := List.cons_prefix_cons.mp hsecond
                exact absurd (htail '/' rfl) (by decide)
  rw [before_append_of_notMem hgapFree, before_append _ hwordFree]

/-- **The first word of a directive is the text behind its name**, if that text is expressible
and a blank or nothing follows. -/
theorem exists_argWords_eq {gap word tail : List Char} (hgap : ∀ c ∈ gap, endsName c = true)
    (hne : word ≠ []) (hword : ∀ c ∈ word, isBlank c = false) (hdash : word ≠ ['-'])
    (hslashes : ¬ ['/', '/'] <:+: word) (htail : ∀ c ∈ tail.head?, isBlank c = true) :
    ∃ more, argWords (gap ++ (word ++ tail)) = word :: more := by
  have hcut : ∀ c ∈ (before [' ', '-', ' '] tail).head?, isBlank c = true :=
    fun c hc => htail c (mem_head?_of_isPrefix (isPrefix_before _ _) hc)
  have hcut' : ∀ c ∈ (before ['/', '/'] (before [' ', '-', ' '] tail)).head?, isBlank c = true :=
    fun c hc => hcut c (mem_head?_of_isPrefix (isPrefix_before _ _) hc)
  have hgap' : ∀ c ∈ gap, isBlank c = true := fun c hc => isBlank_of_endsName (hgap c hc)
  refine ⟨words (before ['/', '/'] (before [' ', '-', ' '] tail)), ?_⟩
  unfold argWords
  rw [before_dash hgap hne hword hdash, before_slashes hgap hslashes hcut,
    words_append_of_blank hgap', words_append hne hword hcut']
  split
  · rename_i heq
    exact absurd (List.cons.inj heq).1 hdash
  · rfl

/-- What stands around the name and the tag of a directive: blanks in front of the name, spaces
and tabs between name and tag, and a tail that is empty or starts with a space or a tab. -/
structure Spacing where
  lead : String
  gap : String
  tail : String
  lead_blank : ∀ c ∈ lead.toList, isBlank c = true
  gap_ne_empty : gap ≠ ""
  gap_spaces : ∀ c ∈ gap.toList, c = ' ' ∨ c = '\t'
  tail_apart : ∀ c ∈ tail.toList.head?, c = ' ' ∨ c = '\t'

/-- The comment that is a directive of a kind with a tag. -/
def written (k : Kind) (s : Spacing) (t : String) : String :=
  "//" ++ s.lead ++ k.directive ++ s.gap ++ t ++ s.tail

theorem endsName_iff {c : Char} : endsName c = true ↔ c = ' ' ∨ c = '\t' := by
  simp [endsName]

theorem toList_written (k : Kind) (s : Spacing) (t : String) :
    (written k s t).toList = '/' :: '/' :: (s.lead.toList ++
      (k.directive.toList ++ (s.gap.toList ++ (t.toList ++ s.tail.toList)))) := by
  simp [written]

/-- Of the text behind the slashes, only the lead and blanks at the end are trimmed away. -/
theorem trim_written (k : Kind) (s : Spacing) {t : String} (ht : Expressible t) :
    trim (s.lead.toList ++ (k.directive.toList ++ (s.gap.toList ++ (t.toList ++ s.tail.toList)))) =
      k.directive.toList ++ (s.gap.toList ++ (t.toList ++ trimEnd s.tail.toList)) := by
  have hname : ∃ name, k.directive.toList = 't' :: name := by
    obtain ⟨name, hname⟩ := isPrefix_directive k
    exact ⟨_, hname.symm⟩
  obtain ⟨name, hname⟩ := hname
  obtain ⟨front, c, hlast⟩ : ∃ front c, t.toList = front ++ [c] := by
    refine (List.eq_nil_or_concat' t.toList).resolve_left fun hnil => ht.ne_empty ?_
    exact String.toList_eq_nil_iff.mp hnil
  have hc : isBlank c = false := ht.noBlank c (by rw [hlast]; simp)
  have hend := trimEnd_append_cons hc (k.directive.toList ++ s.gap.toList ++ front) s.tail.toList
  rw [trim, trimStart_append s.lead_blank, hname, List.cons_append,
    trimStart_cons (by decide), ← List.cons_append, ← hname]
  simpa [hlast] using hend

/-- **A directive that is written with an expressible tag is read with that tag.** -/
theorem ofComment?_written (k : Kind) (s : Spacing) {t : String} (ht : Expressible t) :
    ∃ d, ofComment? (written k s t) = some d ∧ d.kind? = some k ∧ d.arg = t := by
  have hgap : ∀ c ∈ s.gap.toList, endsName c = true :=
    fun c hc => endsName_iff.mpr (s.gap_spaces c hc)
  have hapart : ∀ c ∈ (s.gap.toList ++ (t.toList ++ trimEnd s.tail.toList)).head?,
      endsName c = true := by
    cases hlist : s.gap.toList with
    | nil => exact absurd (String.toList_eq_nil_iff.mp hlist) s.gap_ne_empty
    | cons c gap =>
        intro d hd
        obtain rfl : c = d := by simpa using hd
        exact hgap c (by rw [hlist]; exact List.mem_cons_self)
  have htail : ∀ c ∈ (trimEnd s.tail.toList).head?, isBlank c = true := by
    intro c hc
    refine isBlank_of_endsName (endsName_iff.mpr (s.tail_apart c ?_))
    exact mem_head?_of_isPrefix (isPrefix_trimEnd s.tail.toList) hc
  have hne : t.toList ≠ [] := fun hnil => ht.ne_empty (String.toList_eq_nil_iff.mp hnil)
  have hdash : t.toList ≠ ['-'] := fun h => ht.ne_dash (String.toList_inj.mp h)
  obtain ⟨more, hmore⟩ := exists_argWords_eq hgap hne ht.noBlank hdash ht.noSlashes htail
  have hread : ofComment? (written k s t) = some {
      name := String.ofList k.directive.toList, args := (t.toList :: more).map String.ofList } := by
    unfold ofComment?
    rw [toList_written]
    simp only
    rw [trim_written k s ht,
      ofBody?_append (isPrefix_directive k) (fun c hc => endsName_of_mem_directive hc) hapart,
      hmore]
  exact ⟨_, hread, by simp [kind?], by simp [arg]⟩

/--
**Exactly the expressible texts are tags of directives, and each is read back.**  For each kind,
some comment is a directive of that kind with a given text as its argument exactly if the text
is not empty, has no blank and no pair of slashes, and is not a lone dash.  A doc comment that is
such a text written after the name of the kind's directive, with any blanks in front, any spaces
and tabs between and any tail, gives that text as tag of the kind and no tag of the other.
-/
theorem expressible_tags (k : Kind) (t : String) :
    ((∃ comment d, ofComment? comment = some d ∧ d.kind? = some k ∧ d.arg = t ∧ t ≠ "") ↔
      Expressible t) ∧
    (Expressible t → ∀ (s : Spacing) (j : Kind),
      (Tags.ofDoc [written k s t]).get? j = if j = k then some ⟨t⟩ else none) := by
  have hread := ofComment?_written k
  refine ⟨⟨?_, fun ht => ?_⟩, fun ht s j => ?_⟩
  · rintro ⟨comment, d, hd, -, rfl, hne⟩
    exact expressible_arg hd hne
  · obtain ⟨d, hd, hkind, harg⟩ := hread ⟨"", " ", "", by simp, by simp, by simp, by simp⟩ ht
    exact ⟨_, d, hd, hkind, harg, ht.ne_empty⟩
  · obtain ⟨d, hd, hkind, harg⟩ := hread s ht
    have hgives : d.gives j = decide (j = k) := by
      simp [gives, hkind, harg, ht.ne_empty, eq_comm]
    have honly : [written k s t].filterMap ofComment? = [d] := List.filterMap_cons_some hd
    rw [Tags.get?_ofDoc_eq_firstTag?, firstTag?, honly, List.find?_singleton, hgives]
    by_cases hj : j = k
    · simp [hj, harg]
    · simp [hj]

/-- Unusual blanks in front, several between, and a tail of two remarks and a word. -/
def ragged : Spacing where
  lead := "\u2003 "
  gap := " \t "
  tail := "\t- - Worker // - /"
  lead_blank := by simp [isBlank]
  gap_ne_empty := by decide
  gap_spaces := by simp
  tail_apart := by simp

theorem ragged_tag :
    Expressible "-/threads.Main/-" ∧
      (Tags.ofDoc [written .dispatch ragged "-/threads.Main/-"]).get? .dispatch =
        some ⟨"-/threads.Main/-"⟩ ∧
      (Tags.ofDoc [written .dispatch ragged "-/threads.Main/-"]).get? .affinity = none := by
  have ht : Expressible "-/threads.Main/-" := by
    exact ⟨by decide, by simp [isBlank], by decide, by decide⟩
  obtain ⟨-, htag⟩ := expressible_tags .dispatch "-/threads.Main/-"
  exact ⟨ht, htag ht ragged .dispatch, htag ht ragged .affinity⟩

end Directive

end ThreadAffinity
