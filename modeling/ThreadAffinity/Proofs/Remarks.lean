/-
What a remark behind a directive changes.

The words of a directive end at its first remark, a lone dash between spaces or a pair of
slashes.  A remark that is put behind a comment comes after whatever is there already, so one
would expect it to change nothing.  Three things stand against that.  The comment is trimmed
before the dash is looked for, so that a dash with nothing but blanks behind it is a word like
any other; for the same reason a dash at the end of the comment is a word until something is put
behind it.  And a name ends only at a space or a tab, while trimming takes any blank away.  What
is proved here is that nothing else does.
-/
import ThreadAffinity.Proofs.ExpressibleTags

namespace ThreadAffinity

open Text

namespace Directive

/-! ### The text in front of a remark -/

/-- The text in front of the first remark. -/
def beforeRemark (rest : List Char) : List Char :=
  before ['/', '/'] (before [' ', '-', ' '] rest)

/-- A remark starts in the text, also if the blanks at its end are taken away. -/
def Remarked (rest : List Char) : Prop :=
  [' ', '-', ' '] <:+: trimEnd rest ∨ ['/', '/'] <:+: trimEnd rest

/-- The text has a dash that starts a remark if a space is put behind the text. -/
def OpenDash (rest : List Char) : Prop :=
  [' ', '-', ' '] <:+: rest ++ [' ']

instance (rest : List Char) : Decidable (OpenDash rest) :=
  inferInstanceAs (Decidable (_ <:+: _))

theorem argWords_of_cons {rest word : List Char} {more : List (List Char)}
    (h : words (beforeRemark rest) = word :: more) :
    argWords rest = if word = ['-'] then [] else word :: more := by
  unfold beforeRemark at h
  unfold argWords
  rw [h]
  by_cases hdash : word = ['-']
  · simp [hdash]
  · rw [if_neg hdash]
    split
    · rename_i heq
      exact absurd (List.cons.inj heq).1 hdash
    · rfl

theorem argWords_of_nil {rest : List Char} (h : words (beforeRemark rest) = []) :
    argWords rest = [] := by
  unfold beforeRemark at h
  simp [argWords, h]

theorem argWords_congr {rest rest' : List Char}
    (h : words (beforeRemark rest) = words (beforeRemark rest')) :
    argWords rest = argWords rest' := by
  cases hwords : words (beforeRemark rest') with
  | nil => rw [argWords_of_nil hwords, argWords_of_nil (h.trans hwords)]
  | cons word more => rw [argWords_of_cons hwords, argWords_of_cons (h.trans hwords)]

/-- A dash behind the other words is seen, unless there are none or a dash leads them. -/
theorem argWords_of_concat_dash {rest rest' : List Char}
    (h : words (beforeRemark rest) = words (beforeRemark rest') ++ [['-']]) :
    (argWords rest = [] ∧ argWords rest' = []) ∨
      (argWords rest ≠ [] ∧ argWords rest' ≠ [] ∧ argWords rest ≠ argWords rest') := by
  cases hwords : words (beforeRemark rest') with
  | nil =>
      rw [hwords, List.nil_append] at h
      left
      rw [argWords_of_cons h, argWords_of_nil hwords]
      simp
  | cons word more =>
      rw [hwords, List.cons_append] at h
      rw [argWords_of_cons h, argWords_of_cons hwords]
      by_cases hdash : word = ['-']
      · simp [hdash]
      · simp [hdash]

/-! ### Where the first remark starts -/

section Cut

variable {rest : List Char}

theorem infix_slashes_of_append {tail : List Char} (htail : '/' ∉ tail)
    (h : ['/', '/'] <:+: rest ++ tail) : ['/', '/'] <:+: rest := by
  refine infix_of_infix_append (by simp) ?_ h
  intro c hc hmem
  obtain rfl : c = '/' := by simpa using hmem
  exact htail hc

theorem notMem_slash_of_blank {tail : List Char} (h : ∀ c ∈ tail, isBlank c = true) :
    '/' ∉ tail :=
  fun hmem => absurd (h '/' hmem) (by decide)

theorem infix_slashes_trimEnd (h : ['/', '/'] <:+: rest) : ['/', '/'] <:+: trimEnd rest := by
  obtain ⟨tail, hrest, hblank⟩ := exists_trimEnd_append rest
  rw [hrest] at h
  exact infix_slashes_of_append (notMem_slash_of_blank hblank) h

/-- Without an open dash the first remark is not found before the space. -/
theorem before_append_space (h : ¬ OpenDash rest) (tail : List Char) :
    before [' ', '-', ' '] (rest ++ ' ' :: tail) =
      rest ++ before [' ', '-', ' '] (' ' :: tail) := by
  refine before_append _ ?_
  intro part hne hpart hmarker
  cases part with
  | nil => exact hne rfl
  | cons c part =>
      cases part with
      | nil =>
          -- The character behind the space would be the one that is put there.
          simp at hmarker
      | cons d part =>
          have hshort : c :: d :: part ++ [' '] <+: c :: d :: part ++ ' ' :: tail := by simp
          have hinside := List.prefix_of_prefix_length_le hmarker hshort (by simp)
          obtain ⟨left, rfl⟩ := hpart
          refine h (hinside.isInfix.trans ?_)
          rw [List.append_assoc]
          exact (List.suffix_append left _).isInfix

/-- An open dash that is none without the blanks at the end is the end of the text. -/
theorem exists_of_openDash (hopen : OpenDash rest)
    (hclosed : ¬ [' ', '-', ' '] <:+: trimEnd rest) :
    ∃ front back, trimEnd rest = front ++ [' ', '-'] ∧
      rest ++ [' '] = front ++ ([' ', '-', ' '] ++ back) := by
  obtain ⟨front, back, htext⟩ := hopen
  obtain ⟨tail, hrest, hblank⟩ := exists_trimEnd_append rest
  have hdash : '-' ∉ tail ++ [' '] := by
    intro hmem
    rcases List.mem_append.mp hmem with hmem | hmem
    · exact absurd (hblank '-' hmem) (by decide)
    · simp at hmem
  refine ⟨front, back, ?_, by rw [← htext, List.append_assoc]⟩
  have hsplit : (front ++ [' ', '-']) ++ ' ' :: back = trimEnd rest ++ (tail ++ [' ']) := by
    rw [← List.append_assoc, ← hrest, ← htext]
    simp
  rcases List.append_eq_append_iff.mp hsplit with ⟨extra, htrim, hextra⟩ | ⟨extra, hfront, hextra⟩
  · cases extra with
    | nil => rw [htrim, List.append_nil]
    | cons c extra =>
        -- The space behind the dash would not have been trimmed away.
        obtain ⟨rfl, -⟩ := List.cons.inj hextra
        refine absurd ⟨front, extra, ?_⟩ hclosed
        rw [htrim]
        simp
  · rcases List.eq_nil_or_concat' extra with rfl | ⟨extra', c, rfl⟩
    · rw [hfront, List.append_nil]
    · -- The dash would be among the blanks.
      have hlast : c = '-' := by
        have := congrArg List.getLast? hfront
        simpa using this.symm
      refine absurd ?_ hdash
      rw [hextra, hlast]
      simp

theorem before_append_of_openDash {front back : List Char}
    (hclosed : ¬ [' ', '-', ' '] <:+: front ++ [' ', '-'])
    (htext : rest ++ [' '] = front ++ ([' ', '-', ' '] ++ back)) (tail : List Char) :
    before [' ', '-', ' '] (rest ++ ' ' :: tail) = front := by
  have hmarked : rest ++ ' ' :: tail = front ++ ([' ', '-'] ++ [' '] ++ (back ++ tail)) := by
    calc rest ++ ' ' :: tail = (rest ++ [' ']) ++ tail := by simp
      _ = front ++ ([' ', '-'] ++ [' '] ++ (back ++ tail)) := by rw [htext]; simp
  have hcut : before ([' ', '-'] ++ [' ']) (front ++ ([' ', '-'] ++ [' '] ++ (back ++ tail))) =
      front := before_append_marker hclosed (back ++ tail)
  rw [hmarked]
  exact hcut

/-- Behind a remark nothing counts. -/
theorem beforeRemark_of_remarked (h : Remarked rest) (tail : List Char) :
    beforeRemark (rest ++ ' ' :: tail) = beforeRemark (trimEnd rest) := by
  obtain ⟨blanks, hrest, -⟩ := exists_trimEnd_append rest
  unfold beforeRemark
  by_cases hdash : [' ', '-', ' '] <:+: trimEnd rest
  · have hcut := before_append_of_infix hdash (by simp) (blanks ++ ' ' :: tail)
    rw [← List.append_assoc, ← hrest] at hcut
    rw [hcut]
  · have hslashes : ['/', '/'] <:+: trimEnd rest := h.resolve_left hdash
    rw [before_eq_self hdash]
    by_cases hopen : OpenDash rest
    · obtain ⟨front, back, htrim, htext⟩ := exists_of_openDash hopen hdash
      rw [htrim] at hdash hslashes ⊢
      have hfront : ['/', '/'] <:+: front := infix_slashes_of_append (by simp) hslashes
      rw [before_append_of_openDash hdash htext, before_append_of_infix hfront (by simp)]
    · rw [before_append_space hopen]
      conv => lhs; rw [hrest, List.append_assoc]
      exact before_append_of_infix hslashes (by simp) _

theorem beforeRemark_eq_self (h : ¬ Remarked rest) :
    beforeRemark (trimEnd rest) = trimEnd rest := by
  obtain ⟨hdash, hslashes⟩ := not_or.mp h
  rw [beforeRemark, before_eq_self hdash, before_eq_self hslashes]

/-- An open dash is a word of its own, until a space is put behind it. -/
theorem words_of_openDash (hopen : OpenDash rest) (h : ¬ Remarked rest) (tail : List Char) :
    words (beforeRemark (trimEnd rest)) =
      words (beforeRemark (rest ++ ' ' :: tail)) ++ [['-']] := by
  obtain ⟨hdash, hslashes⟩ := not_or.mp h
  obtain ⟨front, back, htrim, htext⟩ := exists_of_openDash hopen hdash
  rw [beforeRemark_eq_self h, beforeRemark]
  rw [htrim] at hdash hslashes ⊢
  have hfront : ¬ ['/', '/'] <:+: front :=
    fun hin => hslashes (hin.trans (List.prefix_append front [' ', '-']).isInfix)
  rw [before_append_of_openDash hdash htext, before_eq_self hfront, words_append_cons (by decide)]
  rfl

theorem beforeRemark_dash (hopen : ¬ OpenDash rest) (h : ¬ Remarked rest) (tail : List Char) :
    beforeRemark (rest ++ ' ' :: '-' :: ' ' :: tail) = rest := by
  have hslashes : ¬ ['/', '/'] <:+: rest :=
    fun hin => (not_or.mp h).2 (infix_slashes_trimEnd hin)
  rw [beforeRemark, before_append_space hopen]
  simp [before, before_eq_self hslashes]

theorem beforeRemark_loneDash (hopen : ¬ OpenDash rest) (h : ¬ Remarked rest) :
    beforeRemark (rest ++ [' ', '-']) = rest ++ [' ', '-'] := by
  have hslashes : ¬ ['/', '/'] <:+: rest ++ [' ', '-'] :=
    fun hin => (not_or.mp h).2 (infix_slashes_trimEnd (infix_slashes_of_append (by simp) hin))
  have hcut : before [' ', '-', ' '] (rest ++ [' ', '-']) = rest ++ [' ', '-'] := by
    rw [before_append_space hopen]
    simp [before]
  rw [beforeRemark, hcut, before_eq_self hslashes]

theorem beforeRemark_slashes (hopen : ¬ OpenDash rest) (h : ¬ Remarked rest) (tail : List Char) :
    beforeRemark (rest ++ ' ' :: '/' :: '/' :: tail) = rest ++ [' '] := by
  have hslashes : ¬ ['/'] ++ ['/'] <:+: (rest ++ [' ']) ++ ['/'] := by
    intro hin
    rcases List.infix_concat_iff.mp hin with hend | hin
    · obtain ⟨left, hleft⟩ := hend
      simpa using congrArg List.reverse hleft
    · exact (not_or.mp h).2 (infix_slashes_trimEnd (infix_slashes_of_append (by simp) hin))
  have hcut : before [' ', '-', ' '] (' ' :: '/' :: '/' :: tail) =
      ' ' :: '/' :: '/' :: before [' ', '-', ' '] tail := by
    simp [before]
  have hmarked := before_append_marker hslashes (before [' ', '-', ' '] tail)
  rw [beforeRemark, before_append_space hopen, hcut]
  simpa using hmarked

end Cut

/-! ### The words with and without the remark -/

/-- The two ways to start a remark. -/
inductive RemarkSign where
  | dash
  | slashes
deriving DecidableEq, Repr

/-- A remark that is put behind a comment starts with a space, the sign and a space. -/
def RemarkSign.text : RemarkSign → String
  | dash => " - "
  | slashes => " // "

/-- A remark behind a text leaves its words as they are: there are none, or a remark starts
already, or no dash is open and the new remark does not end with its dash. -/
def KeepsWords (rest : List Char) (sign : RemarkSign) (remark : List Char) : Prop :=
  argWords (trimEnd rest) = [] ∨ Remarked rest ∨
    ¬ OpenDash rest ∧ (sign = .slashes ∨ ∃ c ∈ remark, isBlank c = false)

theorem words_trimEnd_of_not_remarked {rest : List Char} (h : ¬ Remarked rest) :
    words (beforeRemark (trimEnd rest)) = words rest := by
  rw [beforeRemark_eq_self h, words_trimEnd]

theorem argWords_trimEnd_slashes {rest : List Char} (hopen : ¬ OpenDash rest)
    (h : ¬ Remarked rest) (remark : List Char) :
    argWords (trimEnd (rest ++ ' ' :: '/' :: '/' :: remark)) = argWords (trimEnd rest) := by
  have htrim : trimEnd (rest ++ ' ' :: '/' :: '/' :: remark) =
      rest ++ ' ' :: '/' :: '/' :: trimEnd remark := by
    simpa using trimEnd_append_cons (c := '/') (by decide) (rest ++ [' ', '/']) remark
  have hspace : ∀ c ∈ [' '], isBlank c = true := by simp [isBlank]
  refine argWords_congr ?_
  rw [htrim, beforeRemark_slashes hopen h, words_trimEnd_of_not_remarked h,
    words_append_blanks hspace]

theorem argWords_trimEnd_dash {rest : List Char} (hopen : ¬ OpenDash rest) (h : ¬ Remarked rest)
    {remark : List Char} (hremark : ∃ c ∈ remark, isBlank c = false) :
    argWords (trimEnd (rest ++ ' ' :: '-' :: ' ' :: remark)) = argWords (trimEnd rest) := by
  have htrim : trimEnd (rest ++ ' ' :: '-' :: ' ' :: remark) =
      rest ++ ' ' :: '-' :: ' ' :: trimEnd remark := by
    simpa using trimEnd_append hremark (rest ++ [' ', '-', ' '])
  refine argWords_congr ?_
  rw [htrim, beforeRemark_dash hopen h, words_trimEnd_of_not_remarked h]

/-- A dash with blanks behind it is a word more. -/
theorem words_trimEnd_loneDash {rest : List Char} (hopen : ¬ OpenDash rest)
    (h : ¬ Remarked rest) {remark : List Char} (hremark : ∀ c ∈ remark, isBlank c = true) :
    words (beforeRemark (trimEnd (rest ++ ' ' :: '-' :: ' ' :: remark))) =
      words (beforeRemark (trimEnd rest)) ++ [['-']] := by
  have hblank : ∀ c ∈ ' ' :: remark, isBlank c = true := by
    intro c hc
    rcases List.mem_cons.mp hc with rfl | hc
    · decide
    · exact hremark c hc
  have htrim : trimEnd (rest ++ ' ' :: '-' :: ' ' :: remark) = rest ++ [' ', '-'] := by
    have hdash := trimEnd_append_cons (c := '-') (by decide) (rest ++ [' ']) (' ' :: remark)
    have hnone := trimEnd_append_of_blank hblank []
    rw [List.nil_append] at hnone
    simpa [hnone] using hdash
  rw [htrim, beforeRemark_loneDash hopen h, words_trimEnd_of_not_remarked h,
    words_append_cons (by decide)]
  rfl

theorem exists_trimEnd_sign (rest : List Char) (sign : RemarkSign) (remark : List Char) :
    ∃ tail, trimEnd (rest ++ (sign.text.toList ++ remark)) = rest ++ ' ' :: tail := by
  cases sign with
  | dash =>
      exact ⟨'-' :: trimEnd (' ' :: remark), by
        simpa [RemarkSign.text] using
          trimEnd_append_cons (c := '-') (by decide) (rest ++ [' ']) (' ' :: remark)⟩
  | slashes =>
      exact ⟨'/' :: trimEnd ('/' :: ' ' :: remark), by
        simpa [RemarkSign.text] using
          trimEnd_append_cons (c := '/') (by decide) (rest ++ [' ']) ('/' :: ' ' :: remark)⟩

/-- The words are the same with the remark exactly if the remark keeps them. -/
theorem argWords_sign_iff (rest : List Char) (sign : RemarkSign) (remark : List Char) :
    argWords (trimEnd (rest ++ (sign.text.toList ++ remark))) = argWords (trimEnd rest) ↔
      KeepsWords rest sign remark := by
  unfold KeepsWords
  obtain ⟨tail, htail⟩ := exists_trimEnd_sign rest sign remark
  -- Only if the text has neither a remark nor an open dash does it matter what is put behind it.
  by_cases hmarked : Remarked rest
  · have hsame : argWords (rest ++ ' ' :: tail) = argWords (trimEnd rest) :=
      argWords_congr (by rw [beforeRemark_of_remarked hmarked])
    simp [htail, hsame, hmarked]
  by_cases hopen : OpenDash rest
  · rw [htail]
    rcases argWords_of_concat_dash (words_of_openDash hopen hmarked tail) with h | h
    · simp [h.1, h.2]
    · simp [h.1, h.2.2.symm, hmarked, hopen]
  · cases sign with
    | slashes =>
        have hsame := argWords_trimEnd_slashes hopen hmarked (' ' :: remark)
        simp [RemarkSign.text, hsame, hopen]
    | dash =>
        by_cases hremark : ∃ c ∈ remark, isBlank c = false
        · have hsame := argWords_trimEnd_dash hopen hmarked hremark
          simp [RemarkSign.text, hsame, hopen, hremark]
        · have hblank : ∀ c ∈ remark, isBlank c = true := by simpa using hremark
          have hmore := words_trimEnd_loneDash hopen hmarked hblank
          rcases argWords_of_concat_dash hmore with h | h
          · simp [RemarkSign.text, h.1, h.2]
          · simp [RemarkSign.text, h.2.1, h.2.2, hmarked, hremark]

theorem map_ofList_inj {texts texts' : List (List Char)} :
    texts.map String.ofList = texts'.map String.ofList ↔ texts = texts' :=
  List.map_inj_right fun _ _ => String.ofList_inj.mp

/-! ### The comment with and without the remark -/

/-- The text of a comment from the name of its directive on. -/
def fromName (comment : String) : List Char :=
  trimStart (comment.toList.drop 2)

/-- The name of the directive as it is written: what comes before a space, a tab or the end. -/
def writtenName (comment : String) : List Char :=
  (fromName comment).takeWhile (! endsName ·)

/-- What stands behind the name. -/
def behindName (comment : String) : List Char :=
  (fromName comment).dropWhile (! endsName ·)

theorem fromName_eq (comment : String) :
    fromName comment = writtenName comment ++ behindName comment :=
  List.takeWhile_append_dropWhile.symm

theorem endsName_of_mem_writtenName {comment : String} {c : Char}
    (h : c ∈ writtenName comment) : endsName c = false := by
  simpa using List.mem_takeWhile_imp h

theorem endsName_of_mem_head? {comment : String} {c : Char}
    (h : c ∈ (behindName comment).head?) : endsName c = true := by
  have hhead := List.head?_dropWhile_not (! endsName ·) (fromName comment)
  unfold behindName at h
  rw [Option.mem_def.mp h] at hhead
  simpa using hhead

theorem isPrefix_of_ofBody? {body : List Char} {d : Directive} (h : ofBody? body = some d) :
    domain <+: body := by
  unfold ofBody? at h
  split at h
  · rename_i hstarts
    exact List.isPrefixOf_iff_prefix.mp hstarts
  · cases h

/-- What a body gives whose name is not touched by trimming. -/
theorem ofBody?_trimEnd {name more : List Char} (hdomain : domain <+: name)
    (hname : ∀ c ∈ name, endsName c = false) (hmore : ∀ c ∈ more.head?, endsName c = true)
    (hkeep : trimEnd (name ++ more) = name ++ trimEnd more) :
    ofBody? (trimEnd (name ++ more)) =
      some { name := String.ofList name, args := (argWords (trimEnd more)).map String.ofList } := by
  rw [hkeep]
  refine ofBody?_append hdomain hname fun c hc => hmore c ?_
  exact mem_head?_of_isPrefix (isPrefix_trimEnd more) hc

section Comment

variable {comment : String} {d : Directive} (h : ofComment? comment = some d)
include h

theorem exists_rest :
    ∃ rest, comment.toList = '/' :: '/' :: rest ∧ fromName comment = trimStart rest := by
  unfold ofComment? at h
  split at h
  · rename_i rest hcomment
    exact ⟨rest, hcomment, by rw [fromName, hcomment]; rfl⟩
  · cases h

theorem ofBody?_fromName : ofBody? (trimEnd (fromName comment)) = some d := by
  obtain ⟨rest, hcomment, hfrom⟩ := exists_rest h
  unfold ofComment? at h
  rw [hcomment] at h
  rw [hfrom]
  exact h

theorem isPrefix_writtenName : domain <+: writtenName comment := by
  have hstarts := (isPrefix_of_ofBody? (ofBody?_fromName h)).trans (isPrefix_trimEnd _)
  obtain ⟨more, hmore⟩ := hstarts
  have hdomain : domain.all (! endsName ·) = true := by decide
  rw [writtenName, ← hmore, List.takeWhile_append_of_pos (List.all_eq_true.mp hdomain)]
  exact List.prefix_append _ _

/-- The words are those behind the name, whether or not trimming touches the name. -/
theorem args_eq_behindName :
    d.args = (argWords (trimEnd (behindName comment))).map String.ofList := by
  have hbody := ofBody?_fromName h
  have hdomain := isPrefix_of_ofBody? hbody
  rw [fromName_eq] at hbody hdomain
  by_cases hmore : ∃ c ∈ behindName comment, isBlank c = false
  · rw [ofBody?_trimEnd (isPrefix_writtenName h) (fun c => endsName_of_mem_writtenName)
      (fun c => endsName_of_mem_head?) (trimEnd_append hmore _)] at hbody
    rw [← Option.some.inj hbody]
  · have hblank : ∀ c ∈ behindName comment, isBlank c = true := by simpa using hmore
    have hnone := trimEnd_append_of_blank hblank []
    rw [List.nil_append, trimEnd_nil] at hnone
    rw [trimEnd_append_of_blank hblank] at hbody hdomain
    have hname : ∀ c ∈ trimEnd (writtenName comment), endsName c = false :=
      fun c hc => endsName_of_mem_writtenName ((isPrefix_trimEnd _).subset hc)
    rw [← List.append_nil (trimEnd _), ofBody?_append hdomain hname (by simp)] at hbody
    rw [hnone, ← Option.some.inj hbody]

theorem ofComment?_append {tail : String} (hspace : ∀ c ∈ tail.toList.head?, endsName c = true)
    (htail : ∃ c ∈ tail.toList, isBlank c = false) :
    ofComment? (comment ++ tail) = some {
      name := String.ofList (writtenName comment)
      args := (argWords (trimEnd (behindName comment ++ tail.toList))).map String.ofList } := by
  obtain ⟨rest, hcomment, hfrom⟩ := exists_rest h
  have hne : trimStart rest ≠ [] := by
    intro hnil
    have hdomain := isPrefix_writtenName h
    rw [writtenName, hfrom, hnil] at hdomain
    exact absurd (List.eq_nil_of_prefix_nil hdomain) (by decide)
  have hhead : ∀ c ∈ (behindName comment ++ tail.toList).head?, endsName c = true := by
    intro c hc
    cases hmore : behindName comment with
    | nil => exact hspace c (by simpa [hmore] using hc)
    | cons b more =>
        have hb : c ∈ (behindName comment).head? := by simpa [hmore] using hc
        exact endsName_of_mem_head? hb
  have htext : (comment ++ tail).toList = '/' :: '/' :: (rest ++ tail.toList) := by
    simp [hcomment]
  have hmore : ∃ c ∈ behindName comment ++ tail.toList, isBlank c = false := by
    obtain ⟨c, hc, hblank⟩ := htail
    exact ⟨c, by simp [hc], hblank⟩
  unfold ofComment?
  rw [htext]
  show ofBody? (trimEnd (trimStart (rest ++ tail.toList))) = _
  rw [trimStart_append_of_ne_nil hne, ← hfrom, fromName_eq, List.append_assoc]
  exact ofBody?_trimEnd (isPrefix_writtenName h) (fun c => endsName_of_mem_writtenName) hhead
    (trimEnd_append hmore _)

theorem ofComment?_sign (sign : RemarkSign) (remark : String) :
    ofComment? (comment ++ sign.text ++ remark) = some {
      name := String.ofList (writtenName comment)
      args := (argWords (trimEnd (behindName comment ++
        (sign.text.toList ++ remark.toList)))).map String.ofList } := by
  have hsign : (∀ c ∈ (sign.text ++ remark).toList.head?, endsName c = true) ∧
      ∃ c ∈ (sign.text ++ remark).toList, isBlank c = false := by
    cases sign with
    | dash => exact ⟨by simp [RemarkSign.text, endsName], '-', by simp [RemarkSign.text], by decide⟩
    | slashes =>
        exact ⟨by simp [RemarkSign.text, endsName], '/', by simp [RemarkSign.text], by decide⟩
  rw [String.append_assoc, ofComment?_append h hsign.1 hsign.2, String.toList_append]

end Comment

end Directive

/-! ### What is ignored with and without the remark -/

/-- The comment with a new text in place of an old one. -/
def Comment.replaceText (c : Comment) (old new : String) : Comment :=
  if c.text = old then { c with text := new } else c

/-- The file with a new text in all comments that have an old one. -/
def SourceFile.replaceText (file : SourceFile) (old new : String) : SourceFile :=
  { file with comments := file.comments.map fun group => group.map (·.replaceText old new) }

/-- Comments that ignore the same checkers can stand for each other. -/
theorem IgnoreTable.build_replaceText {old new : String}
    (h : Ignore.ofComment? new = Ignore.ofComment? old) (file : SourceFile) :
    build (file.replaceText old new) = build file := by
  have hstep : ∀ (table : IgnoreTable) (c : Comment),
      addComment (file.replaceText old new) table (c.replaceText old new) =
        addComment file table c := by
    intro table c
    unfold Comment.replaceText
    by_cases hc : c.text = old
    · rw [if_pos hc, addComment, addComment, hc, h]
      rfl
    · rw [if_neg hc]
      rfl
  unfold build
  rw [SourceFile.replaceText, ← List.map_flatten, List.foldl_map]
  exact List.foldl_ext _ _ _ fun table c _ => hstep table c

namespace Directive

/--
**When a remark leaves a directive as it is.**  A comment that holds a directive holds one also
with a remark behind it.  It is the same directive exactly if the name is written in front of a
space, a tab or the end, and not in front of some other blank that is trimmed away, and the
words are kept: there are none, or a remark starts in front already, or the comment does not end
in an open dash and the remark is more than its dash.  If it is the same, then in every file the
comment suppresses the same with the remark as without.
-/
theorem remark_keeps_directive_iff {comment : String} {d : Directive}
    (h : ofComment? comment = some d) (sign : RemarkSign) (remark : String) :
    (∃ d', ofComment? (comment ++ sign.text ++ remark) = some d') ∧
    (ofComment? (comment ++ sign.text ++ remark) = some d ↔
      d.name.toList = writtenName comment ∧
        KeepsWords (behindName comment) sign remark.toList) ∧
    (ofComment? (comment ++ sign.text ++ remark) = some d → ∀ file : SourceFile,
      IgnoreTable.build (file.replaceText comment (comment ++ sign.text ++ remark)) =
        IgnoreTable.build file) := by
  have hread := ofComment?_sign h sign remark
  refine ⟨⟨_, hread⟩, ?_, fun hsame file => IgnoreTable.build_replaceText ?_ file⟩
  · obtain ⟨name, args⟩ := d
    have hargs : args = _ := args_eq_behindName h
    rw [hread, Option.some.injEq, Directive.mk.injEq, hargs, map_ofList_inj, argWords_sign_iff]
    refine and_congr_left fun _ => ⟨fun hname => ?_, fun hname => ?_⟩
    · rw [← hname, String.toList_ofList]
    · rw [← hname, String.ofList_toList]
  · rw [Ignore.ofComment?, Ignore.ofComment?, hsame, h]

theorem dashed_word_kept :
    ofComment? "//\u00a0threadctl:ignore\tcrossthread -x " =
      some { name := "threadctl:ignore", args := ["crossthread", "-x"] } ∧
    ofComment? ("//\u00a0threadctl:ignore\tcrossthread -x " ++ RemarkSign.dash.text ++ "\t//") =
      some { name := "threadctl:ignore", args := ["crossthread", "-x"] } ∧
    ∀ file : SourceFile, IgnoreTable.build (file.replaceText
        "//\u00a0threadctl:ignore\tcrossthread -x "
        ("//\u00a0threadctl:ignore\tcrossthread -x " ++ RemarkSign.dash.text ++ "\t//")) =
      IgnoreTable.build file := by
  have hread : ofComment? "//\u00a0threadctl:ignore\tcrossthread -x " =
      some { name := "threadctl:ignore", args := ["crossthread", "-x"] } := by decide
  obtain ⟨-, hkept, hsuppresses⟩ := remark_keeps_directive_iff hread .dash "\t//"
  have hsame := hkept.mpr
    ⟨by decide, .inr (.inr ⟨by decide, .inr ⟨'/', by simp, by decide⟩⟩)⟩
  exact ⟨hread, hsame, hsuppresses hsame⟩

/-- A dash without a reason becomes a word, and so does one that ends the comment; a blank that
ends no name becomes part of it. -/
theorem remark_changes_directive :
    (ofComment? "//threadctl:ignore crossthread" =
        some { name := "threadctl:ignore", args := ["crossthread"] } ∧
      ofComment? ("//threadctl:ignore crossthread" ++ RemarkSign.dash.text ++ "") =
        some { name := "threadctl:ignore", args := ["crossthread", "-"] } ∧
      Ignore.ofComment? ("//threadctl:ignore crossthread" ++ RemarkSign.dash.text ++ "") =
        some ["crossthread-"]) ∧
    (ofComment? "//threadctl:thread Main -" =
        some { name := "threadctl:thread", args := ["Main", "-"] } ∧
      ofComment? ("//threadctl:thread Main -" ++ RemarkSign.slashes.text ++ "why") =
        some { name := "threadctl:thread", args := ["Main"] }) ∧
    ofComment? "//threadctl:ignore\u00a0" = some { name := "threadctl:ignore", args := [] } ∧
      ofComment? ("//threadctl:ignore\u00a0" ++ RemarkSign.dash.text ++ "why") =
        some { name := "threadctl:ignore\u00a0", args := [] } := by
  decide

end Directive

end ThreadAffinity
