/-
Lists of checkers are read back as they were written.

The list of an ignore directive goes through four steps: a remark is cut off, the rest is split
into words, the words are joined again, and what comes out is split at its commas.  Splitting and
joining takes the blanks out and nothing else, so spaces and tabs around the names do not count,
and entries without a name leave nothing behind.  A remark cannot be found too early, since
neither of its signs can come about in a list of names.
-/
import ThreadAffinity.Proofs.Remarks

namespace ThreadAffinity.Ignore

open Text

/-! ### How a list is written -/

/-- A character of a checker's name: anything but blanks, commas, dashes and slashes.  Every
letter is one. -/
def isNameChar (c : Char) : Bool :=
  ! isBlank c && c != ',' && c != '-' && c != '/'

/-- A word that can be a checker's name. -/
def IsName (name : CheckerName) : Prop :=
  name ≠ "" ∧ ∀ c ∈ name.toList, isNameChar c = true

/-- An entry of a list: a name, or none if a comma is astray, with spaces and tabs around it. -/
structure ListEntry where
  left : String
  name : String
  right : String
  left_spaces : ∀ c ∈ left.toList, c = ' ' ∨ c = '\t'
  name_chars : ∀ c ∈ name.toList, isNameChar c = true
  right_spaces : ∀ c ∈ right.toList, c = ' ' ∨ c = '\t'

def ListEntry.text (e : ListEntry) : String :=
  e.left ++ e.name ++ e.right

/-- What may follow a list: nothing, a dash with a reason, or slashes with any text. -/
inductive ListTail where
  | none
  | dash (reason : String) (h : ∃ c ∈ reason.toList, isBlank c = false)
  | slashes (remark : String)

def ListTail.text : ListTail → String
  | none => ""
  | dash reason _ => " - " ++ reason
  | slashes remark => " //" ++ remark

/-- An ignore directive as it is written: blanks, the name, spaces and tabs, the entries with a
comma between each two of them, and a tail. -/
structure Listing where
  lead : String
  gap : String
  entries : List ListEntry
  tail : ListTail
  lead_blank : ∀ c ∈ lead.toList, isBlank c = true
  gap_spaces : ∀ c ∈ gap.toList, c = ' ' ∨ c = '\t'
  gap_ne_empty : entries ≠ [] → gap ≠ ""

namespace Listing

/-- The names that are listed. -/
def names (l : Listing) : List CheckerName :=
  (l.entries.map (·.name)).filter (· ≠ "")

/-- The entries as one text. -/
def list (l : Listing) : String :=
  ",".intercalate (l.entries.map (·.text))

/-- The comment that is written. -/
def text (l : Listing) : String :=
  "//" ++ l.lead ++ directiveName ++ l.gap ++ l.list ++ l.tail.text

end Listing

/-! ### The text of a list -/

theorem isBlank_of_space {c : Char} (h : c = ' ' ∨ c = '\t') : isBlank c = true :=
  Directive.isBlank_of_endsName (Directive.endsName_iff.mpr h)

theorem isNameChar_iff {c : Char} :
    isNameChar c = true ↔ isBlank c = false ∧ c ≠ ',' ∧ c ≠ '-' ∧ c ≠ '/' := by
  simp [isNameChar, and_assoc]

/-- Neither a blank nor a comma nor a character of a name can be in the sign of a remark. -/
theorem ne_sign {c : Char} (h : isBlank c = true ∨ c = ',' ∨ isNameChar c = true) :
    c ≠ '-' ∧ c ≠ '/' := by
  rcases h with hblank | rfl | hname
  · constructor
    · rintro rfl
      exact absurd hblank (by decide)
    · rintro rfl
      exact absurd hblank (by decide)
  · decide
  · exact (isNameChar_iff.mp hname).2.2

theorem ListEntry.mem_text {e : ListEntry} {c : Char} (h : c ∈ e.text.toList) :
    isBlank c = true ∨ c = ',' ∨ isNameChar c = true := by
  simp only [ListEntry.text, String.toList_append, List.mem_append] at h
  rcases h with (hleft | hname) | hright
  · exact .inl (isBlank_of_space (e.left_spaces c hleft))
  · exact .inr (.inr (e.name_chars c hname))
  · exact .inl (isBlank_of_space (e.right_spaces c hright))

/-- Without its blanks, an entry is its name. -/
theorem ListEntry.filter_text (e : ListEntry) :
    e.text.toList.filter (! isBlank ·) = e.name.toList := by
  have hleft : e.left.toList.filter (! isBlank ·) = [] :=
    List.filter_eq_nil_iff.mpr fun c hc => by simp [isBlank_of_space (e.left_spaces c hc)]
  have hright : e.right.toList.filter (! isBlank ·) = [] :=
    List.filter_eq_nil_iff.mpr fun c hc => by simp [isBlank_of_space (e.right_spaces c hc)]
  have hname : e.name.toList.filter (! isBlank ·) = e.name.toList :=
    List.filter_eq_self.mpr fun c hc => by simp [(isNameChar_iff.mp (e.name_chars c hc)).1]
  simp only [ListEntry.text, String.toList_append, List.filter_append]
  rw [hleft, hname, hright, List.nil_append, List.append_nil]

namespace Listing

variable (l : Listing)

theorem toList_list : l.list.toList = [','].intercalate (l.entries.map (·.text.toList)) := by
  simp [list, String.toList_intercalate, Function.comp_def]

/-- The signs of a remark cannot come about between the directive's name and the tail. -/
theorem ne_sign_of_mem {c : Char} (h : c ∈ l.gap.toList ++ l.list.toList) :
    c ≠ '-' ∧ c ≠ '/' := by
  refine ne_sign ?_
  rcases List.mem_append.mp h with hgap | hlist
  · exact .inl (isBlank_of_space (l.gap_spaces c hgap))
  · rw [toList_list] at hlist
    rcases mem_intercalate hlist with hsep | ⟨piece, hpiece, hc⟩
    · exact .inr (.inl (by simpa using hsep))
    · obtain ⟨e, -, rfl⟩ := List.mem_map.mp hpiece
      exact ListEntry.mem_text hc

/-- Without its blanks, the list is the names with a comma between each two of them. -/
theorem filter_list : (l.gap.toList ++ l.list.toList).filter (! isBlank ·) =
    [','].intercalate (l.entries.map (·.name.toList)) := by
  have hgap : l.gap.toList.filter (! isBlank ·) = [] :=
    List.filter_eq_nil_iff.mpr fun c hc => by simp [isBlank_of_space (l.gap_spaces c hc)]
  have hcomma : [','].filter (! isBlank ·) = [','] := by decide
  rw [List.filter_append, hgap, List.nil_append, toList_list, filter_intercalate, hcomma,
    List.map_map]
  congr 1
  exact List.map_congr_left fun e _ => e.filter_text

end Listing

/-! ### Reading the list -/

/-- A text without the characters of the signs is all words. -/
theorem argWords_of_plain {rest : List Char} (hdash : '-' ∉ rest)
    (hplain : ¬ Directive.Remarked rest) : Directive.argWords (trimEnd rest) = words rest := by
  have hcut := Directive.words_trimEnd_of_not_remarked hplain
  cases hwords : words rest with
  | nil => exact Directive.argWords_of_nil (hcut.trans hwords)
  | cons word more =>
      rw [Directive.argWords_of_cons (hcut.trans hwords), if_neg]
      rintro rfl
      have hword : ['-'] <:+: rest := infix_of_mem_words (by rw [hwords]; exact List.mem_cons_self)
      exact hdash (hword.subset (by simp))

namespace Listing

variable (l : Listing)

theorem not_openDash : ¬ Directive.OpenDash (l.gap.toList ++ l.list.toList) := by
  intro h
  have hdash : '-' ∈ (l.gap.toList ++ l.list.toList) ++ [' '] := h.subset (by simp)
  rcases List.mem_append.mp hdash with hmem | hmem
  · exact (l.ne_sign_of_mem hmem).1 rfl
  · simp at hmem

theorem not_remarked : ¬ Directive.Remarked (l.gap.toList ++ l.list.toList) := by
  rintro (h | h)
  · have hdash := (h.trans (isPrefix_trimEnd _).isInfix).subset (by simp : '-' ∈ [' ', '-', ' '])
    exact (l.ne_sign_of_mem hdash).1 rfl
  · have hslash := (h.trans (isPrefix_trimEnd _).isInfix).subset (by simp : '/' ∈ ['/', '/'])
    exact (l.ne_sign_of_mem hslash).2 rfl

/-- The words of the directive are those of the list, whatever the tail is. -/
theorem argWords_eq : Directive.argWords
    (trimEnd (l.gap.toList ++ l.list.toList ++ l.tail.text.toList)) =
      words (l.gap.toList ++ l.list.toList) := by
  have hdash : '-' ∉ l.gap.toList ++ l.list.toList := fun hmem => (l.ne_sign_of_mem hmem).1 rfl
  rw [← argWords_of_plain hdash l.not_remarked]
  cases l.tail with
  | none => simp [ListTail.text]
  | dash reason hreason =>
      simpa [ListTail.text] using
        Directive.argWords_trimEnd_dash l.not_openDash l.not_remarked hreason
  | slashes remark =>
      simpa [ListTail.text] using
        Directive.argWords_trimEnd_slashes l.not_openDash l.not_remarked remark.toList

/-- Behind the name comes a space or a tab, if anything does. -/
theorem endsName_of_mem_head? {c : Char}
    (h : c ∈ (l.gap.toList ++ l.list.toList ++ l.tail.text.toList).head?) :
    Directive.endsName c = true := by
  cases hgap : l.gap.toList with
  | cons b gap =>
      obtain rfl : b = c := by simpa [hgap] using h
      exact Directive.endsName_iff.mpr (l.gap_spaces b (by simp [hgap]))
  | nil =>
      have hempty : l.entries = [] := by
        by_contra hne
        exact l.gap_ne_empty hne (String.toList_eq_nil_iff.mp hgap)
      have hlist : l.list.toList = [] := by simp [toList_list, hempty]
      rw [hgap, hlist] at h
      cases htail : l.tail with
      | none => simp [htail, ListTail.text] at h
      | dash reason _ =>
          obtain rfl : ' ' = c := by simpa [htail, ListTail.text] using h
          decide
      | slashes remark =>
          obtain rfl : ' ' = c := by simpa [htail, ListTail.text] using h
          decide

theorem directive_text : Directive.ofComment? l.text = some {
    name := directiveName
    args := (words (l.gap.toList ++ l.list.toList)).map String.ofList } := by
  have htext : l.text.toList = '/' :: '/' :: (l.lead.toList ++ (directiveName.toList ++
      (l.gap.toList ++ l.list.toList ++ l.tail.text.toList))) := by
    simp [text]
  have hdomain : Directive.domain <+: directiveName.toList :=
    List.isPrefixOf_iff_prefix.mp (by decide)
  have hname : directiveName.toList.all (! Directive.endsName ·) = true := by decide
  have hinside : ∀ c ∈ directiveName.toList, Directive.endsName c = false := fun c hc => by
    simpa using List.all_eq_true.mp hname c hc
  have hlast : directiveName.toList = "threadctl:ignor".toList ++ ['e'] := by decide
  have hkeep : ∀ more, trimEnd (directiveName.toList ++ more) =
      directiveName.toList ++ trimEnd more := by
    intro more
    rw [hlast, List.append_assoc, List.append_assoc]
    exact trimEnd_append_cons (by decide) _ more
  have hstart : ∀ more, trimStart (directiveName.toList ++ more) = directiveName.toList ++ more :=
    fun more => trimStart_cons (c := 't') (by decide) _
  unfold Directive.ofComment?
  rw [htext]
  show Directive.ofBody? (trimEnd (trimStart _)) = _
  rw [trimStart_append l.lead_blank, hstart,
    Directive.ofBody?_trimEnd hdomain hinside (fun c => l.endsName_of_mem_head?) (hkeep _),
    l.argWords_eq, String.ofList_toList]

/-- Joining the words and splitting them at the commas gives the names. -/
theorem checkersOf_words :
    checkersOf ((words (l.gap.toList ++ l.list.toList)).map String.ofList) = l.names := by
  have hjoin : ((words (l.gap.toList ++ l.list.toList)).map String.ofList).flatMap String.toList =
      [','].intercalate (l.entries.map (·.name.toList)) := by
    rw [← filter_list, ← flatten_words, List.flatMap_map]
    simp [List.flatMap_id']
  have hcomma : ∀ piece ∈ l.entries.map (·.name.toList), ∀ c ∈ piece, (c == ',') = false := by
    intro piece hpiece c hc
    obtain ⟨e, -, rfl⟩ := List.mem_map.mp hpiece
    simpa using (isNameChar_iff.mp (e.name_chars c hc)).2.1
  have htrim : (l.entries.map (·.name.toList)).map trim = l.entries.map (·.name.toList) := by
    rw [List.map_map]
    refine List.map_congr_left fun e _ => trim_eq_self fun c hc => ?_
    exact (isNameChar_iff.mp (e.name_chars c hc)).1
  have hempty : ∀ name : String, name.toList.isEmpty = decide (name = "") := by
    intro name
    rw [Bool.eq_iff_iff]
    simp
  unfold checkersOf
  rw [hjoin]
  by_cases hentries : l.entries = []
  · simp [names, hentries, splitWhen]
  · rw [splitWhen_intercalate (by decide) (by simpa using hentries) hcomma, htrim, names]
    simp [List.filter_map, Function.comp_def, hempty]

end Listing

/-! ### Reading what was written -/

/-- The entry that is a name and nothing else. -/
def ListEntry.bare (name : CheckerName) (h : IsName name) : ListEntry :=
  ⟨"", name, "", by simp, h.2, by simp⟩

theorem exists_listing_iff {names : List CheckerName} :
    (∃ l : Listing, l.names = names) ↔ ∀ name ∈ names, IsName name := by
  constructor
  · rintro ⟨l, rfl⟩ name hname
    obtain ⟨hmem, hne⟩ := List.mem_filter.mp hname
    obtain ⟨e, -, rfl⟩ := List.mem_map.mp hmem
    exact ⟨by simpa using hne, e.name_chars⟩
  · intro h
    refine ⟨⟨"", " ", names.attach.map fun n => .bare n.1 (h n.1 n.2), .none, by simp, by simp,
      by simp⟩, ?_⟩
    have hnames : (names.attach.map fun n => ListEntry.bare n.1 (h n.1 n.2)).map (·.name) =
        names := by
      rw [List.map_map]
      exact List.attach_map_subtype_val names
    rw [Listing.names, hnames]
    exact List.filter_eq_self.mpr fun name hname => by simpa using (h name hname).1

/-- **A list of checkers is read as it was written.**  Exactly the lists of names can be written,
and each comment that is such a list, behind any blanks and the name of the directive, with any
spaces and tabs around the names, any stray commas and any tail, is read as an ignore directive
for these checkers in this order. -/
theorem ofComment?_of_listing (names : List CheckerName) :
    ((∃ l : Listing, l.names = names) ↔ ∀ name ∈ names, IsName name) ∧
    ∀ l : Listing, l.names = names → ofComment? l.text = some names := by
  refine ⟨exists_listing_iff, ?_⟩
  rintro l rfl
  rw [ofComment?, l.directive_text]
  simp [l.checkersOf_words]

/-- Two names among stray commas, with spaces and tabs around, and both signs in the reason. -/
def noisyListing : Listing where
  lead := "\u2003\t"
  gap := "\t"
  entries := [⟨" ", "", "", by simp, by simp, by simp⟩,
    ⟨" ", "crossthread", "\t ", by simp, by simp [isNameChar, isBlank], by simp⟩,
    ⟨"", "", "", by simp, by simp, by simp⟩,
    ⟨"", "größe", "", by simp, by simp [isNameChar, isBlank], by simp⟩]
  tail := .dash "\t-, directive // x" ⟨'x', by simp, by decide⟩
  lead_blank := by simp [isBlank]
  gap_spaces := by simp
  gap_ne_empty := by simp

theorem noisyListing_read :
    noisyListing.text =
      "//\u2003\tthreadctl:ignore\t , crossthread\t ,,größe - \t-, directive // x" ∧
    noisyListing.names = ["crossthread", "größe"] ∧
    ofComment? noisyListing.text = some ["crossthread", "größe"] := by
  have hnames : noisyListing.names = ["crossthread", "größe"] := by decide
  exact ⟨by decide, hnames, (ofComment?_of_listing _).2 noisyListing hnames⟩

end ThreadAffinity.Ignore
