/-
Asking the ignore directives.

An answer takes note of the directive that gave it, so the tables change from question to
question.  The note is all that changes: which directives there are, on which lines and
for which checkers stays as it was.  Hence every answer is the one that the directives of
the files give, however many questions came before, and sifting is filtering.
-/
import ThreadAffinity.Analysis

namespace ThreadAffinity

theorem Ignore.covers_iff {i : Ignore} {c : CheckerName} :
    i.covers c = true ↔ i.checkers = [] ∨ c ∈ i.checkers := by
  simp [covers]

namespace IgnoreTable

theorem lookup_use (table : IgnoreTable) (line other : Int) (c : CheckerName) :
    (table.use line c).lookup other =
      (table.lookup other).map fun i => if other = line then i.use c else i := by
  induction table with
  | nil => rfl
  | cons entry rest ih =>
      obtain ⟨l, i⟩ := entry
      unfold use at ih ⊢
      by_cases hl : l = line
      · subst hl
        by_cases ho : other = l
        · simp [ho]
        · simp [List.lookup_cons, beq_false_of_ne ho, ih]
      · by_cases ho : other = l
        · simp [ho, hl]
        · simp [List.lookup_cons, beq_false_of_ne ho, hl, ih]

theorem coversAt_use (table : IgnoreTable) (line other : Int) (c d : CheckerName) :
    (table.use line c).coversAt other d = table.coversAt other d := by
  unfold coversAt
  rw [lookup_use]
  cases table.lookup other with
  | none => rfl
  | some i =>
      by_cases ho : other = line
      · simp [ho, Ignore.use, Ignore.covers]
      · simp [ho]

theorem answering?_shouldIgnore (table : IgnoreTable) (line other : Int) (c d : CheckerName) :
    (table.shouldIgnore line c).2.answering? other d = table.answering? other d := by
  unfold shouldIgnore
  split
  · unfold answering?
    rw [coversAt_use, coversAt_use]
  · rfl

theorem coversAt_iff {table : IgnoreTable} {line : Int} {c : CheckerName} :
    table.coversAt line c = true ↔
      ∃ i, table.lookup line = some i ∧ (i.checkers = [] ∨ c ∈ i.checkers) := by
  unfold coversAt
  rw [Option.any_eq_true]
  simp only [Ignore.covers_iff]

theorem isSome_answering? {table : IgnoreTable} {line : Int} {c : CheckerName} :
    (table.answering? line c).isSome = true ↔
      table.coversAt line c = true ∨ table.coversAt (line - 1) c = true := by
  unfold answering?
  by_cases h : table.coversAt line c = true
  · simp [h]
  · by_cases h' : table.coversAt (line - 1) c = true
    · simp [h, h']
    · simp [h, h']

end IgnoreTable

namespace IgnoreTables

theorem shouldIgnore_fst (tables : IgnoreTables) (file : String) (line : Int) (c : CheckerName) :
    (tables.shouldIgnore file line c).1 =
      (tables.lookup file).any fun t => (t.answering? line c).isSome := by
  unfold shouldIgnore
  cases tables.lookup file with
  | none => rfl
  | some table =>
      show (table.shouldIgnore line c).1 = (table.answering? line c).isSome
      unfold IgnoreTable.shouldIgnore
      cases table.answering? line c with
      | none => rfl
      | some l => rfl

/-- One question changes no answer. -/
theorem shouldIgnore_after (tables : IgnoreTables) (file other : String) (line l : Int)
    (c d : CheckerName) :
    ((tables.shouldIgnore file line c).2.shouldIgnore other l d).1 =
      (tables.shouldIgnore other l d).1 := by
  rw [shouldIgnore_fst, shouldIgnore_fst]
  cases hfile : tables.lookup file with
  | none =>
      have : (tables.shouldIgnore file line c).2 = tables := by
        unfold shouldIgnore
        rw [hfile]
      rw [this]
  | some table =>
      have : (tables.shouldIgnore file line c).2 =
          Table.set file (table.shouldIgnore line c).2 tables := by
        unfold shouldIgnore
        rw [hfile]
      rw [this, Table.lookup_set]
      by_cases ho : other = file
      · rw [if_pos ho, ho, hfile]
        show (((table.shouldIgnore line c).2).answering? l d).isSome = _
        rw [IgnoreTable.answering?_shouldIgnore]
        rfl
      · rw [if_neg ho]

/-- **What stays is what the directives, as they were at first, do not silence.** -/
theorem sift_fst (checker : CheckerName) (ps : List Pending) :
    ∀ tables : IgnoreTables,
      (tables.sift checker ps).1 =
        (ps.filter fun p => ! (tables.shouldIgnore p.file p.line checker).1).map
          (·.diagnostic) := by
  induction ps with
  | nil => intro tables; rfl
  | cons p ps ih =>
      intro tables
      have hrest : (((tables.shouldIgnore p.file p.line checker).2).sift checker ps).1 =
          (ps.filter fun q => ! (tables.shouldIgnore q.file q.line checker).1).map
            (·.diagnostic) := by
        rw [ih]
        simp only [shouldIgnore_after]
      unfold sift
      simp only [hrest]
      cases hp : (tables.shouldIgnore p.file p.line checker).1 with
      | true => simp [hp]
      | false => simp [hp]

theorem shouldIgnore_sift (checker : CheckerName) (ps : List Pending) (file : String) (line : Int)
    (c : CheckerName) :
    ∀ tables : IgnoreTables, (((tables.sift checker ps).2).shouldIgnore file line c).1 =
      (tables.shouldIgnore file line c).1 := by
  induction ps with
  | nil => intro tables; rfl
  | cons p ps ih => intro tables; exact (ih _).trans (shouldIgnore_after tables _ _ _ _ _ _)

theorem shouldIgnore_iff {tables : IgnoreTables} {file : String} {line : Int}
    {c : CheckerName} :
    (tables.shouldIgnore file line c).1 = true ↔
      ∃ table i, tables.lookup file = some table ∧
        (table.lookup line = some i ∨ table.lookup (line - 1) = some i) ∧
        (i.checkers = [] ∨ c ∈ i.checkers) := by
  rw [shouldIgnore_fst, Option.any_eq_true]
  constructor
  · intro h
    obtain ⟨table, htable, h⟩ := h
    rw [IgnoreTable.isSome_answering?, IgnoreTable.coversAt_iff, IgnoreTable.coversAt_iff] at h
    rcases h with ⟨i, hi, hcovers⟩ | ⟨i, hi, hcovers⟩
    · exact ⟨table, i, htable, Or.inl hi, hcovers⟩
    · exact ⟨table, i, htable, Or.inr hi, hcovers⟩
  · intro h
    obtain ⟨table, i, htable, hline, hcovers⟩ := h
    refine ⟨table, htable, ?_⟩
    rw [IgnoreTable.isSome_answering?, IgnoreTable.coversAt_iff, IgnoreTable.coversAt_iff]
    exact hline.imp (fun hi => ⟨i, hi, hcovers⟩) (fun hi => ⟨i, hi, hcovers⟩)

end IgnoreTables

end ThreadAffinity
