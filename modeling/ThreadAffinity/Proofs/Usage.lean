/-
Which ignore directives were of use.

Every question that is put to the directives of a file is credited to at most one of them:
the one on the line itself if it silences the checker, else the one on the line before.
Which one that is depends on the directives alone and not on the questions before, so after
any number of questions a directive has been credited with exactly those that it answers.
What is reported as unused is read off these credits.
-/
import Mathlib.Data.List.Forall2
import ThreadAffinity.Proofs.Suppression
import ThreadAffinity.Proofs.Table

namespace ThreadAffinity

/-! ### The order of places -/

/-- A place comes before another one in the source. -/
def Pos.Precedes (a b : Pos) : Prop :=
  a.file < b.file ∨ a.file = b.file ∧ (a.line < b.line ∨ a.line = b.line ∧ a.column < b.column)

namespace Pos

theorem Precedes.irrefl {a : Pos} (h : a.Precedes a) : False := by
  unfold Precedes at h
  omega

theorem le_iff {a b : Pos} : a.le b = true ↔ a.Precedes b ∨ a = b := by
  obtain ⟨f, l, c⟩ := a
  obtain ⟨f', l', c'⟩ := b
  simp only [le, Precedes, Bool.or_eq_true, Bool.and_eq_true, decide_eq_true_eq, beq_iff_eq,
    Pos.mk.injEq]
  omega

theorem le_total (a b : Pos) : (a.le b || b.le a) = true := by
  simp only [le, Bool.or_eq_true, Bool.and_eq_true, decide_eq_true_eq, beq_iff_eq]
  omega

theorem le_trans {a b c : Pos} (hab : a.le b = true) (hbc : b.le c = true) : a.le c = true := by
  simp only [le, Bool.or_eq_true, Bool.and_eq_true, decide_eq_true_eq, beq_iff_eq] at *
  omega

end Pos

namespace UnusedIgnore

theorem sort_sorted (us : List UnusedIgnore) :
    (sort us).Pairwise fun a b => a.pos.le b.pos = true := by
  refine List.pairwise_mergeSort ?_ ?_ us
  · intro a b c
    exact Pos.le_trans
  · intro a b
    exact Pos.le_total a.pos b.pos

/-- Directives at different places come strictly one after the other. -/
theorem sort_strictly {us : List UnusedIgnore} (h : (us.map (·.pos)).Nodup) :
    (sort us).Pairwise fun a b => a.pos.Precedes b.pos := by
  have hnd : ((sort us).map (·.pos)).Nodup := ((List.mergeSort_perm us _).map _).nodup_iff.mpr h
  have hne : (sort us).Pairwise fun a b => a.pos ≠ b.pos := List.pairwise_map.mp hnd
  refine ((sort_sorted us).and hne).imp fun {a b} hab => ?_
  exact (Pos.le_iff.mp hab.1).resolve_right hab.2

end UnusedIgnore

/-! ### Questions and the directives that answer them -/

/-- A question to the ignore directives of a file: is a checker to be silent on a line? -/
structure Query where
  line : Int
  checker : CheckerName
deriving DecidableEq, Repr

/-- The ignore directives of a file, each with the line that it is shown on. -/
def SourceFile.ignores (file : SourceFile) : List (Int × Ignore) :=
  file.comments.flatten.filterMap fun c =>
    (Ignore.ofComment? c.text).map fun checkers =>
      ((file.shown c.pos).line, { pos := c.pos, checkers })

/-- The directive silences a checker: it names it, or it names none. -/
def Ignore.Silences (i : Ignore) (c : CheckerName) : Prop :=
  i.checkers = [] ∨ c ∈ i.checkers

instance (i : Ignore) (c : CheckerName) : Decidable (i.Silences c) :=
  inferInstanceAs (Decidable (_ ∨ _))

/--
A directive of a list answers a question: it silences the checker and is on the line, or on
the line before if no directive on the line silences the checker.
-/
def Answers (ds : List (Int × Ignore)) (e : Int × Ignore) (q : Query) : Prop :=
  e ∈ ds ∧ e.2.Silences q.checker ∧
    (e.1 = q.line ∨
      e.1 = q.line - 1 ∧ ∀ o ∈ ds, o.1 = q.line → ¬ o.2.Silences q.checker)

instance (ds : List (Int × Ignore)) (e : Int × Ignore) (q : Query) : Decidable (Answers ds e q) :=
  inferInstanceAs (Decidable (_ ∧ _ ∧ (_ ∨ _ ∧ _)))

namespace IgnoreTable

/-- Puts questions one after the other; gives the answers, and the account afterwards. -/
def askAll : IgnoreTable → List Query → List Bool × IgnoreTable
  | table, [] => ([], table)
  | table, q :: qs =>
    let (answer, table) := table.shouldIgnore q.line q.checker
    let (answers, table) := askAll table qs
    (answer :: answers, table)

theorem build_eq_ofEntries (file : SourceFile) : build file = Table.ofEntries file.ignores := by
  rw [build, Table.ofEntries, SourceFile.ignores, List.foldl_filterMap]
  congr 1
  funext table c
  unfold addComment
  cases Ignore.ofComment? c.text with
  | none => rfl
  | some checkers => rfl

theorem nodup_lines_build (file : SourceFile) : ((build file).map (·.1)).Nodup := by
  rw [build_eq_ofEntries]
  exact Table.nodup_keys_ofEntries _

variable {table : IgnoreTable}

theorem coversAt_iff_exists (h : (table.map (·.1)).Nodup) {line : Int} {c : CheckerName} :
    table.coversAt line c = true ↔ ∃ e ∈ table, e.1 = line ∧ e.2.Silences c := by
  rw [coversAt_iff]
  constructor
  · intro hi
    obtain ⟨i, hi, hcovers⟩ := hi
    exact ⟨(line, i), (Table.mem_iff_lookup h).mpr hi, rfl, hcovers⟩
  · intro he
    obtain ⟨⟨l, i⟩, he, rfl, hsilences⟩ := he
    exact ⟨i, (Table.mem_iff_lookup h).mp he, hsilences⟩

/-- The line that is credited is that of the directive that answers. -/
theorem answering?_eq_some_iff (h : (table.map (·.1)).Nodup) {l : Int} {q : Query} :
    table.answering? q.line q.checker = some l ↔ ∃ i, Answers table (l, i) q := by
  have hown : table.coversAt q.line q.checker = true ↔ _ := coversAt_iff_exists h
  have hprev : table.coversAt (q.line - 1) q.checker = true ↔ _ := coversAt_iff_exists h
  unfold answering? Answers
  by_cases hl : table.coversAt q.line q.checker = true
  · obtain ⟨⟨l', i⟩, he, rfl, hsilences⟩ := hown.mp hl
    rw [if_pos hl]
    constructor
    · intro hsome
      rw [← Option.some.inj hsome]
      exact ⟨i, he, hsilences, Or.inl rfl⟩
    · intro hex
      obtain ⟨j, hj, hj', hline⟩ := hex
      rcases hline with hline | ⟨-, hnone⟩
      · exact congrArg some hline.symm
      · exact absurd hsilences (hnone _ he rfl)
  · rw [if_neg hl]
    have hnone : ∀ o ∈ table, o.1 = q.line → ¬ o.2.Silences q.checker := fun o ho hline hs =>
      hl (hown.mpr ⟨o, ho, hline, hs⟩)
    constructor
    · intro hsome
      split at hsome
      · rename_i hl'
        obtain ⟨⟨l', i⟩, he, hline, hsilences⟩ := hprev.mp hl'
        have hl' : l' = l := hline.trans (Option.some.inj hsome)
        subst hl'
        exact ⟨i, he, hsilences, Or.inr ⟨hline, hnone⟩⟩
      · cases hsome
    · intro hex
      obtain ⟨j, hj, hj', hline⟩ := hex
      rcases hline with hline | ⟨hline, -⟩
      · exact absurd hj' (hnone _ hj hline)
      · have hline : l = q.line - 1 := hline
        rw [if_pos (hprev.mpr ⟨_, hj, hline, hj'⟩), hline]

theorem isSome_answering?_iff (h : (table.map (·.1)).Nodup) {q : Query} :
    (table.answering? q.line q.checker).isSome = true ↔ ∃ e, Answers table e q := by
  rw [Option.isSome_iff_exists]
  constructor
  · intro hl
    obtain ⟨l, hl⟩ := hl
    obtain ⟨i, hi⟩ := (answering?_eq_some_iff h).mp hl
    exact ⟨(l, i), hi⟩
  · intro he
    obtain ⟨⟨l, i⟩, he⟩ := he
    exact ⟨l, (answering?_eq_some_iff h).mpr ⟨i, he⟩⟩

/-- For a directive of the table the line says enough. -/
theorem answers_iff (h : (table.map (·.1)).Nodup) {e : Int × Ignore} (he : e ∈ table) {q : Query} :
    Answers table e q ↔ table.answering? q.line q.checker = some e.1 := by
  rw [answering?_eq_some_iff h]
  constructor
  · intro ha
    exact ⟨e.2, ha⟩
  · intro ha
    obtain ⟨i, ha⟩ := ha
    have hi : (e.1, i) = e := List.inj_on_of_nodup_map h ha.1 he rfl
    exact hi ▸ ha

/-! ### What a run of questions leaves behind -/

/-- The checkers of the questions that are credited to a line, the last one first. -/
def credits (table : IgnoreTable) (queries : List Query) (line : Int) : List CheckerName :=
  ((queries.filter fun q => table.answering? q.line q.checker = some line).map (·.checker)).reverse

theorem credits_shouldIgnore (table : IgnoreTable) (line l : Int) (c : CheckerName)
    (queries : List Query) :
    (table.shouldIgnore line c).2.credits queries l = table.credits queries l := by
  unfold credits
  simp only [answering?_shouldIgnore]

theorem mem_credits {queries : List Query} {line : Int} {c : CheckerName} :
    c ∈ table.credits queries line ↔
      ∃ q ∈ queries, table.answering? q.line q.checker = some line ∧ q.checker = c := by
  simp [credits, and_assoc]

/-- One question adds itself to the account of the directive that answers it. -/
theorem shouldIgnore_snd (table : IgnoreTable) (q : Query) :
    (table.shouldIgnore q.line q.checker).2 =
      table.map fun e => (e.1, { e.2 with used := table.credits [q] e.1 ++ e.2.used }) := by
  unfold shouldIgnore credits
  cases hq : table.answering? q.line q.checker with
  | none => simp [hq]
  | some l =>
      show table.use l q.checker = _
      unfold use
      refine List.map_congr_left fun e _ => ?_
      obtain ⟨k, i⟩ := e
      by_cases hk : k = l
      · simp [hk, hq, Ignore.use]
      · simp [hk, hq, Ne.symm hk]

theorem credits_cons (table : IgnoreTable) (q : Query) (queries : List Query) (line : Int) :
    table.credits (q :: queries) line = table.credits queries line ++ table.credits [q] line := by
  unfold credits
  rw [← List.reverse_append, ← List.map_append, ← List.filter_append]
  rfl

/-- **After any questions each directive has been credited with those that it answers**, on
top of what it was credited with before. -/
theorem askAll_snd (queries : List Query) :
    ∀ table : IgnoreTable, (table.askAll queries).2 =
      table.map fun e => (e.1, { e.2 with used := table.credits queries e.1 ++ e.2.used }) := by
  induction queries with
  | nil =>
      intro table
      exact (List.map_id table).symm
  | cons q queries ih =>
      intro table
      show ((table.shouldIgnore q.line q.checker).2.askAll queries).2 = _
      rw [ih]
      simp only [credits_shouldIgnore]
      rw [shouldIgnore_snd, List.map_map]
      refine List.map_congr_left fun e _ => ?_
      rw [credits_cons table q, List.append_assoc]
      rfl

/-- Every answer is the one that the directives give, however many questions came before. -/
theorem askAll_fst (queries : List Query) :
    ∀ table : IgnoreTable, (table.askAll queries).1 =
      queries.map fun q => (table.answering? q.line q.checker).isSome := by
  induction queries with
  | nil => intro table; rfl
  | cons q queries ih =>
      intro table
      show (table.shouldIgnore q.line q.checker).1 ::
        ((table.shouldIgnore q.line q.checker).2.askAll queries).1 = _
      rw [ih, List.map_cons]
      simp only [answering?_shouldIgnore]
      congr 1
      unfold shouldIgnore
      cases table.answering? q.line q.checker with
      | none => rfl
      | some l => rfl

end IgnoreTable

/-! ### What is reported as unused -/

/--
The names that are listed of a directive that was of no use, for the questions that were
put and the checkers that are enabled.  A directive without names must have answered no
question for a checker that is listed; of one with names those count that are not enabled
or for which it answered no question.
-/
def Idle (ds : List (Int × Ignore)) (queries : List Query) (enabled : EnabledCheckers)
    (e : Int × Ignore) (names : List CheckerName) : Prop :=
  if e.2.checkers = [] then
    names = [] ∧ ∀ q ∈ queries, Answers ds e q → q.checker ∉ enabled.map (·.1)
  else
    names ≠ [] ∧ names = e.2.checkers.filter fun c =>
      enabled.lookup c ≠ some true ∨ ∀ q ∈ queries, Answers ds e q → q.checker ≠ c

instance (ds : List (Int × Ignore)) (queries : List Query) (enabled : EnabledCheckers)
    (e : Int × Ignore) (names : List CheckerName) : Decidable (Idle ds queries enabled e names) :=
  inferInstanceAs (Decidable (ite _ _ _))

theorem EnabledCheckers.lists_iff {enabled : EnabledCheckers} {c : CheckerName} :
    enabled.lists c = true ↔ c ∈ enabled.map (·.1) := by
  simp [lists]

theorem Ignore.pos_of_unused? {i : Ignore} {enabled : EnabledCheckers} {u : UnusedIgnore}
    (h : i.unused? enabled = some u) : u.pos = i.pos := by
  unfold unused? at h
  split at h
  · split at h
    · cases h
    · rw [← Option.some.inj h]
  · split at h
    · cases h
    · rw [← Option.some.inj h]

namespace IgnoreTable

variable {table : IgnoreTable} {queries : List Query} {enabled : EnabledCheckers}
  {e : Int × Ignore}

theorem unused?_credited_iff (h : (table.map (·.1)).Nodup) (he : e ∈ table)
    (hfresh : e.2.used = []) {u : UnusedIgnore} :
    Ignore.unused? enabled { e.2 with used := table.credits queries e.1 ++ e.2.used } = some u ↔
      u.pos = e.2.pos ∧ Idle table queries enabled e u.checkers := by
  obtain ⟨pos, names⟩ := u
  have hcredit : ∀ c, c ∈ table.credits queries e.1 ↔
      ∃ q ∈ queries, Answers table e q ∧ q.checker = c := by
    intro c
    rw [mem_credits]
    simp only [answers_iff h he]
  rw [hfresh, List.append_nil]
  unfold Ignore.unused? Idle
  by_cases hnames : e.2.checkers = []
  · have hused : (table.credits queries e.1).any enabled.lists = true ↔
        ¬ ∀ q ∈ queries, Answers table e q → q.checker ∉ enabled.map (·.1) := by
      rw [List.any_eq_true]
      push Not
      constructor
      · intro hc
        obtain ⟨c, hc, hlists⟩ := hc
        obtain ⟨q, hq, ha, rfl⟩ := (hcredit c).mp hc
        exact ⟨q, hq, ha, EnabledCheckers.lists_iff.mp hlists⟩
      · intro hq
        obtain ⟨q, hq, ha, hmem⟩ := hq
        exact ⟨q.checker, (hcredit _).mpr ⟨q, hq, ha, rfl⟩, EnabledCheckers.lists_iff.mpr hmem⟩
    simp only [hnames, List.isEmpty_nil, if_true]
    split
    · rename_i hany
      exact iff_of_false (by simp) fun hc => hused.mp hany hc.2.2
    · rename_i hany
      have hall := not_not.mp (mt hused.mpr hany)
      rw [Option.some.injEq, UnusedIgnore.mk.injEq]
      exact ⟨fun hc => ⟨hc.1.symm, hc.2.symm, hall⟩, fun hc => ⟨hc.1.symm, hc.2.1.symm⟩⟩
  · have hfilter : (e.2.checkers.filter fun c =>
          ! (enabled.enables c && (table.credits queries e.1).contains c)) =
        e.2.checkers.filter fun c =>
          enabled.lookup c ≠ some true ∨ ∀ q ∈ queries, Answers table e q → q.checker ≠ c := by
      refine List.filter_congr fun c _ => ?_
      rw [Bool.eq_iff_iff, decide_eq_true_eq, Bool.not_eq_true', ← Bool.not_eq_true,
        Bool.and_eq_true, EnabledCheckers.enables, beq_iff_eq, List.contains_iff_mem, hcredit,
        not_and_or]
      push Not
      rfl
    simp only [List.isEmpty_iff, hnames, if_false, hfilter]
    split
    · rename_i hnil
      rw [hnil]
      exact iff_of_false (by simp) fun hc => hc.2.1 hc.2.2
    · rename_i names' hnil
      rw [Option.some.injEq, UnusedIgnore.mk.injEq]
      constructor
      · intro hc
        obtain ⟨rfl, rfl⟩ := hc
        exact ⟨rfl, hnil, rfl⟩
      · intro hc
        exact ⟨hc.1.symm, hc.2.2.symm⟩

theorem mem_unused_askAll (h : (table.map (·.1)).Nodup) (hfresh : ∀ e ∈ table, e.2.used = [])
    {u : UnusedIgnore} :
    u ∈ (table.askAll queries).2.unused enabled ↔
      ∃ e ∈ table, u.pos = e.2.pos ∧ Idle table queries enabled e u.checkers := by
  rw [unused, UnusedIgnore.sort, (List.mergeSort_perm _ _).mem_iff, askAll_snd, List.filterMap_map,
    List.mem_filterMap]
  constructor
  · intro hu
    obtain ⟨e, he, hu⟩ := hu
    exact ⟨e, he, (unused?_credited_iff h he (hfresh e he)).mp hu⟩
  · intro hu
    obtain ⟨e, he, hu⟩ := hu
    exact ⟨e, he, (unused?_credited_iff h he (hfresh e he)).mpr hu⟩

theorem unused_askAll_strictly (h : (table.map (·.2.pos)).Nodup) :
    ((table.askAll queries).2.unused enabled).Pairwise fun u v => u.pos.Precedes v.pos := by
  have hpos : ((table.askAll queries).2.map (·.2.pos)).Nodup := by
    rw [askAll_snd, List.map_map]
    exact h
  refine UnusedIgnore.sort_strictly ?_
  rw [List.Nodup, List.pairwise_map, List.pairwise_filterMap]
  rw [List.Nodup, List.pairwise_map] at hpos
  refine hpos.imp fun {d e} hne u hu v hv => ?_
  rw [Ignore.pos_of_unused? hu, Ignore.pos_of_unused? hv]
  exact hne

end IgnoreTable

namespace SourceFile

variable {file : SourceFile}

theorem mem_ignores {e : Int × Ignore} : e ∈ file.ignores ↔
    ∃ c ∈ file.comments.flatten, ∃ checkers, Ignore.ofComment? c.text = some checkers ∧
      e = ((file.shown c.pos).line, { pos := c.pos, checkers }) := by
  rw [ignores, List.mem_filterMap]
  simp only [Option.map_eq_some_iff, @eq_comm _ e]

theorem used_of_mem_ignores {e : Int × Ignore} (he : e ∈ file.ignores) : e.2.used = [] := by
  obtain ⟨c, -, checkers, -, rfl⟩ := mem_ignores.mp he
  rfl

/-- Directives on different lines are at different places. -/
theorem nodup_pos_of_lines {ds : List (Int × Ignore)}
    (hline : ∀ e ∈ ds, e.1 = (file.shown e.2.pos).line) (h : (ds.map (·.1)).Nodup) :
    (ds.map (·.2.pos)).Nodup := by
  have hlines : ds.map (·.1) = (ds.map (·.2.pos)).map fun p => (file.shown p).line := by
    rw [List.map_map]
    exact List.map_congr_left hline
  rw [hlines] at h
  exact h.of_map

theorem line_of_mem_ignores {e : Int × Ignore} (he : e ∈ file.ignores) :
    e.1 = (file.shown e.2.pos).line := by
  obtain ⟨c, -, checkers, -, rfl⟩ := mem_ignores.mp he
  rfl

end SourceFile

/--
**The account of a file's directives is that of the questions they answer.**  If no two
directives are shown on one line, then of any questions exactly those are answered with yes
that a directive answers; and what is then reported as unused, in the order of the source,
are the directives that were idle, with the names for which they were.
-/
theorem unused_after_queries (file : SourceFile) (hlines : (file.ignores.map (·.1)).Nodup)
    (queries : List Query) (enabled : EnabledCheckers) :
    List.Forall₂ (fun q answer => answer = true ↔ ∃ e, Answers file.ignores e q) queries
      ((IgnoreTable.build file).askAll queries).1 ∧
    (((IgnoreTable.build file).askAll queries).2.unused enabled).Pairwise
      (fun u v => u.pos.Precedes v.pos) ∧
    ∀ u, u ∈ ((IgnoreTable.build file).askAll queries).2.unused enabled ↔
      ∃ e ∈ file.ignores, u.pos = e.2.pos ∧
        Idle file.ignores queries enabled e u.checkers := by
  have hbuild : IgnoreTable.build file = file.ignores := by
    rw [IgnoreTable.build_eq_ofEntries, Table.ofEntries_eq_self hlines]
  rw [hbuild]
  refine ⟨?_, ?_, fun u => ?_⟩
  · rw [IgnoreTable.askAll_fst, List.forall₂_map_right_iff]
    exact List.forall₂_same.mpr fun q _ => IgnoreTable.isSome_answering?_iff hlines
  · exact IgnoreTable.unused_askAll_strictly
      (SourceFile.nodup_pos_of_lines (fun e he => SourceFile.line_of_mem_ignores he) hlines)
  · exact IgnoreTable.mem_unused_askAll hlines fun e he => SourceFile.used_of_mem_ignores he

/-- A file with two directives on neighbouring lines. -/
def relay : SourceFile where
  name := "relay.go"
  package := { line := 1, column := 1 }
  comments := [
    [{ pos := { line := 3, column := 1 }, text := "//threadctl:ignore crossthread, directive" },
      { pos := { line := 4, column := 1 }, text := "//threadctl:ignore" }]]

/-- The question about line 4 goes to the directive on that line, so the one before it stays
without use for the second of its names. -/
theorem relay_unused :
    (relay.ignores.map (·.1)).Nodup ∧
      { pos := { line := 3, column := 1 }, checkers := [CheckerName.directive] } ∈
        ((IgnoreTable.build relay).askAll
          [⟨3, CheckerName.crossthread⟩, ⟨4, CheckerName.directive⟩]).2.unused
            [(CheckerName.crossthread, true), (CheckerName.directive, true)] := by
  refine ⟨by decide, ((unused_after_queries relay (by decide) _ _).2.2 _).mpr ?_⟩
  exact ⟨(3, ⟨{ line := 3, column := 1 }, [CheckerName.crossthread, CheckerName.directive], []⟩),
    by decide, rfl, by decide⟩

end ThreadAffinity
