/-
What becomes of the ignore directives of a package.

The directives of a file are kept by line, and the tables of the files by name.  Lines and
names are those that are shown, so a line directive can give two directives one line, or two
files one name; then the later one takes the place of the earlier one.  A directive that has
lost its place answers no question and is not reported either.  One that has kept it and
answers no question is reported once for every file that goes under the name of its own.
-/
import Mathlib.Algebra.BigOperators.Group.List.Basic
import Mathlib.Data.List.Pairwise
import ThreadAffinity.Proofs.CrossThread
import ThreadAffinity.Proofs.Usage
import ThreadAffinity.Proofs.Wording

namespace ThreadAffinity

/-! ### The questions of a run -/

namespace IgnoreTable

theorem askAll_append (table : IgnoreTable) (queries more : List Query) :
    (table.askAll (queries ++ more)).2 = ((table.askAll queries).2.askAll more).2 := by
  induction queries generalizing table with
  | nil => rfl
  | cons q queries ih => exact ih _

end IgnoreTable

namespace IgnoreTables

/-- The questions that diagnostics put to the directives of a file. -/
def questions (checker : CheckerName) (ps : List Pending) (file : String) : List Query :=
  (ps.filter (·.file = file)).map fun p => { line := p.line, checker }

theorem lookup_shouldIgnore (tables : IgnoreTables) (file other : String) (line : Int)
    (c : CheckerName) :
    (tables.shouldIgnore file line c).2.lookup other =
      (tables.lookup other).map fun t => if file = other then (t.shouldIgnore line c).2 else t := by
  unfold shouldIgnore
  cases hfile : tables.lookup file with
  | none =>
      by_cases h : file = other
      · rw [← h]
        simp [hfile]
      · simp [h]
  | some table =>
      show (Table.set file (table.shouldIgnore line c).2 tables).lookup other = _
      rw [Table.lookup_set]
      by_cases h : other = file
      · simp [h, hfile]
      · simp [h, Ne.symm h]

/-- Every table is asked the questions about its own file, and no others. -/
theorem lookup_sift (checker : CheckerName) (ps : List Pending) (file : String) :
    ∀ tables : IgnoreTables, (tables.sift checker ps).2.lookup file =
      (tables.lookup file).map fun t => (t.askAll (questions checker ps file)).2 := by
  induction ps with
  | nil =>
      intro tables
      exact Option.map_id'.symm
  | cons p ps ih =>
      intro tables
      show ((tables.shouldIgnore p.file p.line checker).2.sift checker ps).2.lookup file = _
      rw [ih, lookup_shouldIgnore, Option.map_map]
      refine Option.map_congr fun t _ => ?_
      by_cases h : p.file = file
      · simp [questions, h, IgnoreTable.askAll]
      · simp [questions, h]

end IgnoreTables

namespace Package

variable (p : Package)

/-- All questions of a run to the directives of a file. -/
def questions (external : List External) (lint : Bool) (file : String) : List Query :=
  IgnoreTables.questions CheckerName.crossthread (p.crossings external) file ++
    if lint then IgnoreTables.questions CheckerName.directive p.lintReports file else []

/-- The tables at the end of a run. -/
def tablesAfter (external : List External) (lint : Bool) : IgnoreTables :=
  let tables := (p.ignoreTables.sift CheckerName.crossthread (p.crossings external)).2
  if lint then (tables.sift CheckerName.directive p.lintReports).2 else tables

theorem lookup_tablesAfter (external : List External) (lint : Bool) (file : String) :
    (p.tablesAfter external lint).lookup file =
      (p.ignoreTables.lookup file).map fun t =>
        (t.askAll (p.questions external lint file)).2 := by
  unfold tablesAfter questions
  cases lint with
  | false => simp [IgnoreTables.lookup_sift]
  | true =>
      simp only [if_true, IgnoreTables.lookup_sift, Option.map_map]
      refine Option.map_congr fun t _ => ?_
      exact (t.askAll_append _ _).symm

/-- The checkers that ask are those that are enabled. -/
theorem checker_of_mem_questions {external : List External} {lint : Bool} {file : String}
    {q : Query} (h : q ∈ p.questions external lint file) :
    q.checker ∈ (enabledCheckers lint).map (·.1) := by
  unfold questions at h
  rcases List.mem_append.mp h with h | h
  · obtain ⟨o, -, rfl⟩ := List.mem_map.mp h
    simp [enabledCheckers]
  · cases lint with
    | false => simp at h
    | true =>
        obtain ⟨o, -, rfl⟩ := List.mem_map.mp h
        simp [enabledCheckers]

/-! ### Which directives keep their place -/

/-- No two comments of the package stand at the same place. -/
def CommentsApart : Prop :=
  ((p.files.flatMap (·.comments.flatten)).map (·.pos)).Nodup

/-- An ignore directive of a file keeps its place: nothing comes later that takes it. -/
structure Keeps (f : SourceFile) (c : Comment) : Prop where
  /-- No file that is generated goes under the name of the file. -/
  checked : ∀ o ∈ p.files, o.isGenerated = true → o.shownName ≠ f.shownName
  /-- No later file goes under its name. -/
  lastFile : ∃ before after, p.files = before ++ f :: after ∧
    ∀ o ∈ after, o.shownName ≠ f.shownName
  /-- No later ignore directive of the file is shown on the line of the directive. -/
  lastOnLine : ∃ before after, f.comments.flatten = before ++ c :: after ∧
    ∀ o ∈ after, Ignore.ofComment? o.text ≠ none →
      (f.shown o.pos).line ≠ (f.shown c.pos).line

theorem ignoreTables_eq_ofEntries :
    p.ignoreTables =
      Table.ofEntries (p.checkedFiles.map fun f => (f.shownName, IgnoreTable.build f)) := by
  rw [ignoreTables, IgnoreTables.build, Table.ofEntries, List.foldl_map]

variable {p}

/-- Under a name there is the table of the last file that goes under it. -/
theorem lookup_ignoreTables {name : String} {table : IgnoreTable} :
    p.ignoreTables.lookup name = some table ↔
      ∃ f, f.shownName = name ∧ IgnoreTable.build f = table ∧
        (∀ o ∈ p.files, o.isGenerated = true → o.shownName ≠ name) ∧
        ∃ before after, p.files = before ++ f :: after ∧ ∀ o ∈ after, o.shownName ≠ name := by
  rw [ignoreTables_eq_ofEntries, ← Table.mem_iff_lookup (Table.nodup_keys_ofEntries _),
    Table.mem_ofEntries]
  constructor
  · intro h
    obtain ⟨l, r, heq, hr⟩ := h
    obtain ⟨l', r', hfiles, -, hr'⟩ := List.map_eq_append_iff.mp heq
    obtain ⟨f, after, rfl, hf, rfl⟩ := List.map_eq_cons_iff.mp hr'
    obtain ⟨hname, htable⟩ := Prod.mk.inj hf
    rw [checkedFiles] at hfiles
    obtain ⟨before, rest, hsplit, -, hrest⟩ := List.filter_eq_append_iff.mp hfiles
    obtain ⟨skip, later, rfl, -, hcheck, hafter⟩ := List.filter_eq_cons_iff.mp hrest
    rw [hname] at hcheck
    refine ⟨f, hname, htable, p.contains_skipped_iff.mp (by simpa using hcheck),
      before ++ skip, later, by simp [hsplit], ?_⟩
    intro o ho honame
    have hmem : o ∈ after := by
      rw [← hafter]
      exact List.mem_filter.mpr ⟨ho, by rw [honame]; exact hcheck⟩
    exact hr (List.mem_map.mpr ⟨_, List.mem_map_of_mem hmem, honame⟩)
  · intro h
    obtain ⟨f, rfl, rfl, hgen, before, after, hfiles, hafter⟩ := h
    have hcheck : (! p.skipped.contains f.shownName) = true := by
      rw [p.contains_skipped_iff.mpr hgen]
      rfl
    rw [checkedFiles, hfiles, List.filter_append, List.filter_cons, if_pos hcheck,
      List.map_append, List.map_cons]
    refine ⟨_, _, rfl, fun hmem => ?_⟩
    rw [List.map_map] at hmem
    obtain ⟨o, ho, honame⟩ := List.mem_map.mp hmem
    exact hafter o (List.mem_filter.mp ho).1 honame

/-- A directive is in the table of its file exactly if no later one is shown on its line. -/
theorem mem_build {f : SourceFile} {e : Int × Ignore} :
    e ∈ IgnoreTable.build f ↔ ∃ c checkers, Ignore.ofComment? c.text = some checkers ∧
      e = ((f.shown c.pos).line, { pos := c.pos, checkers }) ∧
      ∃ before after, f.comments.flatten = before ++ c :: after ∧
        ∀ o ∈ after, Ignore.ofComment? o.text ≠ none →
          (f.shown o.pos).line ≠ (f.shown c.pos).line := by
  obtain ⟨line, i⟩ := e
  rw [IgnoreTable.build_eq_ofEntries, Table.mem_ofEntries]
  constructor
  · intro h
    obtain ⟨l, r, heq, hr⟩ := h
    rw [SourceFile.ignores] at heq
    obtain ⟨before, rest, hsplit, -, hrest⟩ := List.filterMap_eq_append_iff.mp heq
    obtain ⟨skip, c, after, rfl, -, hc, hafter⟩ := List.filterMap_eq_cons_iff.mp hrest
    obtain ⟨checkers, hcheckers, he⟩ := Option.map_eq_some_iff.mp hc
    refine ⟨c, checkers, hcheckers, he.symm, before ++ skip, after, by simp [hsplit], ?_⟩
    intro o ho hignore hline
    obtain ⟨names, hnames⟩ := Option.ne_none_iff_exists'.mp hignore
    refine hr ?_
    rw [← hafter]
    refine List.mem_map.mpr ⟨_, List.mem_filterMap.mpr ⟨o, ho, Option.map_eq_some_iff.mpr
      ⟨names, hnames, rfl⟩⟩, ?_⟩
    exact hline.trans (congrArg Prod.fst he)
  · intro h
    obtain ⟨c, checkers, hc, he, before, after, hsplit, hafter⟩ := h
    rw [SourceFile.ignores, hsplit, List.filterMap_append, List.filterMap_cons, hc,
      Option.map_some, ← he]
    refine ⟨_, _, rfl, fun hmem => ?_⟩
    obtain ⟨e, hmem, hline⟩ := List.mem_map.mp hmem
    obtain ⟨o, ho, hmap⟩ := List.mem_filterMap.mp hmem
    obtain ⟨names, hnames, rfl⟩ := Option.map_eq_some_iff.mp hmap
    exact hafter o ho (by simp [hnames]) (hline.trans (congrArg Prod.fst he))

theorem line_of_mem_build {f : SourceFile} {e : Int × Ignore} (he : e ∈ IgnoreTable.build f) :
    e.1 = (f.shown e.2.pos).line := by
  obtain ⟨c, checkers, -, rfl, -⟩ := mem_build.mp he
  rfl

/-- A comment belongs to one file only, and there its place tells it apart. -/
theorem CommentsApart.eq (hapart : p.CommentsApart) {f o : SourceFile} {c d : Comment}
    (hf : f ∈ p.files) (ho : o ∈ p.files) (hc : c ∈ f.comments.flatten)
    (hd : d ∈ o.comments.flatten) (h : d.pos = c.pos) : o = f ∧ d = c := by
  rw [CommentsApart, List.map_flatMap, List.nodup_flatMap] at hapart
  obtain ⟨hwithin, hbetween⟩ := hapart
  have hof : o = f := by
    by_contra hne
    have : Std.Symm (Function.onFun List.Disjoint fun x : SourceFile =>
        x.comments.flatten.map (·.pos)) := ⟨fun _ _ => List.Disjoint.symm⟩
    refine hbetween.forall ho hf hne (List.mem_map_of_mem hd) ?_
    rw [h]
    exact List.mem_map_of_mem hc
  subst hof
  exact ⟨rfl, List.inj_on_of_nodup_map (hwithin o ho) hd hc h⟩

variable {f : SourceFile} {c : Comment}

/-- What stands in the tables for the place of a comment is its directive, and the comment
has kept its place. -/
theorem keeps_of_mem_table (hapart : p.CommentsApart) (hf : f ∈ p.files)
    (hc : c ∈ f.comments.flatten) {name : String} {table : IgnoreTable} {e : Int × Ignore}
    (htable : p.ignoreTables.lookup name = some table) (he : e ∈ table)
    (hpos : e.2.pos = c.pos) :
    name = f.shownName ∧ table = IgnoreTable.build f ∧ p.Keeps f c ∧
      ∃ checkers, Ignore.ofComment? c.text = some checkers ∧
        e = ((f.shown c.pos).line, { pos := c.pos, checkers }) := by
  obtain ⟨o, rfl, rfl, hgen, before, after, hfiles, hafter⟩ := lookup_ignoreTables.mp htable
  obtain ⟨d, checkers, hd, rfl, front, back, hcomments, hback⟩ := mem_build.mp he
  have ho : o ∈ p.files := by rw [hfiles]; simp
  have hdo : d ∈ o.comments.flatten := by rw [hcomments]; simp
  obtain ⟨rfl, rfl⟩ := hapart.eq hf ho hc hdo hpos
  exact ⟨rfl, rfl, ⟨hgen, ⟨before, after, hfiles, hafter⟩, ⟨front, back, hcomments, hback⟩⟩,
    checkers, hd, rfl⟩

theorem Keeps.lookup (h : p.Keeps f c) :
    p.ignoreTables.lookup f.shownName = some (IgnoreTable.build f) :=
  lookup_ignoreTables.mpr ⟨f, rfl, rfl, h.checked, h.lastFile⟩

theorem Keeps.mem_build (h : p.Keeps f c) {checkers : List CheckerName}
    (hc : Ignore.ofComment? c.text = some checkers) :
    ((f.shown c.pos).line, { pos := c.pos, checkers }) ∈ IgnoreTable.build f :=
  Package.mem_build.mpr ⟨c, checkers, hc, rfl, h.lastOnLine⟩

/-! ### Which directives suppress something -/

variable (p) in
/-- A diagnostic for which a run asks the ignore directives, and the checker it belongs to. -/
def Asks (external : List External) (lint : Bool) (checker : CheckerName) (d : Pending) : Prop :=
  checker = CheckerName.crossthread ∧ d ∈ p.crossings external ∨
    lint = true ∧ checker = CheckerName.directive ∧ d ∈ p.lintReports

variable (p) in
/-- The ignore directive at a place suppresses a diagnostic of a run: in the table of the
file in which the diagnostic is shown, it is the one that answers. -/
def Suppresses (external : List External) (lint : Bool) (pos : Pos) : Prop :=
  ∃ checker d table e, p.Asks external lint checker d ∧
    p.ignoreTables.lookup d.file = some table ∧ e.2.pos = pos ∧
    Answers table e { line := d.line, checker }

theorem mem_questions {external : List External} {lint : Bool} {file : String} {q : Query} :
    q ∈ p.questions external lint file ↔
      ∃ d, p.Asks external lint q.checker d ∧ d.file = file ∧ d.line = q.line := by
  obtain ⟨line, checker⟩ := q
  unfold questions Asks IgnoreTables.questions
  cases lint with
  | false =>
      simp only [Bool.false_eq_true, if_false, List.append_nil, List.mem_map, List.mem_filter,
        decide_eq_true_eq, Query.mk.injEq, false_and, or_false]
      constructor
      · rintro ⟨d, ⟨hd, hfile⟩, hline, rfl⟩
        exact ⟨d, ⟨rfl, hd⟩, hfile, hline⟩
      · rintro ⟨d, ⟨rfl, hd⟩, hfile, hline⟩
        exact ⟨d, ⟨hd, hfile⟩, hline, rfl⟩
  | true =>
      simp only [if_true, List.mem_append, List.mem_map, List.mem_filter, decide_eq_true_eq,
        Query.mk.injEq, true_and]
      constructor
      · rintro (⟨d, ⟨hd, hfile⟩, hline, rfl⟩ | ⟨d, ⟨hd, hfile⟩, hline, rfl⟩)
        · exact ⟨d, Or.inl ⟨rfl, hd⟩, hfile, hline⟩
        · exact ⟨d, Or.inr ⟨rfl, hd⟩, hfile, hline⟩
      · rintro ⟨d, ⟨rfl, hd⟩ | ⟨rfl, hd⟩, hfile, hline⟩
        · exact Or.inl ⟨d, ⟨hd, hfile⟩, hline, rfl⟩
        · exact Or.inr ⟨d, ⟨hd, hfile⟩, hline, rfl⟩

section Reports

variable {external : List External} {lint : Bool} (hapart : p.CommentsApart) (hf : f ∈ p.files)
  (hc : c ∈ f.comments.flatten) (hignore : Ignore.ofComment? c.text = some [])
include hapart hf hc

/-- Only a directive that has kept its place suppresses anything. -/
theorem Suppresses.keeps (h : p.Suppresses external lint c.pos) : p.Keeps f c := by
  obtain ⟨checker, d, table, e, -, htable, hpos, ha⟩ := h
  exact (keeps_of_mem_table hapart hf hc htable ha.1 hpos).2.2.1

include hignore

theorem suppresses_iff (hkeeps : p.Keeps f c) :
    p.Suppresses external lint c.pos ↔
      ∃ q ∈ p.questions external lint f.shownName,
        Answers (IgnoreTable.build f)
          ((f.shown c.pos).line, { pos := c.pos, checkers := [] }) q := by
  constructor
  · intro h
    obtain ⟨checker, d, table, e, hasks, htable, hpos, ha⟩ := h
    obtain ⟨hname, rfl, -, checkers, hcheckers, rfl⟩ :=
      keeps_of_mem_table hapart hf hc htable ha.1 hpos
    obtain rfl : checkers = [] := Option.some.inj (hcheckers.symm.trans hignore)
    exact ⟨_, mem_questions.mpr ⟨d, hasks, hname, rfl⟩, ha⟩
  · intro h
    obtain ⟨q, hq, ha⟩ := h
    obtain ⟨d, hasks, hfile, hline⟩ := mem_questions.mp hq
    have htable := hkeeps.lookup
    rw [← hfile] at htable
    refine ⟨q.checker, d, _, ((f.shown c.pos).line, { pos := c.pos, checkers := [] }), hasks,
      htable, rfl, ?_⟩
    rw [hline]
    exact ha

/-- What the table under a name says about the directive at the end of a run. -/
theorem mem_unused_table {name : String} {table : IgnoreTable}
    (htable : p.ignoreTables.lookup name = some table) :
    { pos := c.pos, checkers := [] } ∈
        (table.askAll (p.questions external lint name)).2.unused (enabledCheckers lint) ↔
      name = f.shownName ∧ p.Keeps f c ∧ ¬ p.Suppresses external lint c.pos := by
  obtain ⟨o, -, rfl, -⟩ := lookup_ignoreTables.mp htable
  rw [IgnoreTable.mem_unused_askAll (IgnoreTable.nodup_lines_build o)
    fun e he => by obtain ⟨d, checkers, -, rfl, -⟩ := mem_build.mp he; rfl]
  constructor
  · intro h
    obtain ⟨e, he, hpos, hidle⟩ := h
    obtain ⟨rfl, htable, hkeeps, checkers, hcheckers, rfl⟩ :=
      keeps_of_mem_table hapart hf hc htable he hpos.symm
    obtain rfl : checkers = [] := Option.some.inj (hcheckers.symm.trans hignore)
    refine ⟨rfl, hkeeps, ?_⟩
    rw [suppresses_iff hapart hf hc hignore hkeeps]
    rintro ⟨q, hq, ha⟩
    rw [Idle, if_pos rfl, htable] at hidle
    exact hidle.2 q hq ha (p.checker_of_mem_questions hq)
  · intro h
    obtain ⟨rfl, hkeeps, hidle⟩ := h
    have htable : IgnoreTable.build o = IgnoreTable.build f :=
      Option.some.inj (htable.symm.trans hkeeps.lookup)
    rw [suppresses_iff hapart hf hc hignore hkeeps] at hidle
    rw [htable]
    refine ⟨_, hkeeps.mem_build hignore, rfl, ?_⟩
    rw [Idle, if_pos rfl]
    exact ⟨rfl, fun q hq ha => absurd ⟨q, hq, ha⟩ hidle⟩

theorem count_unused_eq_one (hkeeps : p.Keeps f c) (hidle : ¬ p.Suppresses external lint c.pos) :
    (((p.tablesAfter external lint).lookup f.shownName).elim []
      (IgnoreTable.unused (enabledCheckers lint))).count { pos := c.pos, checkers := [] } = 1 := by
  rw [lookup_tablesAfter, hkeeps.lookup, Option.map_some, Option.elim_some]
  refine List.count_eq_one_of_mem ?_
    ((mem_unused_table hapart hf hc hignore hkeeps.lookup).mpr ⟨rfl, hkeeps, hidle⟩)
  refine (IgnoreTable.unused_askAll_strictly ?_).imp fun {u v} h huv => ?_
  · exact SourceFile.nodup_pos_of_lines (fun e he => line_of_mem_build he)
      (IgnoreTable.nodup_lines_build f)
  · rw [huv] at h
    exact h.irrefl

theorem count_unused_eq_zero {name : String}
    (h : name = f.shownName → p.Keeps f c → p.Suppresses external lint c.pos) :
    (((p.tablesAfter external lint).lookup name).elim []
      (IgnoreTable.unused (enabledCheckers lint))).count { pos := c.pos, checkers := [] } = 0 := by
  rw [lookup_tablesAfter]
  cases htable : p.ignoreTables.lookup name with
  | none => rfl
  | some table =>
      rw [Option.map_some, Option.elim_some]
      refine List.count_eq_zero_of_not_mem fun hmem => ?_
      obtain ⟨hname, hkeeps, hidle⟩ := (mem_unused_table hapart hf hc hignore htable).mp hmem
      exact hidle (h hname hkeeps)

/-- A directive that keeps its place and suppresses nothing is found once for each time the
name of its file is looked up. -/
theorem count_unused_idle (hkeeps : p.Keeps f c) (hidle : ¬ p.Suppresses external lint c.pos)
    (names : List String) :
    ((p.tablesAfter external lint).unused (enabledCheckers lint) names).count
      { pos := c.pos, checkers := [] } = names.count f.shownName := by
  induction names with
  | nil => rfl
  | cons name names ih =>
      rw [IgnoreTables.unused, List.flatMap_cons, List.count_append, ← IgnoreTables.unused, ih]
      by_cases hname : name = f.shownName
      · rw [hname, count_unused_eq_one hapart hf hc hignore hkeeps hidle, List.count_cons_self,
          Nat.add_comm]
      · rw [count_unused_eq_zero hapart hf hc hignore (fun h => absurd h hname),
          List.count_cons_of_ne hname, Nat.zero_add]

/-- No other directive is found at all. -/
theorem count_unused_other (h : p.Keeps f c → p.Suppresses external lint c.pos)
    (names : List String) :
    ((p.tablesAfter external lint).unused (enabledCheckers lint) names).count
      { pos := c.pos, checkers := [] } = 0 := by
  rw [IgnoreTables.unused, List.count_flatMap, List.sum_eq_zero]
  intro k hk
  obtain ⟨name, -, rfl⟩ := List.mem_map.mp hk
  exact count_unused_eq_zero hapart hf hc hignore fun _ => h

end Reports

/-! ### The diagnostics of a run -/

theorem diagnostics_split (external : List External) (lint : Bool) :
    ∃ linted, (∀ d ∈ linted, ∃ q ∈ p.lintReports, d = q.diagnostic) ∧
      p.diagnostics external lint =
        (p.reported (p.program external)).map
          (fun x => (finding (p.program external) x).diagnostic) ++ linted ++
        p.unusedReports lint (p.tablesAfter external lint) := by
  rw [← crossings_sifted]
  cases lint with
  | false => exact ⟨[], by simp, rfl⟩
  | true =>
      refine ⟨_, ?_, rfl⟩
      intro d hd
      rw [IgnoreTables.sift_fst] at hd
      obtain ⟨q, hq, rfl⟩ := List.mem_map.mp hd
      exact ⟨q, (List.mem_filter.mp hq).1, rfl⟩

/-- What comes before the reports about unused directives reads like none of them. -/
theorem diagnostics_eq_append (external : List External) (lint : Bool) :
    ∃ others, (∀ u : UnusedIgnore, u.report ∉ others) ∧
      p.diagnostics external lint =
        others ++ p.unusedReports lint (p.tablesAfter external lint) := by
  obtain ⟨linted, hlinted, heq⟩ := p.diagnostics_split external lint
  refine ⟨_, fun u hmem => ?_, heq⟩
  rcases List.mem_append.mp hmem with hmem | hmem
  · obtain ⟨x, -, hx⟩ := List.mem_map.mp hmem
    have hcategory : "crossthread" = "" := congrArg Diagnostic.category hx
    exact absurd hcategory (by decide)
  · obtain ⟨q, hq, hreport⟩ := hlinted _ hmem
    obtain ⟨o, -, hq⟩ := List.mem_flatMap.mp hq
    obtain ⟨⟨d, fault⟩, -, rfl⟩ := List.mem_map.mp hq
    exact fault.message_ne u (congrArg Diagnostic.message hreport).symm

/-- The reports about a directive without names are those that its table gives. -/
theorem count_report (external : List External) (lint : Bool) (pos : Pos) :
    (p.diagnostics external lint).count (UnusedIgnore.report { pos, checkers := [] }) =
      ((p.tablesAfter external lint).unused (enabledCheckers lint)
        (p.files.map (·.shownName))).count { pos, checkers := [] } := by
  obtain ⟨others, hothers, heq⟩ := p.diagnostics_eq_append external lint
  rw [heq, List.count_append, List.count_eq_zero_of_not_mem (hothers _), Nat.zero_add,
    unusedReports,
    List.count_eq_countP, List.countP_map, List.count_eq_countP]
  refine List.countP_congr fun u _ => ?_
  simp only [Function.comp_apply, beq_iff_eq]
  exact UnusedIgnore.report_eq_iff

/-- How often a directive without names is reported as unused. -/
def timesReported (ds : List Diagnostic) (pos : Pos) : Nat :=
  ds.count (UnusedIgnore.report { pos, checkers := [] })

variable (p) in
/-- A directive without names suppresses a diagnostic of a run or is reported as unused, and
it is not reported twice. -/
def Accounted (external : List External) (lint : Bool) (ds : List Diagnostic) (pos : Pos) : Prop :=
  (p.Suppresses external lint pos ∨ 0 < timesReported ds pos) ∧ timesReported ds pos ≤ 1

variable (p) in
/-- The number of files that go under the name of a file. -/
def namesakes (f : SourceFile) : Nat :=
  (p.files.map (·.shownName)).count f.shownName

theorem accounted_iff {external : List External} {lint : Bool} (hapart : p.CommentsApart)
    (hf : f ∈ p.files) (hc : c ∈ f.comments.flatten)
    (hignore : Ignore.ofComment? c.text = some []) :
    p.Accounted external lint (p.diagnostics external lint) c.pos ↔
      p.Keeps f c ∧ (p.Suppresses external lint c.pos ∨ p.namesakes f = 1) := by
  have hkept : p.Suppresses external lint c.pos → p.Keeps f c := Suppresses.keeps hapart hf hc
  unfold Accounted timesReported
  rw [count_report]
  by_cases hidle : p.Keeps f c ∧ ¬ p.Suppresses external lint c.pos
  · have hname : 0 < p.namesakes f := List.count_pos_iff.mpr (List.mem_map_of_mem hf)
    rw [count_unused_idle hapart hf hc hignore hidle.1 hidle.2]
    show (_ ∨ 0 < p.namesakes f) ∧ p.namesakes f ≤ 1 ↔ _
    simp only [hidle.1, hidle.2, false_or, true_and]
    omega
  · have hused : p.Keeps f c → p.Suppresses external lint c.pos := by
      simpa using hidle
    rw [count_unused_other hapart hf hc hignore hused]
    simp only [Nat.lt_irrefl, or_false, Nat.zero_le, and_true]
    exact ⟨fun h => ⟨hkept h, Or.inl h⟩, fun h => hused h.1⟩

end Package

/--
**An analysis that succeeds accounts for an ignore directive without names exactly if
nothing takes its place, and it is of use or its file has a name of its own.**  Such a
directive suppresses a diagnostic or is reported as unused, and is not reported twice.
-/
theorem analyze_accounts_for_ignores {r : Request} {ds : List Diagnostic} (h : analyze r = .ok ds)
    (hapart : r.package.CommentsApart) :
    ∃ external, External.load r.sources = .ok external ∧
      ∀ f ∈ r.package.files, ∀ c ∈ f.comments.flatten, Ignore.ofComment? c.text = some [] →
        (r.package.Accounted external r.lint ds c.pos ↔
          r.package.Keeps f c ∧
            (r.package.Suppresses external r.lint c.pos ∨ r.package.namesakes f = 1)) := by
  obtain ⟨external, hload, hds⟩ := diagnostics_of_analyze h
  rw [hds]
  exact ⟨external, hload, fun f hf c hc => Package.accounted_iff hapart hf hc⟩

theorem studio_accounts_for_ignore :
    analyze studio = .ok studioDiagnostics ∧ studio.package.CommentsApart ∧
      ∃ external, External.load studio.sources = .ok external ∧
        studio.package.Accounted external studio.lint studioDiagnostics
          { line := 6, column := 2 } := by
  have hapart : studio.package.CommentsApart := by
    unfold Package.CommentsApart
    decide
  obtain ⟨external, hload, h⟩ := analyze_accounts_for_ignores analyze_studio hapart
  refine ⟨analyze_studio, hapart, external, hload, ?_⟩
  refine (h _ (List.mem_singleton_self _) ⟨{ line := 6, column := 2 }, "//threadctl:ignore"⟩
    (by simp) (by decide)).mpr ⟨⟨by decide, ?_, ?_⟩, Or.inr (by decide)⟩
  · exact ⟨[], [], rfl, by simp⟩
  · exact ⟨[_], [_], rfl, by decide⟩

/-- Two files that go under the name `shared.y`, each with an ignore directive. -/
def twins : Request where
  package := { files := [file 0 "a.go" 4, file 1 "b.go" 6] }
where
  file (number : Nat) (name : String) (line : Nat) : SourceFile :=
    { name
      package := { file := number, line := 2, column := 1 }
      comments := [
        [{ pos := { file := number, line := 1, column := 1 }, text := "//line shared.y:1" }],
        [{ pos := { file := number, line, column := 1 }, text := "//threadctl:ignore" }]]
      lineDirectives := [{ line := 2, file := "shared.y", target := 1 }] }

/-- The directive of the first file is lost, and that of the second is reported twice. -/
theorem twins_unaccounted :
    ∃ ds, analyze twins = .ok ds ∧ (∀ f ∈ twins.package.files, f.isGenerated = false) ∧
      ¬ twins.package.Accounted [] twins.lint ds { file := 0, line := 4, column := 1 } ∧
      ¬ twins.package.Accounted [] twins.lint ds { file := 1, line := 6, column := 1 } := by
  have hload : External.load twins.sources = .ok [] := rfl
  have hcrossings : twins.package.crossings [] = [] := by decide
  have hidle : ∀ pos, ¬ twins.package.Suppresses [] twins.lint pos := by
    rintro pos ⟨checker, d, table, e, ⟨-, hd⟩ | ⟨hlint, -⟩, -⟩
    · rw [hcrossings] at hd
      cases hd
    · cases hlint
  have hunused : (twins.package.tablesAfter [] twins.lint).unused
      (Package.enabledCheckers twins.lint) (twins.package.files.map (·.shownName)) =
        [{ pos := { file := 1, line := 6, column := 1 }, checkers := [] },
          { pos := { file := 1, line := 6, column := 1 }, checkers := [] }] := by decide +kernel
  have hunaccounted : ∀ pos,
      ((twins.package.tablesAfter [] twins.lint).unused (Package.enabledCheckers twins.lint)
        (twins.package.files.map (·.shownName))).count { pos, checkers := [] } ≠ 1 →
      ¬ twins.package.Accounted [] twins.lint (twins.package.diagnostics [] twins.lint) pos := by
    rintro pos hcount ⟨hused, hle⟩
    unfold Package.timesReported at hused hle
    rw [Package.count_report] at hused hle
    have := hused.resolve_left (hidle pos)
    omega
  rw [hunused] at hunaccounted
  refine ⟨twins.package.diagnostics [] twins.lint, ?_, by decide, hunaccounted _ (by decide),
    hunaccounted _ (by decide)⟩
  unfold analyze
  rw [hload]
  rfl

end ThreadAffinity
