/-
What is reported about calls across threads.

The violations of all roots that are checked stand in one list, root by root in the order of
their declarations and for each root in the order in which they are found.  Of those that
are shown alike, at the same place and with the same message, the first is kept, and of the
kept ones those that no ignore directive silences are reported.  So what is reported is a
part of that list, in its order.
-/
import Mathlib.Data.Fin.Tuple.Take
import ThreadAffinity.Proofs.Suppression
import ThreadAffinity.Proofs.Violations

namespace ThreadAffinity

/-- A violation, with its root and its place among the violations of the root. -/
structure Located (n : Nat) where
  root : Fin n
  place : Nat
  violation : Violation n

/-- Comes earlier: by the declarations of the roots, then by the places. -/
def Located.Precedes {n : Nat} (x y : Located n) : Prop :=
  x.root < y.root ∨ x.root = y.root ∧ x.place < y.place

namespace Package

variable (p : Package)

/-- The member is a declared function with an affinity tag, and the file in which its
declaration is shown is no generated one. -/
def Checks (prog : Program) (root : Fin prog.size) : Prop :=
  (prog.members.get root).tags.affinity ≠ none ∧
    ∃ d, (prog.members.get root).decl = some d ∧
      ∀ f ∈ p.files, f.isGenerated = true → f.shownName ≠ (p.shown d.pos).file

/-- One of the violations that are to be reported if nothing silences them. -/
def Violates (prog : Program) (x : Located prog.size) : Prop :=
  p.Checks prog x.root ∧ (prog.graph.violations x.root)[x.place]? = some x.violation

/-- In the file in which a place is shown, on its line or on the line before, there is an
ignore directive that names the checker or none. -/
def Silenced (checker : CheckerName) (pos : Pos) : Prop :=
  ∃ table i, p.ignoreTables.lookup (p.shown pos).file = some table ∧
    (table.lookup (p.shown pos).line = some i ∨ table.lookup ((p.shown pos).line - 1) = some i) ∧
    (i.checkers = [] ∨ checker ∈ i.checkers)

/-- A violation as it is reported. -/
def finding (prog : Program) (x : Located prog.size) : Finding :=
  Finding.ofViolation (callView prog) x.violation

/-! ### The roots that are checked -/

theorem exists_decl_of_mem_declared {decls : List FuncDecl} {index : TagIndex} {m : ProgramMember}
    (h : m ∈ Program.declaredMembers decls index) : ∃ d, m.decl = some d := by
  obtain ⟨d, -, f, -, rfl⟩ := Program.mem_declaredMembers.mp h
  exact ⟨d, rfl⟩

theorem decl_of_mem_external {declared : List ProgramMember} {index : TagIndex}
    {m : ProgramMember} (h : m ∈ Program.externalMembers declared index) : m.decl = none := by
  obtain ⟨f, -, rfl⟩ := List.mem_map.mp h
  rfl

theorem isSome_decl_iff (external : List External) (root : Fin (p.program external).size) :
    (∃ d, ((p.program external).members.get root).decl = some d) ↔
      root.val < (p.program external).declared.length := by
  constructor
  · intro h
    obtain ⟨d, hd⟩ := h
    by_contra hout
    have hmem : (p.program external).members.get root ∈ (p.program external).external := by
      rw [List.get_eq_getElem]
      unfold Program.members
      rw [List.getElem_append_right (by omega)]
      exact List.getElem_mem _
    rw [decl_of_mem_external hmem] at hd
    cases hd
  · intro h
    have hmem : (p.program external).members.get root ∈ (p.program external).declared := by
      rw [List.get_eq_getElem]
      unfold Program.members
      rw [List.getElem_append_left h]
      exact List.getElem_mem _
    exact exists_decl_of_mem_declared hmem

theorem contains_skipped_iff {file : String} :
    p.skipped.contains file = false ↔
      ∀ f ∈ p.files, f.isGenerated = true → f.shownName ≠ file := by
  unfold skipped
  rw [List.contains_eq_mem, decide_eq_false_iff_not, List.mem_map]
  constructor
  · intro h f hf hgen hname
    exact h ⟨f, List.mem_filter.mpr ⟨hf, hgen⟩, hname⟩
  · intro h hex
    obtain ⟨f, hf, hname⟩ := hex
    obtain ⟨hf, hgen⟩ := List.mem_filter.mp hf
    exact h f hf hgen hname

theorem mem_checkedRoots (external : List External) {root : Fin (p.program external).size} :
    root ∈ p.checkedRoots (p.program external) ↔ p.Checks (p.program external) root := by
  unfold checkedRoots Checks Program.roots
  rw [List.mem_filter, List.mem_filter, Bool.and_eq_true, decide_eq_true_eq,
    ← p.isSome_decl_iff external root, Option.isSome_iff_ne_none]
  constructor
  · intro h
    obtain ⟨⟨-, ⟨d, hd⟩, htag⟩, hfile⟩ := h
    rw [hd, Option.all_some, Bool.not_eq_true'] at hfile
    exact ⟨htag, d, hd, p.contains_skipped_iff.mp hfile⟩
  · intro h
    obtain ⟨htag, d, hd, hfile⟩ := h
    refine ⟨⟨List.mem_finRange root, ⟨d, hd⟩, htag⟩, ?_⟩
    rw [hd, Option.all_some, Bool.not_eq_true']
    exact p.contains_skipped_iff.mpr hfile

theorem checkedRoots_pairwise (prog : Program) : (p.checkedRoots prog).Pairwise (· < ·) :=
  ((List.pairwise_lt_finRange prog.size).filter _).filter _

/-! ### All violations in one list -/

/-- The violations of the roots that are checked, in order. -/
def located (prog : Program) : List (Located prog.size) :=
  (p.checkedRoots prog).flatMap fun root =>
    (prog.graph.violations root).zipIdx.map fun (v, i) =>
      { root := root, place := i, violation := v }

theorem mem_located (external : List External) {x : Located (p.program external).size} :
    x ∈ p.located (p.program external) ↔ p.Violates (p.program external) x := by
  unfold located Violates
  rw [List.mem_flatMap]
  constructor
  · intro h
    obtain ⟨root, hroot, hx⟩ := h
    obtain ⟨⟨v, i⟩, hv, rfl⟩ := List.mem_map.mp hx
    exact ⟨(p.mem_checkedRoots external).mp hroot, List.mem_zipIdx_iff_getElem?.mp hv⟩
  · intro h
    obtain ⟨hroot, hv⟩ := h
    refine ⟨x.root, (p.mem_checkedRoots external).mpr hroot, ?_⟩
    exact List.mem_map.mpr ⟨(x.violation, x.place), List.mem_zipIdx_iff_getElem?.mpr hv, rfl⟩

theorem located_pairwise (prog : Program) : (p.located prog).Pairwise Located.Precedes := by
  unfold located
  rw [List.pairwise_flatMap]
  refine ⟨?_, ?_⟩
  · intro root _
    have hplaces : ((prog.graph.violations root).zipIdx.map Prod.snd).Pairwise (· < ·) := by
      rw [List.zipIdx_map_snd]
      exact List.pairwise_lt_range'
    rw [List.pairwise_map] at hplaces ⊢
    exact hplaces.imp fun h => Or.inr ⟨rfl, h⟩
  · refine (p.checkedRoots_pairwise prog).imp fun {r s} hrs => ?_
    intro x hx y hy
    obtain ⟨v, -, rfl⟩ := List.mem_map.mp hx
    obtain ⟨w, -, rfl⟩ := List.mem_map.mp hy
    exact Or.inl hrs

/-- In one root the first calls come in the order of the body. -/
theorem first_le_of_precedes {prog : Program} {x y : Located prog.size}
    (hx : p.Violates prog x) (hy : p.Violates prog y) (h : x.Precedes y) :
    x.root < y.root ∨
      x.root = y.root ∧ x.violation.chain.first.index ≤ y.violation.chain.first.index := by
  refine h.imp_right fun h => ⟨h.1, ?_⟩
  obtain ⟨hroot, hplace⟩ := h
  have hxv := hx.2
  have hyv := hy.2
  rw [← hroot] at hyv
  obtain ⟨hxlt, hxv⟩ := List.getElem?_eq_some_iff.mp hxv
  obtain ⟨hylt, hyv⟩ := List.getElem?_eq_some_iff.mp hyv
  have := List.pairwise_iff_getElem.mp (prog.graph.violations_grouped x.root) _ _ hxlt hylt hplace
  rw [hxv, hyv] at this
  exact this

/-! ### What is reported of them -/

/-- The place and the message under which a violation is shown. -/
def shownAs (prog : Program) (x : Located prog.size) : Pos × String :=
  ((finding prog x).start, (finding prog x).message)

/-- The violations that are reported. -/
def reported (prog : Program) : List (Located prog.size) :=
  (distinctBy (shownAs prog) (p.located prog)).filter fun x =>
    ! (p.ignoreTables.shouldIgnore (p.shown (finding prog x).start).file
      (p.shown (finding prog x).start).line CheckerName.crossthread).1

theorem findings_eq (external : List External) :
    p.findings external =
      (distinctBy (shownAs (p.program external)) (p.located (p.program external))).map
        (finding (p.program external)) := by
  have hflat : ((p.checkedRoots (p.program external)).flatMap fun root =>
      ((p.program external).graph.violations root).map
        (Finding.ofViolation (callView (p.program external)))) =
      (p.located (p.program external)).map (finding (p.program external)) := by
    unfold located
    rw [List.map_flatMap]
    congr 1
    funext root
    conv_lhs => rw [← List.zipIdx_map_fst 0 ((p.program external).graph.violations root)]
    rw [List.map_map, List.map_map]
    rfl
  unfold findings Finding.distinct
  simp only [hflat]
  exact distinctBy_map _ _ _

/-- The findings, once the roots and the violations of the graph are known. -/
theorem findings_of_violations {external : List External} {n : Nat} {g : CallGraph n}
    {roots : List (Fin n)} {vs : List (Violation n)} (view : SiteId n → CallView)
    (hviolations : roots.flatMap g.violations = vs)
    (h : p.findings external = Finding.distinct (roots.flatMap fun root =>
      (g.violations root).map (Finding.ofViolation view))) :
    p.findings external = Finding.distinct (vs.map (Finding.ofViolation view)) := by
  rw [h, ← List.map_flatMap, hviolations]

theorem crossings_sifted (external : List External) :
    (p.ignoreTables.sift CheckerName.crossthread (p.crossings external)).1 =
      (p.reported (p.program external)).map fun x =>
        (finding (p.program external) x).diagnostic := by
  rw [IgnoreTables.sift_fst, crossings, findings_eq, reported, List.map_map, List.filter_map,
    List.map_map]
  rfl

theorem category_lintReports {q : Pending} (h : q ∈ p.lintReports) :
    q.diagnostic.category = "" := by
  obtain ⟨f, -, hq⟩ := List.mem_flatMap.mp h
  obtain ⟨⟨c, fault⟩, -, rfl⟩ := List.mem_map.mp hq
  rfl

theorem category_unusedReports {lint : Bool} {tables : IgnoreTables} {d : Diagnostic}
    (h : d ∈ p.unusedReports lint tables) : d.category = "" := by
  obtain ⟨u, -, rfl⟩ := List.mem_map.mp h
  rfl

/-- The other diagnostics have no category. -/
theorem diagnostics_eq (external : List External) (lint : Bool) :
    ∃ others, (∀ d ∈ others, d.category = "") ∧
      p.diagnostics external lint =
        (p.reported (p.program external)).map
          (fun x => (finding (p.program external) x).diagnostic) ++ others := by
  rw [← crossings_sifted]
  unfold diagnostics
  cases lint with
  | false =>
      simp only [Bool.false_eq_true, if_false, List.append_nil]
      refine ⟨_, ?_, rfl⟩
      intro d hd
      exact p.category_unusedReports hd
  | true =>
      simp only [if_true, List.append_assoc]
      refine ⟨_, ?_, rfl⟩
      intro d hd
      rcases List.mem_append.mp hd with hd | hd
      · rw [IgnoreTables.sift_fst] at hd
        obtain ⟨q, hq, rfl⟩ := List.mem_map.mp hd
        exact p.category_lintReports (List.mem_filter.mp hq).1
      · exact p.category_unusedReports hd

theorem filter_diagnostics (external : List External) (lint : Bool) :
    (p.diagnostics external lint).filter (·.category = CheckerName.crossthread) =
      (p.reported (p.program external)).map fun x =>
        (finding (p.program external) x).diagnostic := by
  obtain ⟨others, hothers, heq⟩ := p.diagnostics_eq external lint
  rw [heq, List.filter_append, List.filter_eq_self.mpr, List.filter_eq_nil_iff.mpr,
    List.append_nil]
  · intro d hd
    rw [hothers d hd]
    decide
  · intro d hd
    obtain ⟨x, -, rfl⟩ := List.mem_map.mp hd
    rfl

theorem mem_reported (external : List External) {x : Located (p.program external).size} :
    x ∈ p.reported (p.program external) ↔
      x ∈ distinctBy (shownAs (p.program external)) (p.located (p.program external)) ∧
        ¬ p.Silenced CheckerName.crossthread (finding (p.program external) x).start := by
  unfold reported Silenced
  rw [List.mem_filter, Bool.not_eq_true', ← Bool.not_eq_true, IgnoreTables.shouldIgnore_iff]

/-- What the diagnostics of a package say about calls across threads. -/
structure ReportsCrossings (external : List External) (ds : List Diagnostic) : Prop where
  /-- There is one at a place and with a message exactly if a root that is checked has a
  violation that is shown there and with it, and nothing silences the place. -/
  crossing_iff : ∀ pos message,
    (∃ d ∈ ds, d.category = CheckerName.crossthread ∧ d.pos = pos ∧ d.message = message) ↔
      (∃ root, p.Checks (p.program external) root ∧
        ∃ v ∈ (p.program external).graph.violations root,
          (Finding.ofViolation (callView (p.program external)) v).start = pos ∧
          (Finding.ofViolation (callView (p.program external)) v).message = message) ∧
      ¬ p.Silenced CheckerName.crossthread pos
  /-- No two are alike. -/
  distinct : ((ds.filter (·.category = CheckerName.crossthread)).map fun d =>
    (d.pos, d.message)).Nodup
  /-- They are those of violations of which each is the first that is shown as it is, in the
  order of the roots and, for one root, of the first calls. -/
  ordered : ∃ xs : List (Located (p.program external).size),
    ds.filter (·.category = CheckerName.crossthread) =
      xs.map (fun x => (finding (p.program external) x).diagnostic) ∧
    (∀ x ∈ xs, p.Violates (p.program external) x ∧
      ∀ y, p.Violates (p.program external) y →
        shownAs (p.program external) y = shownAs (p.program external) x →
          x = y ∨ x.Precedes y) ∧
    xs.Pairwise fun x y => x.root < y.root ∨
      x.root = y.root ∧ x.violation.chain.first.index ≤ y.violation.chain.first.index

variable {p} in
theorem exists_reported_iff {external : List External} {pos : Pos} {message : String} :
    (∃ x ∈ p.reported (p.program external), (finding (p.program external) x).start = pos ∧
      (finding (p.program external) x).message = message) ↔
      (∃ root, p.Checks (p.program external) root ∧
        ∃ v ∈ (p.program external).graph.violations root,
          (Finding.ofViolation (callView (p.program external)) v).start = pos ∧
          (Finding.ofViolation (callView (p.program external)) v).message = message) ∧
      ¬ p.Silenced CheckerName.crossthread pos := by
  constructor
  · intro h
    obtain ⟨x, hx, rfl, rfl⟩ := h
    obtain ⟨hfirst, hloud⟩ := (p.mem_reported external).mp hx
    obtain ⟨hroot, hv⟩ := (p.mem_located external).mp (mem_of_mem_distinctBy hfirst)
    exact ⟨⟨x.root, hroot, x.violation, List.mem_of_getElem? hv, rfl, rfl⟩, hloud⟩
  · intro h
    obtain ⟨⟨root, hroot, v, hv, rfl, rfl⟩, hloud⟩ := h
    obtain ⟨i, hi⟩ := List.mem_iff_getElem?.mp hv
    have hloc := (p.mem_located external).mpr
      (show p.Violates _ { root := root, place := i, violation := v } from ⟨hroot, hi⟩)
    -- Another violation may stand for it, but it is shown in the same way.
    obtain ⟨x, hx, hshown⟩ := exists_mem_distinctBy (shownAs (p.program external)) hloc
    have hstart : (finding _ x).start = (Finding.ofViolation _ v).start :=
      congrArg Prod.fst hshown
    have hmessage : (finding _ x).message = (Finding.ofViolation _ v).message :=
      congrArg Prod.snd hshown
    exact ⟨x, (p.mem_reported external).mpr ⟨hx, by rw [hstart]; exact hloud⟩, hstart, hmessage⟩

theorem reportsCrossings_diagnostics (external : List External) (lint : Bool) :
    p.ReportsCrossings external (p.diagnostics external lint) := by
  have hfilter := p.filter_diagnostics external lint
  refine ⟨?_, ?_, ?_⟩
  · intro pos message
    rw [← exists_reported_iff]
    constructor
    · intro h
      obtain ⟨d, hd, hcategory, rfl, rfl⟩ := h
      have hmem : d ∈ (p.diagnostics external lint).filter
          (·.category = CheckerName.crossthread) :=
        List.mem_filter.mpr ⟨hd, decide_eq_true hcategory⟩
      rw [hfilter] at hmem
      obtain ⟨x, hx, rfl⟩ := List.mem_map.mp hmem
      exact ⟨x, hx, rfl, rfl⟩
    · intro h
      obtain ⟨x, hx, rfl, rfl⟩ := h
      have hmem := List.mem_map_of_mem
        (f := fun x => (finding (p.program external) x).diagnostic) hx
      rw [← hfilter] at hmem
      exact ⟨_, (List.mem_filter.mp hmem).1, rfl, rfl, rfl⟩
  · rw [hfilter, List.map_map]
    exact (List.filter_sublist.map _).nodup (nodup_map_distinctBy (shownAs _) _)
  · refine ⟨_, hfilter, ?_, ?_⟩
    · intro x hx
      have hfirst := ((p.mem_reported external).mp hx).1
      refine ⟨(p.mem_located external).mp (mem_of_mem_distinctBy hfirst), ?_⟩
      intro y hy hshown
      exact eq_or_of_mem_distinctBy hfirst (p.located_pairwise _)
        ((p.mem_located external).mpr hy) hshown
    · have hsub : (p.reported (p.program external)).Sublist (p.located (p.program external)) :=
        List.filter_sublist.trans (distinctBy_sublist _ _)
      refine ((p.located_pairwise _).sublist hsub).imp_of_mem fun {x y} hx hy hxy => ?_
      exact p.first_le_of_precedes ((p.mem_located external).mp (hsub.subset hx))
        ((p.mem_located external).mp (hsub.subset hy)) hxy

end Package

/--
**An analysis that succeeds reports the calls across threads, and nothing else as such.**
-/
theorem analyze_reports_crossings {r : Request} {ds : List Diagnostic} (h : analyze r = .ok ds) :
    ∃ external, External.load r.sources = .ok external ∧
      r.package.ReportsCrossings external ds := by
  unfold analyze at h
  split at h
  · split at h
    · rename_i external hload
      rw [← Except.ok.inj h]
      exact ⟨external, hload, r.package.reportsCrossings_diagnostics external r.lint⟩
    · cases h
  · cases h

/-- A package in which `run` calls `help`, which calls `load` of another thread twice, and
`load` itself, which an ignore directive silences. -/
def studio : Request where
  package := { files := [{
    name := "studio.go"
    package := { line := 1, column := 1 }
    comments := [
      [{ pos := { line := 3, column := 1 }, text := "//threadctl:thread Main" }],
      [{ pos := { line := 6, column := 2 }, text := "//threadctl:ignore" }],
      [{ pos := { line := 13, column := 1 }, text := "//threadctl:thread Worker" }]]
    funcs := [
      { name := "run", func := some run, pos := { line := 4, column := 1 }, doc := some 0,
        body := some [call help 5, call load 7] },
      { name := "help", func := some help, pos := { line := 9, column := 1 },
        body := some [call load 10, call load 11] },
      { name := "load", func := some load, pos := { line := 14, column := 1 }, doc := some 2,
        body := some [] }] }] }
where
  run : Func := { id := 0, name := "run" }
  help : Func := { id := 1, name := "help" }
  load : Func := { id := 2, name := "load" }
  call (f : Func) (line : Nat) : Stmt :=
    .expr (.call
      (.mk (.ident f.name (some f)) [] false { line, column := 2 } { line, column := 8 }))

/-- Of the two ways through `help` the first is reported. -/
def studioDiagnostics : List Diagnostic :=
  [{ pos := { line := 5, column := 2 }
     stop := some { line := 5, column := 8 }
     category := "crossthread"
     message := "forbidden cross-thread invocation: 'help() -> load()'"
     related := [{
       pos := { line := 10, column := 2 }
       message := "thread \"Worker\" entered here from thread \"Main\"" }] }]

theorem studio_violations {g : CallGraph 3}
    (hg : g = ⟨#v[
      { tags := { affinity := some ⟨"Main"⟩ }
        sites := [{ callee := some 1 }, { callee := some 2 }] },
      { sites := [{ callee := some 2 }, { callee := some 2 }] },
      { tags := { affinity := some ⟨"Worker"⟩ } }]⟩) :
    [0, 2].flatMap g.violations =
      [⟨0, ⟨"Main"⟩, { tag := ⟨"Worker"⟩, first := ⟨0, 0⟩, rest := [⟨1, 0⟩] }⟩,
        ⟨0, ⟨"Main"⟩, { tag := ⟨"Worker"⟩, first := ⟨0, 0⟩, rest := [⟨1, 1⟩] }⟩,
        ⟨0, ⟨"Main"⟩, { tag := ⟨"Worker"⟩, first := ⟨0, 1⟩ }⟩] := by
  subst hg
  cbv

theorem analyze_studio : analyze studio = .ok studioDiagnostics := by
  have hload : External.load studio.sources = .ok [] := rfl
  -- An exploration does not reduce, so its outcome is found on the graph alone.
  have hviolations := studio_violations (g := (studio.package.program []).graph) rfl
  have hfindings := studio.package.findings_of_violations
    (Package.callView (studio.package.program [])) hviolations
    (rfl : studio.package.findings [] = _)
  unfold analyze
  simp only [hload]
  unfold Package.diagnostics Package.crossings
  rw [hfindings]
  decide +kernel

theorem studio_reports_crossings :
    analyze studio = .ok studioDiagnostics ∧
      ∃ external, External.load studio.sources = .ok external ∧
        studio.package.ReportsCrossings external studioDiagnostics :=
  ⟨analyze_studio, analyze_reports_crossings analyze_studio⟩

end ThreadAffinity
