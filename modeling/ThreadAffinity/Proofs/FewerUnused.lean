/-
More checking reports fewer ignore directives as unused.

A directive is reported for what it has not silenced.  Questions only ever add to what it has
silenced, and an enabled checker only ever adds to what counts; so with more questions and more
checkers a directive that is still reported was reported before, for all the names that it is
still reported for.  The two rules, for directives with and without names, agree in that.

Checking directives as well asks more questions, after all others, and enables one more checker.
So it changes nothing that is reported about calls, and it adds no report about an ignore
directive at a place that had none.
-/
import ThreadAffinity.Proofs.Accounting

namespace ThreadAffinity

/-- Every checker that is listed is listed there too, and every enabled one is enabled there. -/
structure EnabledCheckers.Within (enabled more : EnabledCheckers) : Prop where
  lists : ∀ c, c ∈ enabled.map (·.1) → c ∈ more.map (·.1)
  enables : ∀ c, enabled.lookup c = some true → more.lookup c = some true

/-- A report about the same directive, for some of the names. -/
structure UnusedIgnore.Narrows (u v : UnusedIgnore) : Prop where
  pos : u.pos = v.pos
  checkers : u.checkers.Sublist v.checkers

/-! ### One directive -/

namespace Ignore

variable {enabled more : EnabledCheckers} {i j : Ignore}

/-- A directive that has silenced more, and of which more counts, is reported for less. -/
theorem unused?_narrows (hwithin : enabled.Within more) (hpos : j.pos = i.pos)
    (hcheckers : j.checkers = i.checkers) (hused : ∀ c ∈ i.used, c ∈ j.used) {u : UnusedIgnore}
    (hu : j.unused? more = some u) : ∃ v, i.unused? enabled = some v ∧ u.Narrows v := by
  unfold unused? at hu ⊢
  rw [hcheckers, hpos] at hu
  by_cases hnames : i.checkers.isEmpty = true
  · rw [if_pos hnames] at hu ⊢
    by_cases hany : j.used.any more.lists = true
    · rw [if_pos hany] at hu
      cases hu
    · have hnone : ¬ i.used.any enabled.lists = true := by
        intro h
        obtain ⟨c, hc, hlists⟩ := List.any_eq_true.mp h
        refine hany (List.any_eq_true.mpr ⟨c, hused c hc, ?_⟩)
        exact EnabledCheckers.lists_iff.mpr
          (hwithin.lists c (EnabledCheckers.lists_iff.mp hlists))
      rw [if_neg hany] at hu
      rw [if_neg hnone]
      exact ⟨_, rfl, Option.some.inj hu ▸ ⟨rfl, List.Sublist.refl _⟩⟩
  · rw [if_neg hnames] at hu ⊢
    have hsub : (i.checkers.filter fun c => ! (more.enables c && j.used.contains c)).Sublist
        (i.checkers.filter fun c => ! (enabled.enables c && i.used.contains c)) := by
      refine List.monotone_filter_right _ fun c hc => ?_
      simp only [EnabledCheckers.enables, Bool.not_eq_true', Bool.and_eq_false_iff,
        beq_eq_false_iff_ne, List.contains_eq_mem, decide_eq_false_iff_not] at hc ⊢
      exact hc.imp (fun h h' => h (hwithin.enables c h')) (fun h h' => h (hused c h'))
    split at hu
    · cases hu
    · rename_i names hne
      obtain rfl := Option.some.inj hu
      split
      · rename_i hnil
        rw [hnil, List.sublist_nil] at hsub
        exact absurd hsub hne
      · exact ⟨_, rfl, rfl, hsub⟩

end Ignore

/-! ### The directives of a file -/

namespace UnusedIgnore

/-- Some of the reports, in order, each narrowed. -/
abbrev Among (us vs : List UnusedIgnore) : Prop :=
  List.SublistForall₂ Narrows us vs

theorem Among.exists_mem {us vs : List UnusedIgnore} (h : Among us vs) {u : UnusedIgnore}
    (hu : u ∈ us) : ∃ v ∈ vs, u.Narrows v := by
  induction h with
  | nil => simp at hu
  | @cons a b us vs hab _ ih =>
      rcases List.mem_cons.mp hu with rfl | hu
      · exact ⟨b, List.mem_cons_self, hab⟩
      · obtain ⟨v, hv, huv⟩ := ih hu
        exact ⟨v, List.mem_cons_of_mem b hv, huv⟩
  | @cons_right b us vs _ ih =>
      obtain ⟨v, hv, huv⟩ := ih hu
      exact ⟨v, List.mem_cons_of_mem b hv, huv⟩

theorem Among.append {us vs us' vs' : List UnusedIgnore} (h : Among us vs) (h' : Among us' vs') :
    Among (us ++ us') (vs ++ vs') := by
  induction h with
  | @nil vs =>
      induction vs with
      | nil => exact h'
      | cons v vs ih => exact .cons_right ih
  | cons hab _ ih => exact .cons hab ih
  | cons_right _ ih => exact .cons_right ih

/-- What comes from the same directives one by one stays in order. -/
theorem Among.filterMap {α : Type} {f f' : α → Option UnusedIgnore} {l : List α}
    (h : ∀ a ∈ l, ∀ u, f' a = some u → ∃ v, f a = some v ∧ u.Narrows v) :
    Among (l.filterMap f') (l.filterMap f) := by
  induction l with
  | nil => exact .nil
  | cons a l ih =>
      have hrest := ih fun b hb => h b (List.mem_cons_of_mem a hb)
      cases hf' : f' a with
      | some u =>
          obtain ⟨v, hv, huv⟩ := h a List.mem_cons_self u hf'
          rw [List.filterMap_cons_some hf', List.filterMap_cons_some hv]
          exact .cons huv hrest
      | none =>
          rw [List.filterMap_cons_none hf']
          cases hf : f a with
          | none => rwa [List.filterMap_cons_none hf]
          | some v =>
              rw [List.filterMap_cons_some hf]
              exact .cons_right hrest

/-- Which reports are looked at may hang on their places. -/
theorem Among.filter {us vs : List UnusedIgnore} (h : Among us vs) (p : Pos → Bool) :
    Among (us.filter (p ·.pos)) (vs.filter (p ·.pos)) := by
  induction h with
  | nil => exact .nil
  | @cons a b us vs hab _ ih =>
      rw [List.filter_cons, List.filter_cons, hab.pos]
      split
      · exact .cons hab ih
      · exact ih
  | @cons_right b us vs _ ih =>
      rw [List.filter_cons]
      split
      · exact .cons_right ih
      · exact ih

/-- A directive comes in between those that are before it in the source and the others. -/
theorem sort_cons (u : UnusedIgnore) (us : List UnusedIgnore) :
    ∃ before after, sort us = before ++ after ∧ sort (u :: us) = before ++ u :: after ∧
      (sort us).filter (! u.pos.le ·.pos) = before ∧ (sort us).filter (u.pos.le ·.pos) = after := by
  have htrans : ∀ a b c : UnusedIgnore, a.pos.le b.pos = true → b.pos.le c.pos = true →
      a.pos.le c.pos = true := fun _ _ _ => Pos.le_trans
  have htotal : ∀ a b : UnusedIgnore, (a.pos.le b.pos || b.pos.le a.pos) = true :=
    fun a b => Pos.le_total a.pos b.pos
  obtain ⟨before, after, hsort, hrest, hbefore⟩ := List.mergeSort_cons htrans htotal u us
  have hsorted := sort_sorted (u :: us)
  rw [sort, hsort] at hsorted
  have hafter : ∀ v ∈ after, u.pos.le v.pos = true :=
    (List.pairwise_cons.mp (List.pairwise_append.mp hsorted).2.1).1
  refine ⟨before, after, hrest, hsort, ?_, ?_⟩
  · rw [sort, hrest, List.filter_append, List.filter_eq_self.mpr hbefore,
      List.filter_eq_nil_iff.mpr fun v hv => by simp [hafter v hv], List.append_nil]
  · rw [sort, hrest, List.filter_append, List.filter_eq_self.mpr hafter,
      List.filter_eq_nil_iff.mpr fun v hv => by simpa using hbefore v hv, List.nil_append]

theorem Among.sort {us vs : List UnusedIgnore} (h : Among us vs) :
    Among (UnusedIgnore.sort us) (UnusedIgnore.sort vs) := by
  induction h with
  | nil =>
      rw [UnusedIgnore.sort, List.mergeSort_nil]
      exact .nil
  | @cons a b us vs hab _ ih =>
      -- Both are put in the same place, since they are about the same directive.
      obtain ⟨_, _, -, hus, rfl, rfl⟩ := sort_cons a us
      obtain ⟨_, _, -, hvs, rfl, rfl⟩ := sort_cons b vs
      rw [hus, hvs, hab.pos]
      exact (ih.filter (! b.pos.le ·)).append (.cons hab (ih.filter (b.pos.le ·)))
  | @cons_right b us vs _ ih =>
      obtain ⟨before, after, hrest, hvs, -, -⟩ := sort_cons b vs
      rw [hrest] at ih
      obtain ⟨ws, hws, hsub⟩ := List.sublistForall₂_iff.mp ih
      refine List.sublistForall₂_iff.mpr ⟨ws, hws, hsub.trans ?_⟩
      rw [hvs]
      exact (List.sublist_cons_self b after).append_left before

end UnusedIgnore

namespace IgnoreTable

open UnusedIgnore (Among)

/-- Questions that come later take away no credit. -/
theorem mem_credits_append {table : IgnoreTable} {queries more : List Query} {line : Int}
    {c : CheckerName} (h : c ∈ table.credits queries line) :
    c ∈ table.credits (queries ++ more) line := by
  obtain ⟨q, hq, hline, hc⟩ := mem_credits.mp h
  exact mem_credits.mpr ⟨q, List.mem_append_left more hq, hline, hc⟩

/-- **More questions and more checkers leave fewer directives unused, each for fewer names.** -/
theorem unused_among (table : IgnoreTable) (queries more : List Query)
    {enabled others : EnabledCheckers} (hwithin : enabled.Within others) :
    Among ((table.askAll (queries ++ more)).2.unused others)
      ((table.askAll queries).2.unused enabled) := by
  unfold unused
  refine Among.sort ?_
  rw [askAll_snd, askAll_snd, List.filterMap_map, List.filterMap_map]
  refine Among.filterMap fun e _ u hu => ?_
  have hused : ∀ c ∈ table.credits queries e.1 ++ e.2.used,
      c ∈ table.credits (queries ++ more) e.1 ++ e.2.used := by
    intro c hc
    rcases List.mem_append.mp hc with hc | hc
    · exact List.mem_append_left _ (mem_credits_append hc)
    · exact List.mem_append_right _ hc
  exact Ignore.unused?_narrows hwithin
    (i := { e.2 with used := table.credits queries e.1 ++ e.2.used })
    (j := { e.2 with used := table.credits (queries ++ more) e.1 ++ e.2.used }) rfl rfl hused hu

end IgnoreTable

/-! ### The directives of a package -/

namespace Package

open UnusedIgnore (Among)

variable (p : Package)

theorem enabledCheckers_within : (enabledCheckers false).Within (enabledCheckers true) := by
  constructor
  · intro c hc
    exact List.mem_cons.mpr (Or.inl (by simpa [enabledCheckers] using hc))
  · intro c hc
    have hcross : c = CheckerName.crossthread := by
      by_contra hne
      simp [enabledCheckers, List.lookup_cons, beq_false_of_ne hne] at hc
    rw [hcross]
    decide

/-- The questions about directives come after all others. -/
theorem questions_true (external : List External) (file : String) :
    p.questions external true file = p.questions external false file ++
      IgnoreTables.questions CheckerName.directive p.lintReports file := by
  simp [questions]

theorem unused_tablesAfter_among (external : List External) (names : List String) :
    Among ((p.tablesAfter external true).unused (enabledCheckers true) names)
      ((p.tablesAfter external false).unused (enabledCheckers false) names) := by
  unfold IgnoreTables.unused
  induction names with
  | nil => exact .nil
  | cons name names ih =>
      rw [List.flatMap_cons, List.flatMap_cons]
      refine Among.append ?_ ih
      rw [lookup_tablesAfter, lookup_tablesAfter, questions_true]
      cases p.ignoreTables.lookup name with
      | none => exact .nil
      | some table =>
          rw [Option.map_some, Option.map_some, Option.elim_some, Option.elim_some]
          exact table.unused_among _ _ enabledCheckers_within

/-- There is a report that an ignore directive at a place is unused. -/
def ReportsUnused (ds : List Diagnostic) (pos : Pos) : Prop :=
  ∃ u : UnusedIgnore, u.pos = pos ∧ u.report ∈ ds

/-- Such a report is one of the unused directives, and no other diagnostic reads like it. -/
theorem reportsUnused_iff (external : List External) (lint : Bool) {pos : Pos} :
    ReportsUnused (p.diagnostics external lint) pos ↔
      ∃ u ∈ (p.tablesAfter external lint).unused (enabledCheckers lint)
        (p.files.map (·.shownName)), u.pos = pos := by
  obtain ⟨others, hothers, heq⟩ := p.diagnostics_eq_append external lint
  unfold ReportsUnused
  rw [heq]
  constructor
  · intro h
    obtain ⟨u, rfl, hmem⟩ := h
    rcases List.mem_append.mp hmem with hmem | hmem
    · exact absurd hmem (hothers u)
    · obtain ⟨v, hv, hreport⟩ := List.mem_map.mp hmem
      have hpos : v.pos = u.pos := congrArg Diagnostic.pos hreport
      exact ⟨v, hv, hpos⟩
  · intro h
    obtain ⟨u, hu, hpos⟩ := h
    exact ⟨u, hpos, List.mem_append_right _ (List.mem_map_of_mem hu)⟩

theorem reportsUnused_of_lint (external : List External) {pos : Pos}
    (h : ReportsUnused (p.diagnostics external true) pos) :
    ReportsUnused (p.diagnostics external false) pos := by
  obtain ⟨u, hu, hpos⟩ := (p.reportsUnused_iff external true).mp h
  obtain ⟨v, hv, huv⟩ := Among.exists_mem (p.unused_tablesAfter_among external _) hu
  exact (p.reportsUnused_iff external false).mpr ⟨v, hv, huv.pos ▸ hpos⟩

end Package

/-- Whether directives are checked has a say in the diagnostics only. -/
theorem analyze_lint (r : Request) (lint : Bool) :
    analyze { r with lint } =
      if r.inspected then
        match External.load r.sources with
        | .ok external => .ok (r.package.diagnostics external lint)
        | .error cause => .error (.external cause)
      else .error .notInspected := rfl

/-- **More checking only ever takes reports about unused directives away.**  For any table, after
more questions and with more checkers enabled, the directives reported as unused are some of those
reported before, in their order, each for some of the names.  So checking directives as well makes
no difference to whether a package is analysed, leaves the diagnostics for calls across threads as
they are, and reports no unused directive at a place where none was reported without it. -/
theorem more_checking_reports_less :
    (∀ (table : IgnoreTable) (queries more : List Query) (enabled others : EnabledCheckers),
      enabled.Within others →
        List.SublistForall₂ UnusedIgnore.Narrows ((table.askAll (queries ++ more)).2.unused others)
          ((table.askAll queries).2.unused enabled)) ∧
    ∀ r : Request,
      (∀ e, analyze { r with lint := true } = .error e ↔
        analyze { r with lint := false } = .error e) ∧
      ∀ ds linted, analyze { r with lint := false } = .ok ds →
        analyze { r with lint := true } = .ok linted →
        linted.filter (·.category = CheckerName.crossthread) =
          ds.filter (·.category = CheckerName.crossthread) ∧
        ∀ pos, Package.ReportsUnused linted pos → Package.ReportsUnused ds pos := by
  refine ⟨fun table queries more enabled others => table.unused_among queries more, fun r => ?_⟩
  rw [analyze_lint, analyze_lint]
  by_cases hinspected : r.inspected = true
  · rw [if_pos hinspected, if_pos hinspected]
    cases External.load r.sources with
    | error cause => simp
    | ok external =>
        refine ⟨by simp, ?_⟩
        intro ds linted hds hlinted
        rw [← Except.ok.inj hds, ← Except.ok.inj hlinted, Package.filter_diagnostics,
          Package.filter_diagnostics]
        exact ⟨rfl, fun pos => r.package.reportsUnused_of_lint external⟩
  · rw [if_neg hinspected, if_neg hinspected]
    simp

/-- A directive that nobody knows, below one that silences what is said about it. -/
def hushed : Request where
  package := { files := [{
    name := "hushed.go"
    package := { line := 1, column := 1 }
    comments := [
      [{ pos := { line := 3, column := 1 }, text := "//threadctl:ignore" },
        { pos := { line := 4, column := 1 }, text := "//threadctl:therad Main" }]] }] }

/-- The ignore directive has a use only where directives are checked. -/
theorem hushed_reports_less :
    analyze { hushed with lint := false } =
      .ok [UnusedIgnore.report { pos := { line := 3, column := 1 }, checkers := [] }] ∧
    analyze { hushed with lint := true } = .ok [] ∧
    ([] : List Diagnostic).filter (·.category = CheckerName.crossthread) =
      [UnusedIgnore.report { pos := { line := 3, column := 1 }, checkers := [] }].filter
        (·.category = CheckerName.crossthread) ∧
    (Package.enabledCheckers false).Within (Package.enabledCheckers true) ∧
    List.SublistForall₂ UnusedIgnore.Narrows
      (((IgnoreTable.build relay).askAll
        ([⟨4, CheckerName.crossthread⟩] ++ [⟨3, CheckerName.directive⟩])).2.unused
          (Package.enabledCheckers true))
      (((IgnoreTable.build relay).askAll [⟨4, CheckerName.crossthread⟩]).2.unused
        (Package.enabledCheckers false)) := by
  have hload : External.load hushed.sources = .ok [] := rfl
  have hquiet : analyze { hushed with lint := false } =
      .ok [UnusedIgnore.report { pos := { line := 3, column := 1 }, checkers := [] }] := by
    rw [analyze_lint, hload]
    decide +kernel
  have hlinted : analyze { hushed with lint := true } = .ok [] := by
    rw [analyze_lint, hload]
    decide +kernel
  exact ⟨hquiet, hlinted, ((more_checking_reports_less.2 hushed).2 _ _ hquiet hlinted).1,
    Package.enabledCheckers_within,
    more_checking_reports_less.1 _ _ _ _ _ Package.enabledCheckers_within⟩

end ThreadAffinity
