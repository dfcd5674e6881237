/-
Calls that enter another thread directly.

Such a call is reported at its own place and in the same words as every other one.  Two calls
can start at the same place: a method that is called on what another call gives.  Of findings
at one place and in the same words only the first is reported, so of several direct calls into
other threads that start at one place the first is reported and the others are not.
-/
import ThreadAffinity.Proofs.CrossThread
import ThreadAffinity.Proofs.ProgramGraph
import ThreadAffinity.Proofs.Wording

namespace ThreadAffinity

/-- A call comes before another one: by the declarations of their owners, then in the body. -/
def SiteId.Before {n : Nat} (r s : SiteId n) : Prop :=
  r.owner < s.owner ∨ r.owner = s.owner ∧ r.index < s.index

theorem SiteId.Before.asymm {n : Nat} {r s : SiteId n} (h : r.Before s) : ¬ s.Before r := by
  unfold SiteId.Before at *
  omega

/-- Different calls of a program differ in where they start or in where they stop. -/
def Program.CallsApart (prog : Program) : Prop :=
  ∀ r s c d, prog.call? r = some c → prog.call? s = some d →
    c.start = d.start → c.stop = d.stop → r = s

/-- The report about a direct call from one thread into another. -/
def directReport (c : Call) (rootTag tag : Tag) : Diagnostic where
  pos := c.start
  stop := some c.stop
  category := CheckerName.crossthread
  message := "forbidden cross-thread invocation"
  related := [{
    pos := c.start
    message := "thread " ++ Text.quoted tag.text ++ " entered here from thread " ++
      Text.quoted rootTag.text }]

namespace Package

variable (p : Package)

/-- The call at a site stands in the body of a root that is checked, it calls a member of
another thread, and the innermost dispatching call around it does not hand it over there. -/
structure CrossesDirectly (prog : Program) (s : SiteId prog.size) (c : Call)
    (rootTag tag : Tag) : Prop where
  checks : p.Checks prog s.owner
  call : prog.call? s = some c
  root : (prog.members.get s.owner).tags.affinity = some rootTag
  callee : ∃ m, prog.resolveCall? c = some m ∧ (prog.members.get m).tags.affinity = some tag
  differs : tag ≠ rootTag
  unexempted : ¬ prog.graph.HandedTo s tag

variable {p} {prog : Program} {s : SiteId prog.size} {c : Call} {rootTag tag : Tag}

/-! ### Direct calls and violations of one call -/

theorem CrossesDirectly.mem_violations (h : p.CrossesDirectly prog s c rootTag tag) :
    { root := s.owner, rootTag, chain := { tag, first := s } } ∈
      prog.graph.violations s.owner := by
  obtain ⟨m, hm, htag⟩ := h.callee
  have hcallee : prog.graph.callee? s = some m := by
    rw [prog.callee?_graph, h.call]
    exact hm
  have htags : (prog.graph.tags m).affinity = some tag := by rw [prog.tags_graph, htag]
  have hroot : (prog.graph.tags s.owner).affinity = some rootTag := by
    rw [prog.tags_graph, h.root]
  have hpath : { tag, first := s } ∈ prog.graph.boundaryPaths s.owner rootTag :=
    CallGraph.mem_boundaryPaths.mpr ⟨prog.mem_sites_graph.mpr ⟨rfl, c, h.call⟩,
      CallGraph.Leads.reach hcallee htags, List.nodup_singleton _, h.differs⟩
  obtain ⟨xs, hchains, hsum⟩ := prog.graph.boundaryChains_summary s.owner rootTag
  obtain ⟨x, hx, hends⟩ := hsum.covers _ hpath
  -- Whatever chain is kept for these ends starts with the call, so the call is all of it.
  obtain ⟨-, hleads, -⟩ := CallGraph.mem_boundaryPaths.mp (hsum.kept x hx)
  have hfirst : x.chain.first = s := congrArg Prod.fst hends
  have hxc : x.chain = { tag, first := s } := by
    rw [Chain.sites, hfirst] at hleads
    obtain ⟨hrest, hxtag⟩ := (CallGraph.leads_iff_of_tagged hcallee htags).mp hleads
    rw [← hfirst, ← hrest, ← hxtag]
  refine (CallGraph.mem_violations hroot).mpr ⟨rfl, rfl, ?_, ?_⟩
  · rw [hchains, ← hxc]
    exact List.mem_map_of_mem hx
  · refine CallGraph.exempts_eq_false_iff.mpr fun r hr => ?_
    rw [List.mem_singleton.mp hr]
    exact h.unexempted

theorem crossesDirectly_of_mem_violations {root : Fin prog.size} {v : Violation prog.size}
    (hroot : p.Checks prog root) (hv : v ∈ prog.graph.violations root) (hrest : v.chain.rest = []) :
    ∃ c, p.CrossesDirectly prog v.chain.first c v.rootTag v.chain.tag ∧
      v.chain.first.owner = root := by
  obtain ⟨rootTag, htag⟩ := Option.ne_none_iff_exists'.mp hroot.1
  rw [← prog.tags_graph] at htag
  obtain ⟨-, hrootTag, hchain, hexempt⟩ := (CallGraph.mem_violations htag).mp hv
  obtain ⟨xs, hchains, hsum⟩ := prog.graph.boundaryChains_summary root rootTag
  rw [hchains] at hchain
  obtain ⟨x, hx, hxv⟩ := List.mem_map.mp hchain
  have hpath := hsum.kept x hx
  rw [hxv] at hpath
  obtain ⟨hfirst, hleads, -, hdiffers⟩ := CallGraph.mem_boundaryPaths.mp hpath
  obtain ⟨howner, c, hc⟩ := prog.mem_sites_graph.mp hfirst
  refine ⟨c, ⟨howner ▸ hroot, hc, ?_, ?_, hrootTag ▸ hdiffers, ?_⟩, howner⟩
  · rw [howner, hrootTag, ← prog.tags_graph, htag]
  · rw [Chain.sites, hrest] at hleads
    cases hleads with
    | reach hs hm =>
        rw [prog.callee?_graph, hc] at hs
        rw [prog.tags_graph] at hm
        exact ⟨_, hs, hm⟩
  · exact CallGraph.exempts_eq_false_iff.mp hexempt _ List.mem_cons_self

theorem CrossesDirectly.unique {c' : Call} {rootTag' tag' : Tag}
    (h : p.CrossesDirectly prog s c rootTag tag) (h' : p.CrossesDirectly prog s c' rootTag' tag') :
    c = c' ∧ rootTag = rootTag' ∧ tag = tag' := by
  have hcall : c = c' := Option.some.inj (h.call.symm.trans h'.call)
  subst hcall
  obtain ⟨m, hm, htag⟩ := h.callee
  obtain ⟨m', hm', htag'⟩ := h'.callee
  rw [Option.some.inj (hm'.symm.trans hm)] at htag'
  exact ⟨rfl, Option.some.inj (h.root.symm.trans h'.root), Option.some.inj (htag.symm.trans htag')⟩

/-! ### Reports in the direct words -/

theorem rest_eq_nil_of_message {v : Violation prog.size}
    (h : (Finding.ofViolation (callView prog) v).message = "forbidden cross-thread invocation") :
    v.chain.rest = [] := by
  have hroute := Finding.message_eq_direct_iff.mp h
  unfold Finding.ofViolation at hroute
  by_contra hne
  rw [if_neg (by rwa [List.isEmpty_iff])] at hroute
  cases hroute

theorem start_ofViolation {v : Violation prog.size} (hc : prog.call? v.chain.first = some c) :
    (Finding.ofViolation (callView prog) v).start = c.start := by
  show (callView prog v.chain.first).start = _
  rw [callView, hc]

theorem diagnostic_of_direct {v : Violation prog.size} (hrest : v.chain.rest = [])
    (hc : prog.call? v.chain.first = some c) :
    (Finding.ofViolation (callView prog) v).diagnostic = directReport c v.rootTag v.chain.tag := by
  have hview : callView prog v.chain.first =
      { start := c.start, stop := c.stop, text := c.text } := by
    rw [callView, hc]
  have hlast : v.chain.last = v.chain.first := by
    rw [Chain.last, hrest]
    rfl
  have hfinding : Finding.ofViolation (callView prog) v =
      { start := c.start, stop := c.stop, boundary := c.start,
        rootTag := v.rootTag, tag := v.chain.tag } := by
    rw [Finding.ofViolation, hlast, hview, hrest]
    rfl
  rw [hfinding]
  rfl

/-- A direct call is among the violations, and is shown where it starts. -/
theorem CrossesDirectly.exists_violates (h : p.CrossesDirectly prog s c rootTag tag) :
    ∃ y : Located prog.size, p.Violates prog y ∧ y.violation.chain.first = s ∧
      s.owner = y.root ∧ shownAs prog y = (c.start, "forbidden cross-thread invocation") := by
  obtain ⟨place, hplace⟩ := List.mem_iff_getElem?.mp h.mem_violations
  refine ⟨{ root := s.owner, place, violation := _ }, ⟨h.checks, hplace⟩, rfl, rfl, ?_⟩
  exact Prod.ext (start_ofViolation h.call) rfl

variable (p) in
/-- No direct call that starts where the given one starts comes before it. -/
def FirstAt (prog : Program) (s : SiteId prog.size) (c : Call) : Prop :=
  ∀ r d rootTag tag, p.CrossesDirectly prog r d rootTag tag → d.start = c.start →
    r = s ∨ s.Before r

theorem eq_or_before_of_precedes {x y : Located prog.size} (hx : p.Violates prog x)
    (hy : p.Violates prog y) (hxy : x = y ∨ x.Precedes y)
    (hxo : x.violation.chain.first.owner = x.root)
    (hyo : y.violation.chain.first.owner = y.root) :
    y.violation.chain.first = x.violation.chain.first ∨
      x.violation.chain.first.Before y.violation.chain.first := by
  rcases hxy with rfl | hxy
  · exact Or.inl rfl
  · unfold SiteId.Before
    rw [hxo, hyo]
    rcases p.first_le_of_precedes hx hy hxy with hlt | ⟨hroot, hle⟩
    · exact Or.inr (Or.inl hlt)
    · rcases Nat.lt_or_eq_of_le hle with hlt | heq
      · exact Or.inr (Or.inr ⟨hroot, hlt⟩)
      · exact Or.inl (SiteId.ext (by rw [hxo, hyo, hroot]) heq.symm)

/-- What diagnostics say about the direct calls of a program. -/
structure ReportsDirectCalls (p : Package) (prog : Program) (ds : List Diagnostic) : Prop where
  /-- Those in the direct words are the reports about the direct calls that nothing silences
  and that are the first where they start. -/
  direct_iff : ∀ d, (d ∈ ds ∧ d.category = CheckerName.crossthread ∧
      d.message = "forbidden cross-thread invocation") ↔
    ∃ s c rootTag tag, p.CrossesDirectly prog s c rootTag tag ∧
      ¬ p.Silenced CheckerName.crossthread c.start ∧ p.FirstAt prog s c ∧
      d = directReport c rootTag tag
  /-- So a direct call that nothing silences has a report of its own exactly if it is the
  first where it starts. -/
  own_iff : prog.CallsApart → ∀ s c rootTag tag, p.CrossesDirectly prog s c rootTag tag →
    ¬ p.Silenced CheckerName.crossthread c.start →
    (directReport c rootTag tag ∈ ds ↔ p.FirstAt prog s c)

section

variable {external : List External}

/-- A violation that is reported in the direct words is a direct call, the first at its place. -/
theorem crossesDirectly_of_mem_distinct {x : Located (p.program external).size}
    (hx : x ∈ distinctBy (shownAs (p.program external)) (p.located (p.program external)))
    (hmessage : (finding (p.program external) x).message = "forbidden cross-thread invocation") :
    ∃ c, p.CrossesDirectly (p.program external) x.violation.chain.first c x.violation.rootTag
        x.violation.chain.tag ∧
      (finding (p.program external) x).start = c.start ∧
      (finding (p.program external) x).diagnostic =
        directReport c x.violation.rootTag x.violation.chain.tag ∧
      p.FirstAt (p.program external) x.violation.chain.first c := by
  have hviolates := (p.mem_located external).mp (mem_of_mem_distinctBy hx)
  have hrest := rest_eq_nil_of_message hmessage
  obtain ⟨c, hc, howner⟩ := crossesDirectly_of_mem_violations hviolates.1
    (List.mem_of_getElem? hviolates.2) hrest
  have hstart := start_ofViolation hc.call
  refine ⟨c, hc, hstart, diagnostic_of_direct hrest hc.call, ?_⟩
  intro r d rootTag tag hr hd
  -- The other call is shown at the same place and in the same words.
  obtain ⟨y, hy, rfl, hyowner, hyshown⟩ := hr.exists_violates
  have hshown : shownAs (p.program external) y = shownAs (p.program external) x := by
    rw [hyshown, hd, ← hstart, ← hmessage]
    rfl
  have hxy := eq_or_of_mem_distinctBy hx (p.located_pairwise _)
    ((p.mem_located external).mpr hy) hshown
  exact eq_or_before_of_precedes hviolates hy hxy howner hyowner

/-- The first direct call at a place stands for all that are shown there in the direct words. -/
theorem CrossesDirectly.exists_mem_distinct {s : SiteId (p.program external).size}
    (h : p.CrossesDirectly (p.program external) s c rootTag tag)
    (hfirst : p.FirstAt (p.program external) s c) :
    ∃ x ∈ distinctBy (shownAs (p.program external)) (p.located (p.program external)),
      (finding (p.program external) x).start = c.start ∧
      (finding (p.program external) x).diagnostic = directReport c rootTag tag := by
  obtain ⟨y, hy, -, -, hyshown⟩ := h.exists_violates
  obtain ⟨x, hx, hshown⟩ := exists_mem_distinctBy (shownAs (p.program external))
    ((p.mem_located external).mpr hy)
  rw [hyshown] at hshown
  have hmessage : (finding (p.program external) x).message = "forbidden cross-thread invocation" :=
    congrArg Prod.snd hshown
  have hstart : (finding (p.program external) x).start = c.start := congrArg Prod.fst hshown
  obtain ⟨d, hd, hdstart, hreport, hxfirst⟩ := crossesDirectly_of_mem_distinct hx hmessage
  have hsame : d.start = c.start := hdstart.symm.trans hstart
  have hsite : x.violation.chain.first = s := by
    rcases hfirst _ _ _ _ hd hsame with heq | hbefore
    · exact heq
    · rcases hxfirst _ _ _ _ h hsame.symm with heq | hafter
      · exact heq.symm
      · exact absurd hafter hbefore.asymm
  rw [hsite] at hd
  obtain ⟨rfl, hroot, htag⟩ := hd.unique h
  rw [hroot, htag] at hreport
  exact ⟨x, hx, hstart, hreport⟩

theorem reportsDirectCalls_diagnostics (external : List External) (lint : Bool) :
    p.ReportsDirectCalls (p.program external) (p.diagnostics external lint) := by
  have hdirect : ∀ d, (d ∈ p.diagnostics external lint ∧ d.category = CheckerName.crossthread ∧
      d.message = "forbidden cross-thread invocation") ↔
    ∃ s c rootTag tag, p.CrossesDirectly (p.program external) s c rootTag tag ∧
      ¬ p.Silenced CheckerName.crossthread c.start ∧ p.FirstAt (p.program external) s c ∧
      d = directReport c rootTag tag := by
    intro d
    have hmem : d ∈ p.diagnostics external lint ∧ d.category = CheckerName.crossthread ↔
        d ∈ (p.reported (p.program external)).map
          fun x => (finding (p.program external) x).diagnostic := by
      rw [← p.filter_diagnostics external lint, List.mem_filter, decide_eq_true_eq]
    rw [← and_assoc, hmem, List.mem_map]
    constructor
    · rintro ⟨⟨x, hx, rfl⟩, hmessage⟩
      obtain ⟨hkept, hloud⟩ := (p.mem_reported external).mp hx
      obtain ⟨c, hc, hstart, hreport, hfirst⟩ := crossesDirectly_of_mem_distinct hkept hmessage
      rw [hstart] at hloud
      exact ⟨_, c, _, _, hc, hloud, hfirst, hreport⟩
    · rintro ⟨s, c, rootTag, tag, hc, hloud, hfirst, rfl⟩
      obtain ⟨x, hx, hstart, hreport⟩ := hc.exists_mem_distinct hfirst
      rw [← hstart] at hloud
      exact ⟨⟨x, (p.mem_reported external).mpr ⟨hx, hloud⟩, hreport⟩, rfl⟩
  refine ⟨hdirect, ?_⟩
  intro hapart s c rootTag tag hc hloud
  have hown : directReport c rootTag tag ∈ p.diagnostics external lint ↔
      directReport c rootTag tag ∈ p.diagnostics external lint ∧
        (directReport c rootTag tag).category = CheckerName.crossthread ∧
        (directReport c rootTag tag).message = "forbidden cross-thread invocation" :=
    ⟨fun h => ⟨h, rfl, rfl⟩, And.left⟩
  rw [hown, hdirect]
  constructor
  · rintro ⟨r, d, rootTag', tag', hd, -, hfirst, hsame⟩
    have hrs : s = r := hapart s r c d hc.call hd.call (congrArg Diagnostic.pos hsame)
      (Option.some.inj (congrArg Diagnostic.stop hsame))
    subst hrs
    obtain ⟨rfl, -, -⟩ := hc.unique hd
    exact hfirst
  · intro hfirst
    exact ⟨s, c, rootTag, tag, hc, hloud, hfirst, rfl⟩

end

end Package

/--
**An analysis that succeeds reports the first of the direct calls into other threads that
start at one place.**
-/
theorem analyze_reports_direct_calls {r : Request} {ds : List Diagnostic}
    (h : analyze r = .ok ds) :
    ∃ external, External.load r.sources = .ok external ∧
      r.package.ReportsDirectCalls (r.package.program external) ds := by
  obtain ⟨external, hload, hds⟩ := diagnostics_of_analyze h
  rw [hds]
  exact ⟨external, hload, Package.reportsDirectCalls_diagnostics external r.lint⟩

/-- A package in which `draw` calls `flush` of one thread on what `open` of another gives, so
both calls start at the same place. -/
def chained : Request where
  package := { files := [{
    name := "app.go"
    package := { line := 1, column := 1 }
    comments := [
      [{ pos := { line := 3, column := 1 }, text := "//threadctl:thread Main" }],
      [{ pos := { line := 8, column := 1 }, text := "//threadctl:thread Worker" }],
      [{ pos := { line := 11, column := 1 }, text := "//threadctl:thread Disk" }]]
    funcs := [
      { name := "draw", func := some draw, pos := { line := 4, column := 1 }, doc := some 0,
        body := some [.expr (.call flushed)] },
      { name := "open", func := some opens, pos := { line := 9, column := 1 }, doc := some 1,
        body := some [] },
      { name := "Flush", func := some flush, pos := { line := 12, column := 1 }, doc := some 2,
        body := some [] }] }] }
where
  draw : Func := { id := 0, name := "draw" }
  opens : Func := { id := 1, name := "open" }
  flush : Func := { id := 2, name := "Flush" }
  opened : Call := .mk (.ident "open" (some opens)) [] false
    { line := 5, column := 2 } { line := 5, column := 8 }
  flushed : Call := .mk (.selector (.call opened) "Flush" (some flush)) [] false
    { line := 5, column := 2 } { line := 5, column := 16 }

/-- The call of `open` is not among them. -/
def chainedDiagnostics : List Diagnostic :=
  [directReport chained.flushed ⟨"Main"⟩ ⟨"Disk"⟩]

theorem chained_violations {g : CallGraph 3}
    (hg : g = ⟨#v[
      { tags := { affinity := some ⟨"Main"⟩ }
        sites := [{ callee := some 2 }, { callee := some 1, enclosing := [2] }] },
      { tags := { affinity := some ⟨"Worker"⟩ } },
      { tags := { affinity := some ⟨"Disk"⟩ } }]⟩) :
    [0, 1, 2].flatMap g.violations =
      [⟨0, ⟨"Main"⟩, { tag := ⟨"Disk"⟩, first := ⟨0, 0⟩ }⟩,
        ⟨0, ⟨"Main"⟩, { tag := ⟨"Worker"⟩, first := ⟨0, 1⟩ }⟩] := by
  subst hg
  cbv

theorem analyze_chained : analyze chained = .ok chainedDiagnostics := by
  have hload : External.load chained.sources = .ok [] := rfl
  have hviolations := chained_violations (g := (chained.package.program []).graph) rfl
  have hfindings := chained.package.findings_of_violations
    (Package.callView (chained.package.program [])) hviolations
    (rfl : chained.package.findings [] = _)
  unfold analyze
  simp only [hload]
  unfold Package.diagnostics Package.crossings
  rw [hfindings]
  decide +kernel

theorem chained_reports_direct_calls :
    analyze chained = .ok chainedDiagnostics ∧
      ∃ external, External.load chained.sources = .ok external ∧
        chained.package.ReportsDirectCalls (chained.package.program external)
          chainedDiagnostics :=
  ⟨analyze_chained, analyze_reports_direct_calls analyze_chained⟩

/-- The call of `open` enters another thread directly, and is not reported. -/
theorem chained_open_unreported :
    analyze chained = .ok chainedDiagnostics ∧ External.load chained.sources = .ok [] ∧
      (∃ s, chained.package.CrossesDirectly (chained.package.program []) s chained.opened
        ⟨"Main"⟩ ⟨"Worker"⟩) ∧
      ¬ chained.package.Silenced CheckerName.crossthread chained.opened.start ∧
      directReport chained.opened ⟨"Main"⟩ ⟨"Worker"⟩ ∉ chainedDiagnostics := by
  have hdirectives : (chained.package.tagIndex []).directives =
      [(chained.draw, { affinity := some ⟨"Main"⟩ }),
        (chained.opens, { affinity := some ⟨"Worker"⟩ }),
        (chained.flush, { affinity := some ⟨"Disk"⟩ })] := by decide
  have hindex : chained.package.tagIndex [] = { directives := _, external := [] } :=
    congrArg (fun ds => TagIndex.mk ds []) hdirectives
  have hignore : chained.package.ignoreTables = [("app.go", [])] := by decide
  refine ⟨analyze_chained, rfl, ?_, ?_, by decide⟩
  · unfold Package.program
    rw [hindex]
    refine ⟨{ owner := ⟨0, by decide⟩, index := 1 }, ?_⟩
    exact
      { checks := ⟨by decide, _, rfl, by decide⟩
        call := rfl
        root := rfl
        callee := ⟨⟨1, by decide⟩, by decide, rfl⟩
        differs := by decide
        unexempted := by decide }
  · unfold Package.Silenced
    rw [← IgnoreTables.shouldIgnore_iff, hignore]
    decide

end ThreadAffinity
