/-
Violations, against plain reachability.

A root has a violation between two calls exactly if some sequence of calls leads from the
one to the other into another thread and no call of the sequence is handed to that thread.
The sequence may come back to members as often as it likes; a chain never does.  So a
sequence has to be cut down: wherever it enters a member for the second time, what lies
between is left out.  That takes calls away and adds none, so what was not exempt stays so,
and it keeps the last call.  It also keeps the first one, because the root has a tag of its
own and no sequence runs through it.
-/
import ThreadAffinity.Proofs.BoundaryChains

namespace ThreadAffinity

variable {n : Nat}

namespace CallGraph

variable {g : CallGraph n}

/-! ### Cutting a sequence down -/

theorem Leads.of_append {t : Tag} {r : SiteId n} {after : List (SiteId n)} :
    ∀ {before : List (SiteId n)}, g.Leads (before ++ r :: after) t → g.Leads (r :: after) t := by
  intro before
  induction before with
  | nil => intro h; exact h
  | cons s before ih =>
      intro h
      cases before with
      | nil =>
          cases h with
          | enter _ _ _ h => exact h
      | cons q before =>
          cases h with
          | enter _ _ _ h => exact ih h

/-- The calls after the first stand in the bodies of members without affinity tag. -/
theorem Leads.mem_body {t : Tag} {calls : List (SiteId n)} (h : g.Leads calls t) :
    ∀ r ∈ calls.tail, r ∈ g.sites r.owner ∧ (g.tags r.owner).affinity = none := by
  induction h with
  | reach _ _ => intro r hr; simp at hr
  | enter _ hm hr _ ih =>
      intro q hq
      rw [List.tail_cons] at hq ih
      rcases List.mem_cons.mp hq with rfl | hq
      · have howner := (g.mem_sites.mp hr).1
        rw [howner]
        exact ⟨hr, hm⟩
      · exact ih q hq

/-- **Every sequence that leads to a tag can be cut down to one that enters no member twice**,
from the same first to the same last call and with no other calls. -/
theorem Leads.exists_simple {t : Tag} {calls : List (SiteId n)} (h : g.Leads calls t) :
    ∃ short, g.Leads short t ∧ short.head? = calls.head? ∧ short.getLast? = calls.getLast? ∧
      short.Sublist calls ∧ (short.tail.map (·.owner)).Nodup := by
  induction h with
  | @reach s m t hs hm =>
      exact ⟨[s], Leads.reach hs hm, rfl, rfl, List.Sublist.refl _, List.nodup_nil⟩
  | @enter s r m rest t hs hm hr _ ih =>
      obtain ⟨short, hleads, hhead, hlast, hsub, hnd⟩ := ih
      obtain ⟨tail, rfl⟩ := List.head?_eq_some_iff.mp hhead
      rw [List.tail_cons] at hnd
      by_cases hback : r.owner ∈ tail.map (·.owner)
      · -- The member that is entered here comes again: go on from its later call.
        obtain ⟨q, hq, howner⟩ := List.mem_map.mp hback
        have hbody : q ∈ g.sites m := by
          rw [← (g.mem_sites.mp hr).1, ← howner]
          exact (hleads.mem_body q hq).1
        obtain ⟨before, after, rfl⟩ := List.append_of_mem hq
        have hqsub : (q :: after).Sublist (before ++ q :: after) :=
          List.sublist_append_right _ _
        rw [← List.cons_append] at hleads hlast
        refine ⟨s :: q :: after, Leads.enter hs hm hbody hleads.of_append, rfl, ?_, ?_, ?_⟩
        · rw [List.getLast?_cons_cons, List.getLast?_cons_cons, ← hlast,
            List.getLast?_append_cons]
        · exact ((hqsub.trans (List.sublist_cons_self _ _)).trans hsub).cons_cons s
        · exact (hqsub.map _).nodup hnd
      · refine ⟨s :: r :: tail, Leads.enter hs hm hr hleads, rfl, ?_, hsub.cons_cons s, ?_⟩
        · rw [List.getLast?_cons_cons, List.getLast?_cons_cons, hlast]
        · rw [List.tail_cons, List.map_cons, List.nodup_cons]
          exact ⟨hback, hnd⟩

/-! ### Violations -/

/-- A site is handed over to the thread with a given tag: of the calls around it, the innermost
one that calls a dispatching member dispatches there. -/
def HandedTo (g : CallGraph n) (s : SiteId n) (t : Tag) : Prop :=
  ∃ site inner m outer, g.site? s = some site ∧ site.enclosing = inner ++ m :: outer ∧
    (g.tags m).dispatch = some t ∧ ∀ k ∈ inner, (g.tags k).dispatch = none

theorem dispatch?_eq_some_iff {s : SiteId n} {t : Tag} :
    g.dispatch? s = some t ↔ g.HandedTo s t := by
  simp only [dispatch?, Option.bind_eq_some_iff, List.findSome?_eq_some_iff, HandedTo]
  constructor
  · rintro ⟨site, hsite, inner, m, outer, hcalls, hm, hinner⟩
    exact ⟨site, inner, m, outer, hsite, hcalls, hm, hinner⟩
  · rintro ⟨site, inner, m, outer, hsite, hcalls, hm, hinner⟩
    exact ⟨site, hsite, inner, m, outer, hcalls, hm, hinner⟩

instance (g : CallGraph n) (s : SiteId n) (t : Tag) : Decidable (g.HandedTo s t) :=
  decidable_of_iff _ dispatch?_eq_some_iff

theorem exempts_eq_false_iff {t : Tag} {calls : List (SiteId n)} :
    g.exempts t calls = false ↔ ∀ s ∈ calls, ¬ g.HandedTo s t := by
  simp only [exempts, List.any_eq_false, handsTo, beq_iff_eq, dispatch?_eq_some_iff]

theorem mem_violations {root : Fin n} {rootTag : Tag}
    (hroot : (g.tags root).affinity = some rootTag) {v : Violation n} :
    v ∈ g.violations root ↔ v.root = root ∧ v.rootTag = rootTag ∧
      v.chain ∈ g.boundaryChains root rootTag ∧
        g.exempts v.chain.tag v.chain.sites = false := by
  obtain ⟨r, t, c⟩ := v
  rw [violations, hroot]
  simp only [List.mem_map, List.mem_filter, Violation.mk.injEq, Bool.not_eq_true']
  constructor
  · intro h
    obtain ⟨d, ⟨hd, hfree⟩, rfl, rfl, rfl⟩ := h
    exact ⟨rfl, rfl, hd, hfree⟩
  · intro h
    obtain ⟨rfl, rfl, hc, hfree⟩ := h
    exact ⟨c, ⟨hc, hfree⟩, rfl, rfl, rfl⟩

/-- The violations of a root are chains of a summary, in its order. -/
theorem violations_sublist (g : CallGraph n) (root : Fin n) :
    ∃ xs paths, g.Summary xs paths ∧
      ((g.violations root).map (·.chain)).Sublist (xs.map (·.chain)) := by
  rw [violations]
  split
  · exact ⟨[], [], Summary.nil, List.nil_sublist _⟩
  · rename_i rootTag _
    obtain ⟨xs, hchains, h⟩ := g.boundaryChains_summary root rootTag
    refine ⟨xs, _, h, ?_⟩
    rw [← hchains, List.map_map]
    exact (List.map_id _).symm ▸ List.filter_sublist

theorem nodup_ends_violations (g : CallGraph n) (root : Fin n) :
    ((g.violations root).map (·.chain.ends)).Nodup := by
  obtain ⟨xs, paths, h, hsub⟩ := g.violations_sublist root
  have hends := hsub.map Chain.ends
  rw [List.map_map, List.map_map] at hends
  exact hends.nodup h.distinct

theorem violations_grouped (g : CallGraph n) (root : Fin n) :
    (g.violations root).Pairwise fun v w => v.chain.first.index ≤ w.chain.first.index := by
  obtain ⟨xs, paths, h, hsub⟩ := g.violations_sublist root
  have hgrouped : (xs.map (·.chain)).Pairwise (·.first.index ≤ ·.first.index) :=
    List.pairwise_map.mpr h.grouped
  have := hgrouped.sublist hsub
  rw [List.pairwise_map] at this
  exact this

/--
Some sequence of calls leads from call `f` of the root's body to call `b` of a member whose
affinity tag `t` is not the root's, and none of its calls is handed over to `t`.  Members
may come more than once.
-/
def Crosses (g : CallGraph n) (root : Fin n) (rootTag : Tag) (f b : SiteId n) (t : Tag) : Prop :=
  f ∈ g.sites root ∧ t ≠ rootTag ∧ ∃ rest : List (SiteId n),
    g.Leads (f :: rest) t ∧ (f :: rest).getLast? = some b ∧
      ∀ s ∈ f :: rest, ¬ g.HandedTo s t

/-- A sequence that crosses can be cut down to one of the paths from the root. -/
theorem Crosses.exists_path {root : Fin n} {rootTag t : Tag} {f b : SiteId n}
    (hroot : (g.tags root).affinity = some rootTag) (h : g.Crosses root rootTag f b t) :
    ∃ c ∈ g.boundaryPaths root rootTag, c.ends = (f, b) ∧ c.tag = t ∧
      g.exempts c.tag c.sites = false := by
  obtain ⟨hf, ht, rest, hleads, hlast, hfree⟩ := h
  obtain ⟨short, hshort, hhead, hlast', hsub, hnd⟩ := hleads.exists_simple
  obtain ⟨tail, rfl⟩ := List.head?_eq_some_iff.mp hhead
  refine ⟨{ tag := t, first := f, rest := tail }, mem_boundaryPaths.mpr ⟨hf, hshort, ?_, ht⟩,
    ?_, rfl, exempts_eq_false_iff.mpr fun s hs => hfree s (hsub.subset hs)⟩
  · rw [Chain.sites, List.map_cons, List.nodup_cons]
    refine ⟨fun hback => ?_, hnd⟩
    obtain ⟨q, hq, howner⟩ := List.mem_map.mp hback
    have huntagged := (hshort.mem_body q hq).2
    rw [howner, (g.mem_sites.mp hf).1, hroot] at huntagged
    cases huntagged
  · have hc := Chain.getLast?_sites { tag := t, first := f, rest := tail }
    rw [show Chain.sites { tag := t, first := f, rest := tail } = f :: tail from rfl, hlast',
      hlast] at hc
    rw [Chain.ends, ← Option.some.inj hc]

/--
**A root has a violation between two calls if and only if a sequence of calls crosses from
the one to the other.**  The violation carries the tag that the sequence leads to, and no
two violations have the same first and last call.
-/
theorem violations_iff_crosses (g : CallGraph n) {root : Fin n} {rootTag : Tag}
    (hroot : (g.tags root).affinity = some rootTag) :
    (∀ f b t, (∃ v ∈ g.violations root,
        v.chain.first = f ∧ v.chain.last = b ∧ v.chain.tag = t) ↔
      g.Crosses root rootTag f b t) ∧
    ((g.violations root).map fun v => (v.chain.first, v.chain.last)).Nodup := by
  refine ⟨?_, g.nodup_ends_violations root⟩
  obtain ⟨xs, hchains, hsum⟩ := g.boundaryChains_summary root rootTag
  intro f b t
  constructor
  · intro h
    obtain ⟨v, hv, rfl, rfl, rfl⟩ := h
    obtain ⟨-, -, hc, hfree⟩ := (mem_violations hroot).mp hv
    rw [hchains] at hc
    obtain ⟨x, hx, hxc⟩ := List.mem_map.mp hc
    have hpath := hsum.kept x hx
    rw [hxc] at hpath
    obtain ⟨hfirst, hleads, -, htag⟩ := mem_boundaryPaths.mp hpath
    exact ⟨hfirst, htag, v.chain.rest, hleads, v.chain.getLast?_sites,
      exempts_eq_false_iff.mp hfree⟩
  · intro h
    obtain ⟨d, hd, hends, rfl, hfree⟩ := h.exists_path hroot
    obtain ⟨x, hx, hxd⟩ := hsum.covers d hd
    -- The path is not exempt, so the chain that is kept for its ends is not exempt either.
    have hfind := hsum.find?_eq hx hd hxd.symm hfree
    have hxfree := (g.freeAt_iff.mp (List.find?_some hfind)).2
    have hxe : (x.chain.first, x.chain.last) = (f, b) := hxd.trans hends
    refine ⟨{ root, rootTag, chain := x.chain }, (mem_violations hroot).mpr
      ⟨rfl, rfl, hchains ▸ List.mem_map_of_mem hx, hxfree⟩, congrArg Prod.fst hxe,
      congrArg Prod.snd hxe, ?_⟩
    exact Leads.tag_eq (mem_boundaryPaths.mp (hsum.kept x hx)).2.1 (mem_boundaryPaths.mp hd).2.1
      (congrArg Prod.snd hxd)

/-- Members 1 to 3 call each other in a ring, and two of them call the member of another thread.
The call of member 1 is inside a call that does not dispatch, inside one that dispatches to a third
thread, inside one that dispatches to the other thread; that of member 2 is inside the last only. -/
def ring : CallGraph 8 where
  members := #v[
    { tags := { affinity := some ⟨"Main"⟩ }
      sites := [{ callee := some 1 }, { callee := some 2 }] },
    { sites := [{ callee := some 2 }, { callee := some 4, enclosing := [5, 6, 7] }] },
    { sites := [{ callee := some 3 }, { callee := some 4, enclosing := [7] }] },
    { sites := [{ callee := some 1 }] },
    { tags := { affinity := some ⟨"Worker"⟩ } },
    {},
    { tags := { dispatch := some ⟨"Disk"⟩ } },
    { tags := { dispatch := some ⟨"Worker"⟩ } }]

/-- The sequence runs once around the ring before it crosses, and enters member 1 twice.  None
crosses with the call of member 2. -/
theorem ring_crossing :
    (ring.tags 0).affinity = some ⟨"Main"⟩ ∧
      (∃ v ∈ ring.violations 0,
        v.chain.first = ⟨0, 0⟩ ∧ v.chain.last = ⟨1, 1⟩ ∧ v.chain.tag = ⟨"Worker"⟩) ∧
      ∀ f, ¬ ∃ v ∈ ring.violations 0,
        v.chain.first = f ∧ v.chain.last = ⟨2, 1⟩ ∧ v.chain.tag = ⟨"Worker"⟩ := by
  have hroot : (ring.tags 0).affinity = some ⟨"Main"⟩ := rfl
  have hiff := (ring.violations_iff_crosses hroot).1
  refine ⟨hroot, (hiff ⟨0, 0⟩ ⟨1, 1⟩ ⟨"Worker"⟩).mpr ?_, fun f hv => ?_⟩
  · refine ⟨by decide, by decide, [⟨1, 0⟩, ⟨2, 0⟩, ⟨3, 0⟩, ⟨1, 1⟩], ?_, rfl, by decide⟩
    have hlast : ring.Leads [⟨1, 1⟩] ⟨"Worker"⟩ := Leads.reach (m := 4) rfl rfl
    have hagain : ring.Leads [⟨3, 0⟩, ⟨1, 1⟩] ⟨"Worker"⟩ :=
      Leads.enter (m := 1) rfl rfl (by decide) hlast
    have hthird : ring.Leads [⟨2, 0⟩, ⟨3, 0⟩, ⟨1, 1⟩] ⟨"Worker"⟩ :=
      Leads.enter (m := 3) rfl rfl (by decide) hagain
    have haround : ring.Leads [⟨1, 0⟩, ⟨2, 0⟩, ⟨3, 0⟩, ⟨1, 1⟩] ⟨"Worker"⟩ :=
      Leads.enter (m := 2) rfl rfl (by decide) hthird
    exact Leads.enter (m := 1) rfl rfl (by decide) haround
  · obtain ⟨-, -, rest, -, hlast, hfree⟩ := (hiff f ⟨2, 1⟩ ⟨"Worker"⟩).mp hv
    exact hfree _ (List.mem_of_getLast? hlast) (by decide)

end CallGraph

end ThreadAffinity
