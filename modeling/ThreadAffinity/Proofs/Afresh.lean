/-
Exploring without memory, and what remembering can change.

`exploreAfresh` is the exploration with the memory left out: every member is explored
again under the path that leads to it.  Both explorations give summaries of the same
paths, so they agree on the ends, on the order of the first calls and on every chain that
is not exempt.

They need not agree on the order of chains with the same first call.  A suffix keeps the
place of the first path with its ends, also when an unexempted path takes over.  If that
first path runs through a member of the path under which the suffix is used again,
exploring afresh meets the ends later, and the remembered list still has them in the old
place: the graph `detour` shows it.  In a settled graph this does not happen.
-/
import Mathlib.Data.Fin.Tuple.Take
import ThreadAffinity.Proofs.BoundaryChains
import ThreadAffinity.Proofs.Placement

namespace ThreadAffinity

variable {n : Nat}

namespace CallGraph

/-- Explores call sites of the member at the end of the path, one after the other, and every
member below them afresh. -/
def exploreAfresh (g : CallGraph n) (path : List (Fin n)) (sites : List (SiteId n))
    (found : List (Suffix n)) : List (Suffix n) :=
  match sites with
  | [] => found
  | s :: rest =>
    match g.callee? s with
    | none => exploreAfresh g path rest found
    | some m =>
      match (g.tags m).affinity with
      | some t => exploreAfresh g path rest ((Suffix.single g s t).insert found)
      | none =>
        if _h : m ∈ path then exploreAfresh g path rest found
        else
          let below := exploreAfresh g (path ++ [m]) (g.sites m) []
          exploreAfresh g path rest (Suffix.insertAll found (below.map (Suffix.cons g s)))
termination_by ((offPath path).length, sites.length)
decreasing_by
  · exact .right _ (Nat.lt_succ_self _)
  · exact .right _ (Nat.lt_succ_self _)
  · exact .right _ (Nat.lt_succ_self _)
  · exact .left _ _ (length_offPath_append_lt _h)
  · exact .right _ (Nat.lt_succ_self _)

/-- The chains from a member to members whose affinity tag differs from a given one, found
without memory. -/
def boundaryChainsAfresh (g : CallGraph n) (root : Fin n) (rootTag : Tag) : List (Chain n) :=
  ((g.exploreAfresh [root] (g.sites root) []).map (·.chain)).filter (·.tag ≠ rootTag)

variable {g : CallGraph n}

section Calls

variable {path : List (Fin n)} {s : SiteId n} {rest : List (SiteId n)} {found : List (Suffix n)}
  {m : Fin n}

theorem exploreAfresh_nil : g.exploreAfresh path [] found = found := by
  rw [exploreAfresh]

theorem exploreAfresh_unknown (hs : g.callee? s = none) :
    g.exploreAfresh path (s :: rest) found = g.exploreAfresh path rest found := by
  rw [exploreAfresh]
  simp only [hs]

theorem exploreAfresh_tagged {t : Tag} (hs : g.callee? s = some m)
    (hm : (g.tags m).affinity = some t) :
    g.exploreAfresh path (s :: rest) found =
      g.exploreAfresh path rest ((Suffix.single g s t).insert found) := by
  rw [exploreAfresh]
  simp only [hs, hm]

theorem exploreAfresh_stopped (hs : g.callee? s = some m) (hm : (g.tags m).affinity = none)
    (h : m ∈ path) :
    g.exploreAfresh path (s :: rest) found = g.exploreAfresh path rest found := by
  rw [exploreAfresh]
  simp only [hs, hm, dif_pos h]

theorem exploreAfresh_entered (hs : g.callee? s = some m) (hm : (g.tags m).affinity = none)
    (h : m ∉ path) :
    g.exploreAfresh path (s :: rest) found =
      g.exploreAfresh path rest (Suffix.insertAll found
        ((g.exploreAfresh (path ++ [m]) (g.sites m) []).map (Suffix.cons g s))) := by
  rw [exploreAfresh]
  simp only [hs, hm, dif_neg h]

end Calls

/-! ### Without memory the path itself is avoided -/

theorem toFinset_concat (path : List (Fin n)) (m : Fin n) :
    (path ++ [m]).toFinset = insert m path.toFinset := by
  ext k
  simp

/-- What exploring afresh finds is right for the members of the path. -/
theorem exploreAfresh_right {S : List (Suffix n) → List (Chain n) → Prop} (hS : g.Digest S) :
    ∀ (k : Nat) (path : List (Fin n)), (offPath path).length = k →
      ∀ (q : Fin n) (rest done : List (SiteId n)) (found : List (Suffix n)),
        g.sites q = done ++ rest → S found (g.paths path.toFinset done) →
        S (g.exploreAfresh path rest found) (g.paths path.toFinset (g.sites q)) := by
  intro k
  induction k using Nat.strong_induction_on with
  | _ k ih =>
    intro path hk q rest
    -- The outer induction is on the members off the path, this one on the calls of the body.
    induction rest with
    | nil =>
        intro done found hbody h
        rw [exploreAfresh_nil, hbody, List.append_nil]
        exact h
    | cons s rest ihrest =>
        intro done found hbody h
        have hnext : g.sites q = (done ++ [s]) ++ rest := by rw [hbody]; simp
        have hskip : g.pathsThrough path.toFinset s = [] →
            S found (g.paths path.toFinset (done ++ [s])) := by
          intro hnone
          rw [paths_append, paths_singleton, hnone, List.append_nil]
          exact h
        cases hs : g.callee? s with
        | none =>
            rw [exploreAfresh_unknown hs]
            exact ihrest _ _ hnext (hskip (pathsThrough_unknown hs))
        | some m =>
            cases hm : (g.tags m).affinity with
            | some t =>
                rw [exploreAfresh_tagged hs hm]
                exact ihrest _ _ hnext (hS.tagged hbody hs hm h)
            | none =>
                by_cases hmp : m ∈ path
                · rw [exploreAfresh_stopped hs hm hmp]
                  exact ihrest _ _ hnext
                    (hskip (pathsThrough_avoided hs hm (List.mem_toFinset.mpr hmp)))
                · rw [exploreAfresh_entered hs hm hmp]
                  have hlt : (offPath (path ++ [m])).length < k :=
                    hk ▸ length_offPath_append_lt hmp
                  have hbelow := ih _ hlt _ rfl m (g.sites m) [] [] rfl hS.nil
                  rw [toFinset_concat] at hbelow
                  exact ihrest _ _ hnext (hS.entered hbody hs hm
                    (fun hc => hmp (List.mem_toFinset.mp hc)) h hbelow)

theorem exploreAfresh_root {S : List (Suffix n) → List (Chain n) → Prop} (hS : g.Digest S)
    (root : Fin n) :
    S (g.exploreAfresh [root] (g.sites root) []) (g.paths {root} (g.sites root)) := by
  have h := exploreAfresh_right hS _ [root] rfl root (g.sites root) [] [] rfl hS.nil
  rwa [List.toFinset_cons, List.toFinset_nil, insert_empty_eq] at h

theorem boundaryChainsAfresh_summary (g : CallGraph n) (root : Fin n) (rootTag : Tag) :
    ∃ xs : List (Suffix n), g.boundaryChainsAfresh root rootTag = xs.map (·.chain) ∧
      g.Summary xs (g.boundaryPaths root rootTag) :=
  (exploreAfresh_root g.summary_digest root).chains_leaving (fun _ => leads_of_mem_paths) rootTag

/-! ### Two summaries of the same paths -/

namespace Summary

variable {xs ys : List (Suffix n)} {paths : List (Chain n)}

theorem perm_ends (hx : g.Summary xs paths) (hy : g.Summary ys paths) :
    (xs.map (·.chain.ends)).Perm (ys.map (·.chain.ends)) := by
  refine (List.perm_ext_iff_of_nodup hx.distinct hy.distinct).mpr fun e => ?_
  rw [hx.mem_ends, hy.mem_ends]

/-- The first calls come in the order of the body, so their order is settled. -/
theorem firsts_eq {m : Fin n} (hx : g.Summary xs paths) (hy : g.Summary ys paths)
    (howner : ∀ c ∈ paths, c.first.owner = m) :
    xs.map (·.chain.first) = ys.map (·.chain.first) := by
  have hperm : (xs.map (·.chain.first)).Perm (ys.map (·.chain.first)) := by
    have := (hx.perm_ends hy).map Prod.fst
    rw [List.map_map, List.map_map] at this
    exact this
  have hxs : (xs.map (·.chain.first)).Pairwise (·.index ≤ ·.index) :=
    List.pairwise_map.mpr hx.grouped
  have hys : (ys.map (·.chain.first)).Pairwise (·.index ≤ ·.index) :=
    List.pairwise_map.mpr hy.grouped
  refine List.Perm.eq_of_pairwise ?_ hxs hys hperm
  intro r s hr hs hrs hsr
  obtain ⟨x, hxmem, rfl⟩ := List.mem_map.mp hr
  obtain ⟨y, hymem, rfl⟩ := List.mem_map.mp hs
  have ho : x.chain.first.owner = y.chain.first.owner := by
    rw [howner _ (hx.kept x hxmem), howner _ (hy.kept y hymem)]
  exact SiteId.ext ho (Nat.le_antisymm hrs hsr)

/-- An unexempted chain of one is a chain of the other. -/
theorem mem_of_free (hx : g.Summary xs paths) (hy : g.Summary ys paths) {c : Chain n}
    (hc : c ∈ xs.map (·.chain)) (hfree : g.exempts c.tag c.sites = false) :
    c ∈ ys.map (·.chain) := by
  obtain ⟨x, hxmem, rfl⟩ := List.mem_map.mp hc
  have hpath := hx.kept x hxmem
  have hfind := hx.find?_eq hxmem hpath rfl hfree
  rw [← hy.find?_chains] at hfind
  exact List.mem_of_find?_eq_some hfind

end Summary

/-- Whether a chain is left out is told by its ends. -/
theorem Summary.ends_leaving {xs : List (Suffix n)} {paths : List (Chain n)}
    (h : g.Summary xs paths) (hleads : ∀ c ∈ paths, g.Leads c.sites c.tag) (rootTag : Tag) :
    ((xs.map (·.chain)).filter (·.tag ≠ rootTag)).map (·.ends) =
      (xs.map (·.chain.ends)).filter fun e => g.tagAt? e.2 ≠ some rootTag := by
  rw [List.filter_map, List.filter_map, List.map_map]
  refine congrArg _ (List.filter_congr fun x hx => ?_)
  have htag : g.tagAt? x.chain.ends.2 = some x.chain.tag :=
    (hleads _ (h.kept x hx)).tagAt?_last
  simp [htag]

/--
**What remembering can change is the order of chains with the same first call.**  With and
without memory the chains have the same ends, the first calls follow one another in the
same way, and the unexempted chains are the same.  In a settled graph the ends come in the
same order too, and so they do where no calls come back.
-/
theorem boundaryChains_afresh (g : CallGraph n) (root : Fin n) (rootTag : Tag) :
    ((g.boundaryChains root rootTag).map (·.ends)).Perm
      ((g.boundaryChainsAfresh root rootTag).map (·.ends)) ∧
    (g.boundaryChains root rootTag).map (·.first) =
      (g.boundaryChainsAfresh root rootTag).map (·.first) ∧
    (∀ c, g.exempts c.tag c.sites = false →
      (c ∈ g.boundaryChains root rootTag ↔ c ∈ g.boundaryChainsAfresh root rootTag)) ∧
    (g.Settled →
      (g.boundaryChains root rootTag).map (·.ends) =
        (g.boundaryChainsAfresh root rootTag).map (·.ends)) ∧
    (g.Acyclic →
      (g.boundaryChains root rootTag).map (·.ends) =
        (g.boundaryChainsAfresh root rootTag).map (·.ends)) := by
  obtain ⟨xs, hxs, hx⟩ := g.boundaryChains_summary root rootTag
  obtain ⟨ys, hys, hy⟩ := g.boundaryChainsAfresh_summary root rootTag
  have horder : g.Settled → (g.boundaryChains root rootTag).map (·.ends) =
      (g.boundaryChainsAfresh root rootTag).map (·.ends) := by
    intro hsettled
    have hmemo := explore_root (g.placed_digest hsettled) root
    have hafresh := exploreAfresh_root (g.placed_digest hsettled) root
    rw [boundaryChains, hmemo.ends_leaving (fun _ => leads_of_mem_paths), hmemo.order,
      boundaryChainsAfresh, hafresh.ends_leaving (fun _ => leads_of_mem_paths), hafresh.order]
  refine ⟨?_, ?_, ?_, horder, fun hacyclic => horder hacyclic.settled⟩
  · rw [hxs, hys, List.map_map, List.map_map]
    exact hx.perm_ends hy
  · rw [hxs, hys, List.map_map, List.map_map]
    exact hx.firsts_eq hy fun c hc => owner_of_mem_paths (List.mem_filter.mp hc).1
  · intro c hfree
    rw [hxs, hys]
    exact ⟨fun hc => hx.mem_of_free hy hc hfree, fun hc => hy.mem_of_free hx hc hfree⟩

/-- Member `1` is remembered with the ends of the detour through `3` in front, and used again
below `3`, where that detour is closed. -/
def detour : CallGraph 7 where
  members := #v[
    { tags := { affinity := some ⟨"Main"⟩ }
      sites := [{ callee := some 1 }, { callee := some 3 }] },
    { sites := [{ callee := some 2 }] },
    { sites := [
        { callee := some 3, enclosing := [6] }, { callee := some 5 }, { callee := some 4 }] },
    { sites := [{ callee := some 1 }, { callee := some 4 }] },
    { sites := [{ callee := some 5 }] },
    { tags := { affinity := some ⟨"Worker"⟩ } },
    { tags := { dispatch := some ⟨"Worker"⟩ } }]

/-- From `0` the two chains of the second call change places. -/
theorem detour_order :
    (detour.boundaryChains 0 ⟨"Main"⟩).map (·.ends) =
      [(⟨0, 0⟩, ⟨4, 0⟩), (⟨0, 0⟩, ⟨2, 1⟩), (⟨0, 1⟩, ⟨4, 0⟩), (⟨0, 1⟩, ⟨2, 1⟩)] ∧
    (detour.boundaryChainsAfresh 0 ⟨"Main"⟩).map (·.ends) =
      [(⟨0, 0⟩, ⟨4, 0⟩), (⟨0, 0⟩, ⟨2, 1⟩), (⟨0, 1⟩, ⟨2, 1⟩), (⟨0, 1⟩, ⟨4, 0⟩)] ∧
    (detour.boundaryChains 0 ⟨"Main"⟩).map (·.ends) ≠
      (detour.boundaryChainsAfresh 0 ⟨"Main"⟩).map (·.ends) := by
  have hmemo : (detour.boundaryChains 0 ⟨"Main"⟩).map (·.ends) =
      [(⟨0, 0⟩, ⟨4, 0⟩), (⟨0, 0⟩, ⟨2, 1⟩), (⟨0, 1⟩, ⟨4, 0⟩), (⟨0, 1⟩, ⟨2, 1⟩)] := by cbv
  have hafresh : (detour.boundaryChainsAfresh 0 ⟨"Main"⟩).map (·.ends) =
      [(⟨0, 0⟩, ⟨4, 0⟩), (⟨0, 0⟩, ⟨2, 1⟩), (⟨0, 1⟩, ⟨2, 1⟩), (⟨0, 1⟩, ⟨4, 0⟩)] := by cbv
  refine ⟨hmemo, hafresh, ?_⟩
  rw [hmemo, hafresh]
  decide

/-- Members `1` to `3` call each other in a ring, and `2` calls `3` twice, the first time inside
a dispatching call. -/
def bypass : CallGraph 7 where
  members := #v[
    { tags := { affinity := some ⟨"Main"⟩ }
      sites := [{ callee := some 1 }, { callee := some 3 }] },
    { sites := [{ callee := some 2 }] },
    { sites := [{ callee := some 3, enclosing := [6] }, { callee := some 3 }] },
    { sites := [{ callee := some 1 }, { callee := some 4 }] },
    { sites := [{ callee := some 5 }] },
    { tags := { affinity := some ⟨"Worker"⟩ } },
    { tags := { dispatch := some ⟨"Worker"⟩ } }]

theorem bypass_settled : bypass.Settled := by
  -- Below every member, paths with the same ends enter the same members.
  have hcheck : ((List.finRange 7).all fun m =>
      (bypass.paths {m} (bypass.sites m)).all fun c =>
        (bypass.paths {m} (bypass.sites m)).all fun d =>
          c.ends ≠ d.ends || c.rest.map (·.owner) = d.rest.map (·.owner)) = true := by
    decide +kernel
  have hsame : ∀ m, ∀ c ∈ bypass.paths {m} (bypass.sites m),
      ∀ d ∈ bypass.paths {m} (bypass.sites m),
        c.ends = d.ends → c.rest.map (·.owner) = d.rest.map (·.owner) := by
    intro m c hc d hd hends
    have h := List.all_eq_true.mp hcheck m (List.mem_finRange m)
    have h := List.all_eq_true.mp (List.all_eq_true.mp h c hc) d hd
    simpa [hends] using h
  intro m _
  refine List.pairwise_of_forall_mem_list fun c hc d hd hends _ _ k hk _ => ?_
  have hk : k ∈ c.rest.map (·.owner) := List.mem_map.mpr hk
  rw [hsame m c hc d hd hends] at hk
  exact List.mem_map.mp hk

/-- Exploring the ring keeps the order, although an unexempted path takes over in it. -/
theorem bypass_order :
    bypass.Settled ∧
    (bypass.boundaryChains 0 ⟨"Main"⟩).map (·.sites) =
      [[⟨0, 0⟩, ⟨1, 0⟩, ⟨2, 1⟩, ⟨3, 1⟩, ⟨4, 0⟩], [⟨0, 1⟩, ⟨3, 1⟩, ⟨4, 0⟩]] ∧
    (bypass.boundaryChains 0 ⟨"Main"⟩).map (·.ends) =
      (bypass.boundaryChainsAfresh 0 ⟨"Main"⟩).map (·.ends) :=
  ⟨bypass_settled, by cbv, (boundaryChains_afresh bypass 0 ⟨"Main"⟩).2.2.2.1 bypass_settled⟩

end CallGraph

end ThreadAffinity
