/-
Call paths, as they are without memory and without collapsing.

`Leads` says when a sequence of calls runs through members without affinity tag into
one that has a tag; members may come again.  `pathsThrough` lists the sequences that
avoid some members and enter no member twice, depth first.  What the exploration finds
is compared with that list, and the list with `Leads`.

Two facts carry the comparison.  The members in `avoid` only ever take paths away: to
avoid more of them is to filter the list.  And the list is in the order of the calls in
the bodies, which is what makes "the first path" a matter of the graph alone.
-/
import Mathlib.Data.Fintype.Card
import ThreadAffinity.CallGraph.Walk

namespace ThreadAffinity

variable {n : Nat}

theorem SiteId.ext {r s : SiteId n} (howner : r.owner = s.owner) (hindex : r.index = s.index) :
    r = s := by
  cases r
  cases s
  rw [SiteId.mk.injEq]
  exact ⟨howner, hindex⟩

namespace Chain

@[simp] theorem tag_cons (s : SiteId n) (c : Chain n) : (c.cons s).tag = c.tag := rfl

@[simp] theorem first_cons (s : SiteId n) (c : Chain n) : (c.cons s).first = s := rfl

@[simp] theorem rest_cons (s : SiteId n) (c : Chain n) : (c.cons s).rest = c.sites := rfl

@[simp] theorem sites_cons (s : SiteId n) (c : Chain n) : (c.cons s).sites = s :: c.sites := rfl

theorem getLast?_sites (c : Chain n) : c.sites.getLast? = some c.last := by
  obtain ⟨t, s, rest⟩ := c
  cases rest with
  | nil => rfl
  | cons r rest => simp [sites, last, List.getLast?_cons]

@[simp] theorem last_cons (s : SiteId n) (c : Chain n) : (c.cons s).last = c.last := by
  have h : (c.cons s).sites.getLast? = c.sites.getLast? := by
    rw [sites_cons, List.getLast?_cons, getLast?_sites]
    rfl
  rw [getLast?_sites, getLast?_sites] at h
  exact Option.some.inj h

@[simp] theorem ends_cons (s : SiteId n) (c : Chain n) : (c.cons s).ends = (s, c.last) := by
  simp [ends]

theorem ends_cons_inj {s : SiteId n} {c d : Chain n} :
    (c.cons s).ends = (d.cons s).ends ↔ c.last = d.last := by
  rw [ends_cons, ends_cons, Prod.mk.injEq]
  exact and_iff_right rfl

/-- Whether a chain enters none of the given members after its first call. -/
def clearOf (members : Finset (Fin n)) (c : Chain n) : Bool :=
  c.rest.all fun r => r.owner ∉ members

/-- A chain comes before another one if at the first call in which they differ it takes
the earlier call of the body. -/
def Before (c d : Chain n) : Prop :=
  c.sites.map (·.index) < d.sites.map (·.index)

theorem Before.cons (s : SiteId n) {c d : Chain n} (h : c.Before d) :
    (c.cons s).Before (d.cons s) := by
  unfold Before
  rw [sites_cons, sites_cons, List.map_cons, List.map_cons]
  exact List.Lex.cons h

theorem before_of_first_lt {c d : Chain n} (h : c.first.index < d.first.index) :
    c.Before d :=
  List.Lex.rel h

end Chain

namespace CallGraph

variable (g : CallGraph n)

theorem mem_sites {m : Fin n} {s : SiteId n} :
    s ∈ g.sites m ↔ s.owner = m ∧ s.index < (g.members.get m).sites.length := by
  obtain ⟨owner, index⟩ := s
  simp only [sites, List.mem_map, List.mem_range, SiteId.mk.injEq]
  constructor
  · rintro ⟨i, hi, rfl, rfl⟩
    exact ⟨rfl, hi⟩
  · rintro ⟨rfl, hi⟩
    exact ⟨index, hi, rfl, rfl⟩

theorem sites_pairwise (m : Fin n) : (g.sites m).Pairwise (·.index < ·.index) := by
  rw [sites, List.pairwise_map]
  exact List.pairwise_lt_range

/-! ### Sequences of calls that lead to a tag -/

/--
Every call but the last enters a member without affinity tag, and the next call stands
in its body; the last one calls a member with affinity tag `t`.
-/
inductive Leads : List (SiteId n) → Tag → Prop
  | reach {s : SiteId n} {m : Fin n} {t : Tag} (hs : g.callee? s = some m)
      (hm : (g.tags m).affinity = some t) : Leads [s] t
  | enter {s r : SiteId n} {m : Fin n} {rest : List (SiteId n)} {t : Tag}
      (hs : g.callee? s = some m) (hm : (g.tags m).affinity = none) (hr : r ∈ g.sites m)
      (h : Leads (r :: rest) t) : Leads (s :: r :: rest) t

variable {g}

theorem not_leads_of_unknown {s : SiteId n} {rest : List (SiteId n)} {t : Tag}
    (hs : g.callee? s = none) : ¬ g.Leads (s :: rest) t := by
  intro h
  cases h with
  | reach hs' _ => rw [hs] at hs'; cases hs'
  | enter hs' _ _ _ => rw [hs] at hs'; cases hs'

theorem leads_iff_of_tagged {s : SiteId n} {m : Fin n} {rest : List (SiteId n)} {t u : Tag}
    (hs : g.callee? s = some m) (hm : (g.tags m).affinity = some t) :
    g.Leads (s :: rest) u ↔ rest = [] ∧ u = t := by
  constructor
  · intro h
    cases h with
    | reach hs' hm' =>
        rw [hs] at hs'
        cases hs'
        rw [hm] at hm'
        exact ⟨rfl, (Option.some.inj hm').symm⟩
    | enter hs' hm' _ _ =>
        rw [hs] at hs'
        cases hs'
        rw [hm] at hm'
        cases hm'
  · rintro ⟨rfl, rfl⟩
    exact Leads.reach hs hm

theorem leads_iff_of_untagged {s : SiteId n} {m : Fin n} {rest : List (SiteId n)} {t : Tag}
    (hs : g.callee? s = some m) (hm : (g.tags m).affinity = none) :
    g.Leads (s :: rest) t ↔
      ∃ r after, rest = r :: after ∧ r ∈ g.sites m ∧ g.Leads (r :: after) t := by
  constructor
  · intro h
    cases h with
    | reach hs' hm' =>
        rw [hs] at hs'
        cases hs'
        rw [hm] at hm'
        cases hm'
    | enter hs' _ hr h =>
        rw [hs] at hs'
        cases hs'
        exact ⟨_, _, rfl, hr, h⟩
  · rintro ⟨r, after, rfl, hr, h⟩
    exact Leads.enter hs hm hr h

/-- The affinity tag of the member that a call calls. -/
def tagAt? (g : CallGraph n) (s : SiteId n) : Option Tag :=
  (g.callee? s).bind fun m => (g.tags m).affinity

/-- The tag that a sequence leads to is that of its last call. -/
theorem Leads.tagAt?_getLast {calls : List (SiteId n)} {t : Tag} (h : g.Leads calls t) :
    calls.getLast?.bind g.tagAt? = some t := by
  induction h with
  | reach hs hm => simp [tagAt?, hs, hm]
  | enter _ _ _ _ ih =>
      rw [List.getLast?_cons_cons]
      exact ih

theorem Leads.tagAt?_last {c : Chain n} (h : g.Leads c.sites c.tag) :
    g.tagAt? c.last = some c.tag := by
  have := h.tagAt?_getLast
  rwa [c.getLast?_sites] at this

/-- Two sequences with the same last call lead to the same tag. -/
theorem Leads.tag_eq {c d : Chain n} (hc : g.Leads c.sites c.tag) (hd : g.Leads d.sites d.tag)
    (h : c.last = d.last) : c.tag = d.tag := by
  have hct := hc.tagAt?_last
  rw [h, hd.tagAt?_last] at hct
  exact (Option.some.inj hct).symm

/-! ### Paths that avoid some members -/

theorem card_compl_insert_lt {m : Fin n} {avoid : Finset (Fin n)} (h : m ∉ avoid) :
    (insert m avoid)ᶜ.card < avoidᶜ.card := by
  refine Finset.card_lt_card (Finset.compl_ssubset_compl.mpr ?_)
  exact Finset.ssubset_insert h

/--
The chains that start with a call, enter no member of `avoid` and no member twice, in
depth-first order.
-/
def pathsThrough (g : CallGraph n) (avoid : Finset (Fin n)) (s : SiteId n) : List (Chain n) :=
  match g.callee? s with
  | none => []
  | some m =>
    match (g.tags m).affinity with
    | some t => [{ tag := t, first := s }]
    | none =>
      if _h : m ∈ avoid then []
      else ((g.sites m).flatMap fun r => pathsThrough g (insert m avoid) r).map (Chain.cons s)
termination_by avoidᶜ.card
decreasing_by exact card_compl_insert_lt _h

/-- The chains that start with one of several calls, in depth-first order. -/
def paths (g : CallGraph n) (avoid : Finset (Fin n)) (calls : List (SiteId n)) : List (Chain n) :=
  calls.flatMap (g.pathsThrough avoid)

theorem paths_append (avoid : Finset (Fin n)) (calls more : List (SiteId n)) :
    g.paths avoid (calls ++ more) = g.paths avoid calls ++ g.paths avoid more :=
  List.flatMap_append

@[simp] theorem paths_singleton (avoid : Finset (Fin n)) (s : SiteId n) :
    g.paths avoid [s] = g.pathsThrough avoid s := by
  simp [paths]

variable {avoid : Finset (Fin n)} {s : SiteId n} {m : Fin n}

theorem pathsThrough_unknown (hs : g.callee? s = none) : g.pathsThrough avoid s = [] := by
  rw [pathsThrough, hs]

theorem pathsThrough_tagged {t : Tag} (hs : g.callee? s = some m)
    (hm : (g.tags m).affinity = some t) :
    g.pathsThrough avoid s = [{ tag := t, first := s }] := by
  rw [pathsThrough, hs]
  simp only [hm]

theorem pathsThrough_avoided (hs : g.callee? s = some m) (hm : (g.tags m).affinity = none)
    (h : m ∈ avoid) : g.pathsThrough avoid s = [] := by
  rw [pathsThrough, hs]
  simp only [hm, dif_pos h]

theorem pathsThrough_entered (hs : g.callee? s = some m) (hm : (g.tags m).affinity = none)
    (h : m ∉ avoid) :
    g.pathsThrough avoid s = (g.paths (insert m avoid) (g.sites m)).map (Chain.cons s) := by
  rw [pathsThrough, hs]
  simp only [hm, dif_neg h]
  rfl

theorem first_of_mem_pathsThrough {c : Chain n} (h : c ∈ g.pathsThrough avoid s) :
    c.first = s := by
  rw [pathsThrough] at h
  split at h
  · simp at h
  · split at h
    · rw [List.mem_singleton.mp h]
    · split at h
      · simp at h
      · obtain ⟨d, -, rfl⟩ := List.mem_map.mp h
        rfl

theorem first_mem_of_mem_paths {c : Chain n} {calls : List (SiteId n)}
    (h : c ∈ g.paths avoid calls) : c.first ∈ calls := by
  obtain ⟨s, hs, hc⟩ := List.mem_flatMap.mp h
  rw [first_of_mem_pathsThrough hc]
  exact hs

theorem owner_of_mem_paths {c : Chain n} (h : c ∈ g.paths avoid (g.sites m)) :
    c.first.owner = m :=
  (g.mem_sites.mp (first_mem_of_mem_paths h)).1

/--
**The list holds exactly the sequences that enter no member twice and none of `avoid`.**
The members entered are the owners of the calls after the first.
-/
theorem mem_pathsThrough {c : Chain n} : c ∈ g.pathsThrough avoid s ↔
    c.first = s ∧ g.Leads c.sites c.tag ∧ (c.rest.map (·.owner)).Nodup ∧
      ∀ r ∈ c.rest, r.owner ∉ avoid := by
  -- Induction follows the recursion of `pathsThrough`: one more member to avoid each time.
  induction hk : avoidᶜ.card using Nat.strong_induction_on generalizing avoid s c with
  | _ k ih =>
    obtain ⟨t, f, rest⟩ := c
    simp only [Chain.sites]
    cases hs : g.callee? s with
    | none =>
        rw [pathsThrough_unknown hs]
        refine iff_of_false (by simp) ?_
        rintro ⟨rfl, hl, -⟩
        exact not_leads_of_unknown hs hl
    | some m =>
        cases hm : (g.tags m).affinity with
        | some u =>
            rw [pathsThrough_tagged hs hm, List.mem_singleton, Chain.mk.injEq]
            constructor
            · rintro ⟨rfl, rfl, rfl⟩
              exact ⟨rfl, Leads.reach hs hm, by simp, by simp⟩
            · rintro ⟨rfl, hl, -⟩
              obtain ⟨rfl, rfl⟩ := (leads_iff_of_tagged hs hm).mp hl
              exact ⟨rfl, rfl, rfl⟩
        | none =>
            by_cases hav : m ∈ avoid
            · rw [pathsThrough_avoided hs hm hav]
              refine iff_of_false (by simp) ?_
              rintro ⟨rfl, hl, -, hout⟩
              obtain ⟨r, after, rfl, hr, -⟩ := (leads_iff_of_untagged hs hm).mp hl
              refine hout r (by simp) ?_
              rw [(g.mem_sites.mp hr).1]
              exact hav
            · have hlt : (insert m avoid)ᶜ.card < k := hk ▸ card_compl_insert_lt hav
              rw [pathsThrough_entered hs hm hav, List.mem_map]
              constructor
              · rintro ⟨d, hd, hcons⟩
                obtain ⟨rfl, rfl, rfl⟩ := Chain.mk.injEq .. ▸ hcons
                obtain ⟨r, hr, hdr⟩ := List.mem_flatMap.mp hd
                obtain ⟨hfirst, hl, hnd, hout⟩ := (ih _ hlt rfl).mp hdr
                have hr' : d.first ∈ g.sites m := hfirst ▸ hr
                have howner : d.first.owner = m := (g.mem_sites.mp hr').1
                refine ⟨rfl, Leads.enter hs hm hr' hl, ?_, ?_⟩
                · rw [Chain.sites, List.map_cons, List.nodup_cons, howner]
                  refine ⟨fun hmem => ?_, hnd⟩
                  obtain ⟨q, hq, hqm⟩ := List.mem_map.mp hmem
                  exact hout q hq (by rw [hqm]; exact Finset.mem_insert_self m avoid)
                · intro q hq
                  rcases List.mem_cons.mp hq with rfl | hq
                  · rw [howner]; exact hav
                  · exact fun hc => hout q hq (Finset.mem_insert_of_mem hc)
              · rintro ⟨rfl, hl, hnd, hout⟩
                obtain ⟨r, after, rfl, hr, hl⟩ := (leads_iff_of_untagged hs hm).mp hl
                have howner : r.owner = m := (g.mem_sites.mp hr).1
                rw [List.map_cons, List.nodup_cons, howner] at hnd
                refine ⟨{ tag := t, first := r, rest := after }, ?_, rfl⟩
                refine List.mem_flatMap.mpr ⟨r, hr, (ih _ hlt rfl).mpr ⟨rfl, hl, hnd.2, ?_⟩⟩
                intro q hq hc
                rcases Finset.mem_insert.mp hc with hqm | hc
                · exact hnd.1 (List.mem_map.mpr ⟨q, hq, hqm⟩)
                · exact hout q (List.mem_cons_of_mem _ hq) hc

theorem mem_paths {c : Chain n} {calls : List (SiteId n)} : c ∈ g.paths avoid calls ↔
    c.first ∈ calls ∧ g.Leads c.sites c.tag ∧ (c.rest.map (·.owner)).Nodup ∧
      ∀ r ∈ c.rest, r.owner ∉ avoid := by
  simp only [paths, List.mem_flatMap, mem_pathsThrough]
  constructor
  · rintro ⟨s, hs, rfl, h⟩
    exact ⟨hs, h⟩
  · rintro ⟨hs, h⟩
    exact ⟨c.first, hs, rfl, h⟩

/-- From the body of a member the paths that avoid it are those that enter no member twice. -/
theorem mem_paths_body {c : Chain n} : c ∈ g.paths {m} (g.sites m) ↔
    c.first ∈ g.sites m ∧ g.Leads c.sites c.tag ∧ (c.sites.map (·.owner)).Nodup := by
  rw [mem_paths, Chain.sites, List.map_cons, List.nodup_cons]
  constructor
  · intro h
    obtain ⟨hfirst, hleads, hnd, hout⟩ := h
    refine ⟨hfirst, hleads, ?_, hnd⟩
    intro hmem
    obtain ⟨r, hr, howner⟩ := List.mem_map.mp hmem
    refine hout r hr ?_
    rw [howner, (g.mem_sites.mp hfirst).1]
    exact Finset.mem_singleton_self m
  · intro h
    obtain ⟨hfirst, hleads, hnot, hnd⟩ := h
    refine ⟨hfirst, hleads, hnd, ?_⟩
    intro r hr hm
    refine hnot (List.mem_map.mpr ⟨r, hr, ?_⟩)
    rw [Finset.mem_singleton.mp hm, (g.mem_sites.mp hfirst).1]

theorem leads_of_mem_paths {c : Chain n} {calls : List (SiteId n)}
    (h : c ∈ g.paths avoid calls) : g.Leads c.sites c.tag :=
  (mem_paths.mp h).2.1

/-! ### Avoiding more members filters the list -/

theorem pathsThrough_union (more : Finset (Fin n)) :
    g.pathsThrough (avoid ∪ more) s = (g.pathsThrough avoid s).filter (Chain.clearOf more) := by
  induction hk : avoidᶜ.card using Nat.strong_induction_on generalizing avoid s with
  | _ k ih =>
    cases hs : g.callee? s with
    | none => rw [pathsThrough_unknown hs, pathsThrough_unknown hs, List.filter_nil]
    | some m =>
        cases hm : (g.tags m).affinity with
        | some t =>
            rw [pathsThrough_tagged hs hm, pathsThrough_tagged hs hm]
            rfl
        | none =>
            by_cases hav : m ∈ avoid
            · rw [pathsThrough_avoided hs hm hav,
                pathsThrough_avoided hs hm (Finset.mem_union_left _ hav), List.filter_nil]
            · have hlt : (insert m avoid)ᶜ.card < k := hk ▸ card_compl_insert_lt hav
              rw [pathsThrough_entered hs hm hav, List.filter_map]
              by_cases hmore : m ∈ more
              · -- Every path through `m` makes a call of `m`, so none is left.
                rw [pathsThrough_avoided hs hm (Finset.mem_union_right _ hmore)]
                symm
                rw [List.map_eq_nil_iff, List.filter_eq_nil_iff]
                intro c hc hclear
                simp only [Function.comp_apply, Chain.clearOf, Chain.rest_cons, List.all_eq_true,
                  decide_eq_true_eq] at hclear
                refine hclear c.first (by simp [Chain.sites]) ?_
                rw [owner_of_mem_paths hc]
                exact hmore
              · have hav' : m ∉ avoid ∪ more := by simp [hav, hmore]
                rw [pathsThrough_entered hs hm hav', ← Finset.insert_union, paths, paths,
                  List.filter_flatMap]
                congr 1
                refine List.flatMap_congr fun r hr => ?_
                rw [ih _ hlt rfl]
                refine List.filter_congr fun c hc => ?_
                have howner : c.first.owner = m := by
                  rw [first_of_mem_pathsThrough hc]
                  exact (g.mem_sites.mp hr).1
                simp [Chain.clearOf, Chain.sites, howner, hmore]

theorem paths_union (more : Finset (Fin n)) (calls : List (SiteId n)) :
    g.paths (avoid ∪ more) calls = (g.paths avoid calls).filter (Chain.clearOf more) := by
  rw [paths, paths, List.filter_flatMap]
  exact List.flatMap_congr fun s _ => pathsThrough_union more

/-! ### The order of the list -/

theorem pathsThrough_pairwise : (g.pathsThrough avoid s).Pairwise Chain.Before := by
  induction hk : avoidᶜ.card using Nat.strong_induction_on generalizing avoid s with
  | _ k ih =>
    cases hs : g.callee? s with
    | none => rw [pathsThrough_unknown hs]; exact List.Pairwise.nil
    | some m =>
        cases hm : (g.tags m).affinity with
        | some t => rw [pathsThrough_tagged hs hm]; exact List.pairwise_singleton _ _
        | none =>
            by_cases hav : m ∈ avoid
            · rw [pathsThrough_avoided hs hm hav]; exact List.Pairwise.nil
            · have hlt : (insert m avoid)ᶜ.card < k := hk ▸ card_compl_insert_lt hav
              rw [pathsThrough_entered hs hm hav, List.pairwise_map, paths,
                List.pairwise_flatMap]
              refine ⟨fun r _ => (ih _ hlt rfl).imp (Chain.Before.cons s), ?_⟩
              refine (g.sites_pairwise m).imp fun {r q} hrq c hc d hd => ?_
              refine Chain.Before.cons s (Chain.before_of_first_lt ?_)
              rw [first_of_mem_pathsThrough hc, first_of_mem_pathsThrough hd]
              exact hrq

/-- **The paths from calls in the order of a body come in depth-first order.** -/
theorem paths_pairwise {calls : List (SiteId n)} (h : calls.Pairwise (·.index < ·.index)) :
    (g.paths avoid calls).Pairwise Chain.Before := by
  rw [paths, List.pairwise_flatMap]
  refine ⟨fun _ _ => pathsThrough_pairwise, h.imp fun {r q} hrq c hc d hd => ?_⟩
  refine Chain.before_of_first_lt ?_
  rw [first_of_mem_pathsThrough hc, first_of_mem_pathsThrough hd]
  exact hrq

/-- Paths are grouped by their first call, in the order of the body. -/
theorem paths_grouped {calls : List (SiteId n)} (h : calls.Pairwise (·.index < ·.index)) :
    (g.paths avoid calls).Pairwise (·.first.index ≤ ·.first.index) := by
  rw [paths, List.pairwise_flatMap]
  constructor
  · intro s _
    refine List.pairwise_of_forall_mem_list fun c hc d hd => ?_
    rw [first_of_mem_pathsThrough hc, first_of_mem_pathsThrough hd]
  · refine h.imp fun {r q} hrq c hc d hd => ?_
    rw [first_of_mem_pathsThrough hc, first_of_mem_pathsThrough hd]
    exact Nat.le_of_lt hrq

end CallGraph

end ThreadAffinity
