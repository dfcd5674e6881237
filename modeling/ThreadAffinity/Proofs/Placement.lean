/-
Where a pair of ends stands.

A suffix keeps the place of the first path with its ends.  `Placed` says so of a list of
suffixes: their ends come in the order in which the paths first have them.  Every call that
is added keeps this up.  To avoid more members can spoil it, since the first path with some
ends may go away while the suffix in its place, which took over from it, stays.

That cannot happen if the first path enters no more members than the suffix, or only such
members as exploring never comes from.  `Settled` asks this of the paths that are taken over
from, and where no calls come back it always holds.  Of the other paths it holds by itself:
an exempt suffix is in its place because it came first, down to the last call, and `through`
carries this from a body to the bodies that call it.
-/
import ThreadAffinity.Proofs.Exploration

namespace ThreadAffinity

variable {n : Nat}

namespace Suffix

/-- An exempt suffix does not take the place of another one. -/
theorem mem_insert_of_exempt {x y : Suffix n} (hexempt : y.exempt = true) :
    ∀ {found : List (Suffix n)}, y ∈ insert x found →
      y ∈ found ∨ (y = x ∧ x.chain.ends ∉ found.map (·.chain.ends)) := by
  intro found
  induction found with
  | nil => intro h; exact Or.inr ⟨by simpa [insert] using h, by simp⟩
  | cons z found ih =>
      intro h
      by_cases hz : z.chain.ends = x.chain.ends
      · rw [insert, if_pos hz] at h
        rcases List.mem_cons.mp h with hy | hy
        · split at hy
          · rename_i htakes
            rw [hy] at hexempt
            simp [hexempt] at htakes
          · exact Or.inl (hy ▸ List.mem_cons_self)
        · exact Or.inl (List.mem_cons_of_mem _ hy)
      · rw [insert, if_neg hz] at h
        rcases List.mem_cons.mp h with hy | hy
        · exact Or.inl (hy ▸ List.mem_cons_self)
        · rcases ih hy with hy | ⟨hy, hnew⟩
          · exact Or.inl (List.mem_cons_of_mem _ hy)
          · refine Or.inr ⟨hy, ?_⟩
            rw [List.map_cons, List.mem_cons, not_or]
            exact ⟨fun hc => hz hc.symm, hnew⟩

/-- So it is there because it was the first with its ends. -/
theorem find?_of_exempt {y : Suffix n} (hexempt : y.exempt = true) {found : List (Suffix n)}
    (hnd : (found.map (·.chain.ends)).Nodup) :
    ∀ xs : List (Suffix n), y ∈ insertAll found xs →
      (found ++ xs).find? (fun x => x.chain.ends = y.chain.ends) = some y := by
  intro xs
  induction xs using List.reverseRecOn with
  | nil =>
      intro h
      rw [List.append_nil]
      exact find?_key_of_mem hnd h
  | append_singleton xs x ih =>
      intro h
      rw [insertAll, List.foldl_append] at h
      rw [← List.append_assoc, List.find?_append]
      rcases mem_insert_of_exempt hexempt h with h | ⟨rfl, hnew⟩
      · rw [ih h]
        rfl
      · have hnone : (found ++ xs).find? (fun x => x.chain.ends = y.chain.ends) = none := by
          rw [List.find?_eq_none]
          intro z hz hends
          refine hnew ?_
          show y.chain.ends ∈ (insertAll found xs).map (·.chain.ends)
          rw [ends_insertAll xs hnd, mem_distinctBy_id]
          exact List.mem_map.mpr ⟨z, hz, by simpa using hends⟩
        rw [hnone]
        simp

end Suffix

/-- The chain enters a member. -/
def Chain.visits (c : Chain n) (k : Fin n) : Prop :=
  ∃ r ∈ c.rest, r.owner = k

theorem Chain.visits_cons {s : SiteId n} {c : Chain n} {k : Fin n} :
    (c.cons s).visits k ↔ c.first.owner = k ∨ c.visits k := by
  simp [visits, Chain.sites]

theorem Chain.clearOf_iff {members : Finset (Fin n)} {c : Chain n} :
    c.clearOf members = true ↔ ∀ k ∈ members, ¬ c.visits k := by
  simp only [clearOf, List.all_eq_true, decide_eq_true_eq, visits, not_exists, not_and]
  exact ⟨fun h k hk r hr hrk => h r hr (hrk ▸ hk), fun h r hr hc => h _ hc r hr rfl⟩

namespace CallGraph

variable (g : CallGraph n)

/--
No suffix that takes over hides where the path before it went.  If below a member an exempt
path comes before an unexempted one with the same ends, then the later path enters every
member that the earlier one enters and from which exploring may come to that member.
-/
def Settled : Prop :=
  ∀ m, (g.tags m).affinity = none →
    (g.paths {m} (g.sites m)).Pairwise fun c d =>
      c.ends = d.ends → g.exempts c.tag c.sites = true → g.exempts d.tag d.sites = false →
        ∀ k, c.visits k → g.Above k m → d.visits k

/-- From no member calls come back to it. -/
def Acyclic : Prop :=
  ∀ m, ¬ Relation.TransGen g.Enters m m

variable {g} in
theorem Leads.transGen_enters {t : Tag} {calls : List (SiteId n)} (h : g.Leads calls t) :
    ∀ q s rest, calls = s :: rest → s ∈ g.sites q →
      ∀ r ∈ rest, Relation.TransGen g.Enters q r.owner := by
  induction h with
  | reach _ _ =>
      intro q s rest hcalls _ r hr
      cases hcalls
      simp at hr
  | @enter s₀ r₀ m tail t hs hm hr₀ _ ih =>
      intro q s rest hcalls hsq r hr
      cases hcalls
      have henters : g.Enters q m := ⟨hm, s₀, hsq, hs⟩
      rcases List.mem_cons.mp hr with rfl | hr
      · rw [(g.mem_sites.mp hr₀).1]
        exact .single henters
      · exact .head henters (ih m r₀ tail rfl hr₀ r hr)

variable {g} in
/-- There a path enters no member from which exploring may come. -/
theorem Acyclic.settled (h : g.Acyclic) : g.Settled := by
  intro m _
  refine List.pairwise_of_forall_mem_list fun c hc _ _ _ _ _ k hk habove => ?_
  obtain ⟨hfirst, hleads, -⟩ := mem_paths.mp hc
  obtain ⟨r, hr, rfl⟩ := hk
  have hdown := hleads.transGen_enters m c.first c.rest rfl hfirst r hr
  exact absurd (hdown.trans_left habove) (h m)

/-- A summary with the ends in the order in which the paths first have them. -/
structure Placed (xs : List (Suffix n)) (paths : List (Chain n)) : Prop
    extends g.Summary xs paths where
  order : xs.map (·.chain.ends) = distinctBy id (paths.map (·.ends))
  /-- Of the members above, an exempt suffix enters all that the first path with its ends
  enters. -/
  through : ∀ x ∈ xs, x.exempt = true → ∀ c,
    paths.find? (fun d => d.ends = x.chain.ends) = some c →
      ∀ k, c.visits k → g.Above k c.first.owner → x.chain.visits k

namespace Placed

variable {g} {xs found : List (Suffix n)} {paths more : List (Chain n)}

theorem nil : g.Placed [] [] :=
  ⟨Summary.nil, rfl, by simp⟩

/-- Suffixes that have the ends of their paths in order are added at the end. -/
theorem add (h : g.Placed found paths)
    (hsum : g.Summary (Suffix.insertAll found xs) (paths ++ more))
    (hends : ∀ l, distinctBy id (l ++ xs.map (·.chain.ends)) =
      distinctBy id (l ++ more.map (·.ends)))
    (hthrough : ∀ x ∈ xs, x.exempt = true →
      xs.find? (fun y => y.chain.ends = x.chain.ends) = some x → ∀ c,
        more.find? (fun d => d.ends = x.chain.ends) = some c →
          ∀ k, c.visits k → g.Above k c.first.owner → x.chain.visits k) :
    g.Placed (Suffix.insertAll found xs) (paths ++ more) := by
  refine ⟨hsum, ?_, ?_⟩
  · rw [Suffix.ends_insertAll xs h.distinct, List.map_append, h.order, distinctBy_append_left,
      hends, List.map_append]
  · intro x hx hexempt c hc
    have hfirst := Suffix.find?_of_exempt hexempt h.distinct xs hx
    rw [List.find?_append] at hfirst hc
    cases hfound : found.find? (fun y => y.chain.ends = x.chain.ends) with
    | some y =>
        rw [hfound, Option.some_or] at hfirst
        cases hfirst
        have hmem := List.mem_of_find?_eq_some hfound
        cases hold : paths.find? (fun d => d.ends = x.chain.ends) with
        | none =>
            exact absurd (decide_eq_true rfl) (List.find?_eq_none.mp hold _ (h.kept x hmem))
        | some d =>
            rw [hold, Option.some_or] at hc
            cases hc
            exact h.through x hmem hexempt c hold
    | none =>
        rw [hfound, Option.none_or] at hfirst
        have hold : paths.find? (fun d => d.ends = x.chain.ends) = none := by
          rw [List.find?_eq_none]
          intro d hd hends
          obtain ⟨y, hy, hyd⟩ := h.covers d hd
          have hyx : y.chain.ends = x.chain.ends := hyd.trans (by simpa using hends)
          exact List.find?_eq_none.mp hfound y hy (decide_eq_true hyx)
        rw [hold, Option.none_or] at hc
        exact hthrough x (List.mem_of_find?_eq_some hfirst) hexempt hfirst c hc

/-- Of the members above, a suffix enters all that the first path with its ends enters. -/
theorem visits {m : Fin n} (h : g.Placed xs paths) (howner : ∀ c ∈ paths, c.first.owner = m)
    (hsettled : paths.Pairwise fun c d =>
      c.ends = d.ends → g.exempts c.tag c.sites = true → g.exempts d.tag d.sites = false →
        ∀ k, c.visits k → g.Above k m → d.visits k)
    {x : Suffix n} (hx : x ∈ xs) {c : Chain n}
    (hc : paths.find? (fun d => d.ends = x.chain.ends) = some c) {k : Fin n}
    (hk : c.visits k) (habove : g.Above k m) : x.chain.visits k := by
  have hmem := List.mem_of_find?_eq_some hc
  have hends : c.ends = x.chain.ends := by simpa using List.find?_some hc
  cases hfree : g.exempts c.tag c.sites with
  | false =>
      -- The first path is the first unexempted one, and the suffix is that one.
      have hfirst := find?_narrow hc (g.freeAt_iff.mpr ⟨hends, hfree⟩) fun d _ hd =>
        decide_eq_true (g.freeAt_iff.mp hd).1
      rw [h.find?_eq hx hmem hends hfree] at hfirst
      rw [Option.some.inj hfirst]
      exact hk
  | true =>
      cases hflag : x.exempt with
      | true => exact h.through x hx hflag c hc k hk (howner c hmem ▸ habove)
      | false =>
          -- The suffix took over from the first path, so it comes later.
          rw [h.flagged x hx] at hflag
          obtain ⟨-, before, after, rfl, hbefore⟩ := List.find?_eq_some_iff_append.mp hc
          have hafter : x.chain ∈ after := by
            rcases List.mem_append.mp (h.kept x hx) with hmem | hmem
            · have := hbefore _ hmem
              simp at this
            · rcases List.mem_cons.mp hmem with heq | hmem
              · rw [heq, hfree] at hflag
                cases hflag
              · exact hmem
          rw [List.pairwise_append, List.pairwise_cons] at hsettled
          exact hsettled.2.1.1 _ hafter hends hfree hflag k hk habove

/-- The same with a call of the member in front, where only the last calls tell ends apart. -/
theorem visits_cons (hsettled : g.Settled) {m : Fin n} {avoid : Finset (Fin n)} {s : SiteId n}
    (henters : g.Enters s.owner m) (h : g.Placed xs (g.paths (insert m avoid) (g.sites m)))
    {y : Suffix n} {c : Chain n}
    (hy : (xs.map (Suffix.cons g s)).find? (fun z => z.chain.ends = y.chain.ends) = some y)
    (hc : ((g.paths (insert m avoid) (g.sites m)).map (Chain.cons s)).find?
      (fun d => d.ends = y.chain.ends) = some c) {k : Fin n}
    (hk : c.visits k) (habove : g.Above k c.first.owner) : y.chain.visits k := by
  obtain ⟨x, d, rfl, rfl, hx, hfirst⟩ := h.toSummary.find?_cons hy hc
  show (x.chain.cons s).visits k
  rw [Chain.visits_cons, owner_of_mem_paths (List.mem_of_find?_eq_some hfirst)] at hk
  rw [Chain.visits_cons, owner_of_mem_paths (h.kept x hx)]
  refine hk.imp_right fun hk => ?_
  refine h.visits (fun _ => owner_of_mem_paths) ?_ hx hfirst hk (habove.tail henters)
  rw [Finset.insert_eq, paths_union]
  exact (hsettled m henters.1).filter _

theorem entered (hsettled : g.Settled) {q m : Fin n} {avoid : Finset (Fin n)}
    {done after : List (SiteId n)} {s : SiteId n} {below : List (Suffix n)}
    (hbody : g.sites q = done ++ s :: after) (hs : g.callee? s = some m)
    (hm : (g.tags m).affinity = none) (hav : m ∉ avoid) (h : g.Placed found (g.paths avoid done))
    (hbelow : g.Placed below (g.paths (insert m avoid) (g.sites m))) :
    g.Placed (Suffix.insertAll found (below.map (Suffix.cons g s)))
      (g.paths avoid (done ++ [s])) := by
  have hsum := h.toSummary.add hbody (hbelow.toSummary.cons hs hm hav)
  rw [paths_append, paths_singleton, pathsThrough_entered hs hm hav] at hsum ⊢
  refine h.add hsum ?_ ?_
  · -- The ends of a suffix and of a path become those of the call and their last one.
    intro l
    have hxs : (below.map (Suffix.cons g s)).map (·.chain.ends) =
        (below.map (·.chain.ends)).map fun e => (s, e.2) := by
      rw [List.map_map, List.map_map]
      exact List.map_congr_left fun x _ => Chain.ends_cons s x.chain
    have hmore : ((g.paths (insert m avoid) (g.sites m)).map (Chain.cons s)).map (·.ends) =
        ((g.paths (insert m avoid) (g.sites m)).map (·.ends)).map fun e => (s, e.2) := by
      rw [List.map_map, List.map_map]
      exact List.map_congr_left fun c _ => Chain.ends_cons s c
    rw [hxs, hmore, hbelow.order]
    exact distinctBy_append_map (fun a b hab => by rw [show a = b from hab]) l _
  · intro y _ _ hy c hc k hk habove
    have hmem : s ∈ g.sites q := by rw [hbody]; simp
    have henters : g.Enters s.owner m := ⟨hm, s, (g.mem_sites.mp hmem).1 ▸ hmem, hs⟩
    exact hbelow.visits_cons hsettled henters hy hc hk habove

/-- Members from which exploring may come are avoided as well. -/
theorem restrict (hsettled : g.Settled) {q : Fin n} {above : Finset (Fin n)}
    (hq : (g.tags q).affinity = none) (habove : ∀ k ∈ above, g.Above k q)
    (h : g.Placed xs (g.paths {q} (g.sites q)))
    (hclear : ∀ x ∈ xs, x.chain.clearOf above = true) :
    g.Placed xs (g.paths ({q} ∪ above) (g.sites q)) := by
  have hsum := h.toSummary.restrict hclear
  rw [paths_union] at hsum ⊢
  -- The first path with some ends avoids them because the suffix with these ends does.
  have hfirst : ∀ c e, (g.paths {q} (g.sites q)).find? (fun d => d.ends = e) = some c →
      c.clearOf above = true := by
    intro c e hc
    have hends : c.ends = e := by simpa using List.find?_some hc
    obtain ⟨x, hx, hxc⟩ := h.covers c (List.mem_of_find?_eq_some hc)
    rw [← hends, ← hxc] at hc
    rw [Chain.clearOf_iff]
    intro k hk hvisits
    have := h.visits (fun _ => owner_of_mem_paths) (hsettled q hq) hx hc hvisits (habove k hk)
    exact Chain.clearOf_iff.mp (hclear x hx) k hk this
  refine ⟨hsum, ?_, ?_⟩
  · rw [h.order, ← map_distinctBy, ← map_distinctBy, distinctBy_filter]
    intro c hc
    exact hfirst c _ (find?_of_mem_distinctBy hc)
  · intro x hx hexempt c hc
    cases hall : (g.paths {q} (g.sites q)).find? (fun d => d.ends = x.chain.ends) with
    | none => exact absurd (decide_eq_true rfl) (List.find?_eq_none.mp hall _ (h.kept x hx))
    | some d =>
        have hd : d.ends = x.chain.ends := by simpa using List.find?_some hall
        rw [List.find?_filter, find?_narrow hall (by simp [hfirst d _ hall, hd])
          (fun _ _ h => by simp at h; simp [h.2])] at hc
        cases hc
        exact h.through x hx hexempt c hall

end Placed

/-- **Where the graph is settled, exploring keeps every pair of ends in its place.** -/
theorem placed_digest (hsettled : g.Settled) : g.Digest g.Placed where
  nil := Placed.nil
  tagged := by
    intro q m avoid done after s t found hbody hs hm h
    have hsum := g.summary_digest.tagged hbody hs hm h.toSummary
    rw [paths_append, paths_singleton, pathsThrough_tagged hs hm] at hsum ⊢
    show g.Placed (Suffix.insertAll found [Suffix.single g s t]) _
    refine h.add hsum (fun _ => rfl) ?_
    intro x _ _ _ c hc k hk _
    rw [List.mem_singleton.mp (List.mem_of_find?_eq_some hc)] at hk
    obtain ⟨r, hr, -⟩ := hk
    simp at hr
  entered := fun hbody hs hm hav h hbelow => h.entered hsettled hbody hs hm hav hbelow
  restrict := fun hq habove h hclear => h.restrict hsettled hq habove hclear

end CallGraph

end ThreadAffinity
