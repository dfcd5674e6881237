/-
Which of several paths is kept.

Of the paths with the same ends an exploration keeps the first that is not exempt, and it
does so at every member on the way, before it is known which calls come in front.  A call in
front may exempt all of them.  Then the path that was kept further down stays, although
another one came first: the graph `handoff` shows it.

So the rule is this.  The path that is kept follows the first path with its ends up to the
earliest call from which some path goes on unexempted, and it is the first that does.  If a
path is not exempt at all, that call is the first one.  `Kept` says this of a list of paths,
and every step of an exploration keeps it up.  Where more members are to be avoided, the first
path may be lost; but the new first one comes between it and the path that is kept, and in a
list in depth-first order what comes between two paths starts as they do.
-/
import Mathlib.Data.Fin.Tuple.Take
import Mathlib.Data.List.Lex
import ThreadAffinity.Proofs.BoundaryChains
import ThreadAffinity.Proofs.Placement

namespace ThreadAffinity

variable {n : Nat}

/-! ### Paths between two that start alike -/

theorem take_eq_of_between {as bs cs : List Nat} {k : Nat} (hab : ¬ bs < as) (hbc : ¬ cs < bs)
    (h : as.take k = cs.take k) : bs.take k = as.take k := by
  induction k generalizing as bs cs with
  | zero => rfl
  | succ k ih =>
      cases as with
      | nil =>
          have hcs : cs = [] := by simpa using h.symm
          subst hcs
          cases bs with
          | nil => rfl
          | cons b bs => exact absurd (List.nil_lt_cons b bs) hbc
      | cons a as =>
          cases cs with
          | nil => simp at h
          | cons c cs =>
              cases bs with
              | nil => exact absurd (List.nil_lt_cons a as) hab
              | cons b bs =>
                  rw [List.take_succ_cons, List.take_succ_cons, List.cons.injEq] at h
                  obtain ⟨rfl, h⟩ := h
                  rw [List.cons_lt_cons_iff, not_or, not_and] at hab hbc
                  have hba : b = a := by omega
                  rw [List.take_succ_cons, List.take_succ_cons, hba,
                    ih (hab.2 hba) (hbc.2 hba.symm) h]

namespace CallGraph

variable {g : CallGraph n}

theorem Leads.tail {s r : SiteId n} {rest : List (SiteId n)} {t : Tag}
    (h : g.Leads (s :: r :: rest) t) :
    ∃ m, g.callee? s = some m ∧ r ∈ g.sites m ∧ g.Leads (r :: rest) t := by
  cases h with
  | enter hs _ hr h => exact ⟨_, hs, hr, h⟩

/-- From one body, the places of the calls tell the calls. -/
theorem Leads.take_eq {k : Nat} {s r : SiteId n} {cs ds : List (SiteId n)} {t u : Tag}
    (hc : g.Leads (s :: cs) t) (hd : g.Leads (r :: ds) u) (howner : s.owner = r.owner)
    (h : ((s :: cs).map (·.index)).take k = ((r :: ds).map (·.index)).take k) :
    (s :: cs).take k = (r :: ds).take k := by
  induction k generalizing s r cs ds with
  | zero => rfl
  | succ k ih =>
      rw [List.map_cons, List.map_cons, List.take_succ_cons, List.take_succ_cons,
        List.cons.injEq] at h
      obtain ⟨hindex, h⟩ := h
      obtain rfl := SiteId.ext howner hindex
      rw [List.take_succ_cons, List.take_succ_cons]
      cases cs with
      | nil =>
          cases ds with
          | nil => rfl
          | cons r' ds => cases k with
            | zero => rfl
            | succ k => simp at h
      | cons s' cs =>
          cases ds with
          | nil => cases k with
            | zero => rfl
            | succ k => simp at h
          | cons r' ds =>
              obtain ⟨m, hm, hs', hc⟩ := hc.tail
              obtain ⟨m', hm', hr', hd⟩ := hd.tail
              obtain rfl : m = m' := Option.some.inj (hm.symm.trans hm')
              have howner : s'.owner = r'.owner := by
                rw [(g.mem_sites.mp hs').1, (g.mem_sites.mp hr').1]
              rw [ih hc hd howner h]

/-- A path that comes between two in the list starts like them where they start alike. -/
theorem take_sites_of_between {q : Fin n} {avoid : Finset (Fin n)} {k : Nat} {b c d : Chain n}
    (hb : b ∈ g.paths avoid (g.sites q)) (hc : c ∈ g.paths avoid (g.sites q))
    (hbc : ¬ c.Before b) (hcd : ¬ d.Before c)
    (h : b.sites.take k = d.sites.take k) : c.sites.take k = b.sites.take k := by
  have hindex := congrArg (List.map SiteId.index) h
  rw [List.map_take, List.map_take] at hindex
  refine (leads_of_mem_paths hc).take_eq (leads_of_mem_paths hb) ?_
    (take_eq_of_between hbc hcd hindex)
  rw [owner_of_mem_paths hb, owner_of_mem_paths hc]

/-! ### The path that is kept -/

variable (g) in
/-- Whether a path has the ends of another one, shares its calls up to the one with number
`k`, and is not exempt from that call on. -/
def freeFrom (k : Nat) (c d : Chain n) : Bool :=
  d.ends = c.ends && d.sites.take (k + 1) = c.sites.take (k + 1) &&
    ! g.exempts d.tag (d.sites.drop k)

theorem freeFrom_iff {k : Nat} {c d : Chain n} :
    g.freeFrom k c d = true ↔ d.ends = c.ends ∧ d.sites.take (k + 1) = c.sites.take (k + 1) ∧
      g.exempts d.tag (d.sites.drop k) = false := by
  simp [freeFrom, and_assoc]

theorem freeFrom_zero {c d : Chain n} : g.freeFrom 0 c d = g.freeAt c.ends d := by
  rw [Bool.eq_iff_iff, freeFrom_iff, freeAt_iff]
  refine and_congr_right fun hends => and_iff_right ?_
  have hfirst : d.first = c.first := congrArg Prod.fst hends
  simp [Chain.sites, hfirst]

theorem freeFrom_cons {k : Nat} {s : SiteId n} {c d : Chain n} :
    g.freeFrom (k + 1) (c.cons s) (d.cons s) = g.freeFrom k c d := by
  rw [Bool.eq_iff_iff, freeFrom_iff, freeFrom_iff, Chain.ends_cons_inj, Chain.sites_cons,
    Chain.sites_cons, List.take_succ_cons, List.take_succ_cons, List.drop_succ_cons,
    Chain.tag_cons, List.cons.injEq]
  constructor
  · rintro ⟨hlast, ⟨-, htake⟩, hfree⟩
    have hfirst : d.first = c.first := by
      rw [Chain.sites, Chain.sites, List.take_succ_cons, List.take_succ_cons,
        List.cons.injEq] at htake
      exact htake.1
    exact ⟨Prod.ext hfirst hlast, htake, hfree⟩
  · rintro ⟨hends, htake, hfree⟩
    exact ⟨congrArg Prod.snd hends, ⟨rfl, htake⟩, hfree⟩

/-- At the end of a path nothing exempts it any more. -/
theorem freeFrom_length (c : Chain n) : g.freeFrom c.sites.length c c = true :=
  freeFrom_iff.mpr ⟨rfl, rfl, by simp [exempts]⟩

variable (g) in
/-- The path `c` is the one to keep of those with the ends of `first`: no path goes on
unexempted from a call of `first` before the one with number `k`, and `c` is the first path
that does from that one. -/
structure Kept (paths : List (Chain n)) (first c : Chain n) (k : Nat) : Prop where
  earliest : ∀ j < k, ∀ d ∈ paths, g.freeFrom j first d = false
  found : paths.find? (g.freeFrom k first) = some c

/-- Only the paths with the same ends matter. -/
theorem kept_filter {paths : List (Chain n)} {first c : Chain n} {k : Nat} :
    g.Kept (paths.filter (·.ends = first.ends)) first c k ↔ g.Kept paths first c k := by
  have hends : ∀ j d, g.freeFrom j first d = true → d.ends = first.ends := fun _ _ h =>
    (freeFrom_iff.mp h).1
  have hfind : (paths.filter (·.ends = first.ends)).find? (g.freeFrom k first) =
      paths.find? (g.freeFrom k first) := by
    rw [List.find?_filter]
    refine List.find?_congr fun d _ => ?_
    rw [Bool.eq_iff_iff, decide_eq_true_eq, decide_eq_true_eq]
    exact ⟨fun h => h.2, fun h => ⟨hends k d h, h⟩⟩
  constructor
  · intro h
    refine ⟨fun j hj d hd => ?_, hfind ▸ h.found⟩
    by_contra hfree
    rw [Bool.not_eq_false] at hfree
    have := h.earliest j hj d (List.mem_filter.mpr ⟨hd, decide_eq_true (hends j d hfree)⟩)
    rw [hfree] at this
    cases this
  · intro h
    exact ⟨fun j hj d hd => h.earliest j hj d (List.mem_filter.mp hd).1, hfind.trans h.found⟩

namespace Kept

variable {paths more : List (Chain n)} {first c : Chain n} {k : Nat}

theorem of_filter_eq (h : g.Kept more first c k)
    (heq : paths.filter (·.ends = first.ends) = more.filter (·.ends = first.ends)) :
    g.Kept paths first c k := by
  rw [← kept_filter, heq, kept_filter]
  exact h

/-- Where some path is not exempt at all, the first such path is the one to keep. -/
theorem of_freeAt (h : paths.find? (g.freeAt first.ends) = some c) : g.Kept paths first c 0 := by
  refine ⟨fun j hj => absurd hj (Nat.not_lt_zero j), ?_⟩
  rw [← h]
  exact List.find?_congr fun d _ => freeFrom_zero

/-- A call in front that leaves no path unexempted changes nothing. -/
theorem cons (h : g.Kept paths first c k) {s : SiteId n}
    (hexempt : ∀ d ∈ paths, g.freeFrom 0 (first.cons s) (d.cons s) = false) :
    g.Kept (paths.map (Chain.cons s)) (first.cons s) (c.cons s) (k + 1) := by
  refine ⟨?_, ?_⟩
  · intro j hj d hd
    obtain ⟨d', hd', rfl⟩ := List.mem_map.mp hd
    cases j with
    | zero => exact hexempt d' hd'
    | succ j =>
        rw [freeFrom_cons]
        exact h.earliest j (Nat.lt_of_succ_lt_succ hj) d' hd'
  · rw [List.find?_map, Option.map_eq_some_iff]
    refine ⟨c, ?_, rfl⟩
    rw [← h.found]
    exact List.find?_congr fun d _ => freeFrom_cons

/-- It may as well be compared with another path that shares the calls that matter. -/
theorem congr_first (h : g.Kept paths first c k) {other : Chain n} (hends : other.ends = first.ends)
    (htake : other.sites.take (k + 1) = first.sites.take (k + 1)) : g.Kept paths other c k := by
  have hfree : ∀ j ≤ k, ∀ d, g.freeFrom j other d = g.freeFrom j first d := by
    intro j hj d
    have htake : other.sites.take (j + 1) = first.sites.take (j + 1) := by
      have := congrArg (List.take (j + 1)) htake
      rwa [List.take_take, List.take_take, Nat.min_eq_left (by omega)] at this
    rw [freeFrom, freeFrom, hends, htake]
  refine ⟨fun j hj d hd => ?_, ?_⟩
  · rw [hfree j (Nat.le_of_lt hj)]
    exact h.earliest j hj d hd
  · rw [← h.found]
    exact List.find?_congr fun d _ => hfree k (Nat.le_refl k) d

theorem mem (h : g.Kept paths first c k) : c ∈ paths :=
  List.mem_of_find?_eq_some h.found

theorem ends_eq (h : g.Kept paths first c k) : c.ends = first.ends :=
  (freeFrom_iff.mp (List.find?_some h.found)).1

theorem take_eq (h : g.Kept paths first c k) :
    c.sites.take (k + 1) = first.sites.take (k + 1) :=
  (freeFrom_iff.mp (List.find?_some h.found)).2.1

end Kept

/-! ### Exploring keeps to the rule -/

section Body

variable {avoid : Finset (Fin n)} {q : Fin n} {s : SiteId n} {done after : List (SiteId n)}

theorem notMem_done (hbody : g.sites q = done ++ s :: after) : s ∉ done := by
  intro hs
  have hpair := g.sites_pairwise q
  rw [hbody, List.pairwise_append] at hpair
  exact Nat.lt_irrefl _ (hpair.2.2 s hs s List.mem_cons_self)

/-- The next call of a body brings no path with ends that are there already. -/
theorem filter_ends_done (hbody : g.sites q = done ++ s :: after) {c : Chain n}
    (hfirst : c.first ∈ done) :
    (g.paths avoid (done ++ [s])).filter (·.ends = c.ends) =
      (g.paths avoid done).filter (·.ends = c.ends) := by
  rw [paths_append, paths_singleton, List.filter_append, List.append_right_eq_self,
    List.filter_eq_nil_iff]
  intro d hd hends
  have hends : d.first = c.first := congrArg Prod.fst (of_decide_eq_true hends)
  rw [← hends, first_of_mem_pathsThrough hd] at hfirst
  exact notMem_done hbody hfirst

/-- And the paths with new ends all start with that call. -/
theorem filter_ends_next (hbody : g.sites q = done ++ s :: after) {c : Chain n}
    (hfirst : c.first = s) :
    (g.paths avoid (done ++ [s])).filter (·.ends = c.ends) =
      (g.pathsThrough avoid s).filter (·.ends = c.ends) := by
  rw [paths_append, paths_singleton, List.filter_append, List.append_left_eq_self,
    List.filter_eq_nil_iff]
  intro d hd hends
  have hends : d.first = c.first := congrArg Prod.fst (of_decide_eq_true hends)
  have hd := first_mem_of_mem_paths hd
  rw [hends, hfirst] at hd
  exact notMem_done hbody hd

/-- A search among the paths with given ends may leave out the others. -/
theorem find?_ends_congr {paths more : List (Chain n)} {e : SiteId n × SiteId n}
    (h : paths.filter (·.ends = e) = more.filter (·.ends = e)) :
    paths.find? (fun d => d.ends = e) = more.find? (fun d => d.ends = e) := by
  rw [← List.head?_filter, ← List.head?_filter, h]

end Body

variable (g) in
/-- A summary in which every suffix is the path to keep of those with its ends. -/
structure Chosen (xs : List (Suffix n)) (paths : List (Chain n)) : Prop
    extends g.Summary xs paths where
  choice : ∀ x ∈ xs, ∀ first, paths.find? (fun d => d.ends = x.chain.ends) = some first →
    ∃ k, g.Kept paths first x.chain k

namespace Chosen

variable {xs found below : List (Suffix n)} {paths : List (Chain n)} {avoid : Finset (Fin n)}
  {q m : Fin n} {s : SiteId n} {done after : List (SiteId n)}

theorem nil : g.Chosen [] [] :=
  ⟨Summary.nil, by simp⟩

/-- What a call of a body brings is added. -/
theorem add (hbody : g.sites q = done ++ s :: after) (h : g.Chosen found (g.paths avoid done))
    (hsum : g.Summary (Suffix.insertAll found xs) (g.paths avoid (done ++ [s])))
    (hxs : ∀ x ∈ xs, x.chain.first = s)
    (hnew : ∀ x ∈ xs, xs.find? (fun y => y.chain.ends = x.chain.ends) = some x → ∀ first,
      (g.pathsThrough avoid s).find? (fun d => d.ends = x.chain.ends) = some first →
      (∀ d ∈ g.pathsThrough avoid s, g.freeAt x.chain.ends d = false) →
        ∃ k, g.Kept (g.pathsThrough avoid s) first x.chain k) :
    g.Chosen (Suffix.insertAll found xs) (g.paths avoid (done ++ [s])) := by
  refine ⟨hsum, fun x hx first hfirst => ?_⟩
  have hends : first.ends = x.chain.ends := by simpa using List.find?_some hfirst
  cases hflag : x.exempt with
  | false =>
      rw [hsum.flagged x hx] at hflag
      have hfree := hsum.find?_eq hx (hsum.kept x hx) rfl hflag
      rw [← hends] at hfree
      exact ⟨0, Kept.of_freeAt hfree⟩
  | true =>
      -- An exempt suffix came first, among those from before or else among the new ones.
      have hcame := Suffix.find?_of_exempt hflag h.distinct xs hx
      rw [List.find?_append] at hcame
      cases hfound : found.find? (fun y => y.chain.ends = x.chain.ends) with
      | some y =>
          rw [hfound, Option.some_or] at hcame
          cases hcame
          have hmem := List.mem_of_find?_eq_some hfound
          have hdone : (g.paths avoid (done ++ [s])).filter (·.ends = x.chain.ends) =
              (g.paths avoid done).filter (·.ends = x.chain.ends) :=
            filter_ends_done hbody (first_mem_of_mem_paths (h.kept x hmem))
          rw [find?_ends_congr hdone] at hfirst
          obtain ⟨k, hk⟩ := h.choice x hmem first hfirst
          rw [← hends] at hdone
          exact ⟨k, hk.of_filter_eq hdone⟩
      | none =>
          rw [hfound, Option.none_or] at hcame
          have hmem := List.mem_of_find?_eq_some hcame
          have hnext : (g.paths avoid (done ++ [s])).filter (·.ends = x.chain.ends) =
              (g.pathsThrough avoid s).filter (·.ends = x.chain.ends) :=
            filter_ends_next hbody (hxs x hmem)
          rw [find?_ends_congr hnext] at hfirst
          have hexempt : ∀ d ∈ g.pathsThrough avoid s, g.freeAt x.chain.ends d = false := by
            intro d hd
            by_contra hfree
            rw [Bool.not_eq_false, freeAt_iff] at hfree
            have hd : d ∈ g.paths avoid (done ++ [s]) := by
              rw [paths_append, paths_singleton]
              exact List.mem_append_right _ hd
            have := List.find?_some (hsum.find?_eq hx hd hfree.1 hfree.2)
            rw [← g.freeAt_of_flag (hsum.flagged x hx), Suffix.freeAt, hflag] at this
            simp at this
          obtain ⟨k, hk⟩ := hnew x hmem hcame first hfirst hexempt
          rw [← hends] at hnext
          exact ⟨k, hk.of_filter_eq hnext⟩

theorem tagged {t : Tag} (hbody : g.sites q = done ++ s :: after) (hs : g.callee? s = some m)
    (hm : (g.tags m).affinity = some t) (h : g.Chosen found (g.paths avoid done)) :
    g.Chosen ((Suffix.single g s t).insert found) (g.paths avoid (done ++ [s])) := by
  show g.Chosen (Suffix.insertAll found [Suffix.single g s t]) _
  refine h.add hbody (g.summary_digest.tagged hbody hs hm h.toSummary) (by simp [Suffix.single]) ?_
  intro x hx _ first hfirst hexempt
  rw [List.mem_singleton] at hx
  subst hx
  rw [pathsThrough_tagged hs hm] at hfirst hexempt ⊢
  obtain rfl := List.mem_singleton.mp (List.mem_of_find?_eq_some hfirst)
  refine ⟨1, ⟨fun j hj d hd => ?_, ?_⟩⟩
  · obtain rfl : j = 0 := by omega
    rw [freeFrom_zero]
    exact hexempt d hd
  · have hfree : g.freeFrom 1 { tag := t, first := s } { tag := t, first := s } = true :=
      freeFrom_length _
    rw [List.find?_cons_of_pos hfree]
    rfl

theorem entered (hbody : g.sites q = done ++ s :: after) (hs : g.callee? s = some m)
    (hm : (g.tags m).affinity = none) (hav : m ∉ avoid) (h : g.Chosen found (g.paths avoid done))
    (hbelow : g.Chosen below (g.paths (insert m avoid) (g.sites m))) :
    g.Chosen (Suffix.insertAll found (below.map (Suffix.cons g s)))
      (g.paths avoid (done ++ [s])) := by
  refine h.add hbody (g.summary_digest.entered hbody hs hm hav h.toSummary hbelow.toSummary) ?_ ?_
  · intro y hy
    obtain ⟨x, -, rfl⟩ := List.mem_map.mp hy
    rfl
  · intro y _ hy first hfirst hexempt
    rw [pathsThrough_entered hs hm hav] at hfirst hexempt ⊢
    obtain ⟨x, d, rfl, rfl, hx, hd⟩ := hbelow.toSummary.find?_cons hy hfirst
    obtain ⟨k, hk⟩ := hbelow.choice x hx d hd
    refine ⟨k + 1, hk.cons fun c hc => ?_⟩
    have hends : (d.cons s).ends = (Suffix.cons g s x).chain.ends := by
      simpa using List.find?_some hfirst
    rw [freeFrom_zero, hends]
    exact hexempt _ (List.mem_map_of_mem hc)

/-- Members that no suffix enters may be avoided as well.  The first path with some ends may
be lost, but the new first one comes before the path to keep and so shares its calls. -/
theorem restrict {more : Finset (Fin n)} (h : g.Chosen xs (g.paths {q} (g.sites q)))
    (hclear : ∀ x ∈ xs, x.chain.clearOf more = true) :
    g.Chosen xs (g.paths ({q} ∪ more) (g.sites q)) := by
  refine ⟨h.toSummary.restrict hclear, fun x hx other hother => ?_⟩
  have hin := h.kept x hx
  rw [paths_union] at hother ⊢
  obtain ⟨hotherin, -⟩ := List.mem_filter.mp (List.mem_of_find?_eq_some hother)
  have hotherends : other.ends = x.chain.ends := by simpa using List.find?_some hother
  cases hfirst : (g.paths {q} (g.sites q)).find? (fun d => d.ends = x.chain.ends) with
  | none => exact absurd (decide_eq_true rfl) (List.find?_eq_none.mp hfirst _ hin)
  | some first =>
      obtain ⟨k, hk⟩ := h.choice x hx first hfirst
      have hnot : (g.paths {q} (g.sites q)).Pairwise fun c d : Chain n => ¬ d.Before c :=
        (paths_pairwise (g.sites_pairwise q)).imp fun {c d} hcd hdc => lt_asymm hcd hdc
      have hlow : ¬ other.Before first :=
        find?_rel (r := fun c d : Chain n => ¬ d.Before c) (fun c => lt_irrefl _) hnot hfirst
          hotherin (decide_eq_true hotherends)
      have hhigh : ¬ x.chain.Before other :=
        find?_rel (r := fun c d : Chain n => ¬ d.Before c) (fun c => lt_irrefl _) (hnot.filter _)
          hother (List.mem_filter.mpr ⟨hin, hclear x hx⟩) (decide_eq_true rfl)
      have htake := take_sites_of_between (List.mem_of_find?_eq_some hfirst) hotherin hlow hhigh
        hk.take_eq.symm
      have hkept := hk.congr_first (hotherends.trans hk.ends_eq) htake
      refine ⟨k, ⟨fun j hj d hd => hkept.earliest j hj d (List.mem_filter.mp hd).1, ?_⟩⟩
      rw [List.find?_filter]
      refine find?_narrow hkept.found ?_ fun d _ hd => ?_
      · rw [decide_eq_true_eq]
        exact ⟨hclear x hx, List.find?_some hkept.found⟩
      · exact (of_decide_eq_true hd).2

end Chosen

/-- **Exploring keeps to the rule.** -/
theorem chosen_digest (g : CallGraph n) : g.Digest g.Chosen where
  nil := Chosen.nil
  tagged := fun hbody hs hm h => h.tagged hbody hs hm
  entered := fun hbody hs hm hav h hbelow => h.entered hbody hs hm hav hbelow
  restrict := fun _ _ h hclear => h.restrict hclear

/-! ### The chains from a root -/

/-- What is unexempted from some call of a path is so from every later one. -/
theorem freeFrom_self_mono {c : Chain n} {j k : Nat} (hjk : j ≤ k)
    (h : g.freeFrom j c c = true) : g.freeFrom k c c = true := by
  obtain ⟨-, -, hfree⟩ := freeFrom_iff.mp h
  refine freeFrom_iff.mpr ⟨rfl, rfl, ?_⟩
  unfold exempts at hfree ⊢
  rw [List.any_eq_false] at hfree ⊢
  obtain ⟨i, rfl⟩ := Nat.exists_eq_add_of_le hjk
  rw [← List.drop_drop]
  exact fun r hr => hfree r (List.mem_of_mem_drop hr)

/-- The path to keep is the first one unless another one goes on unexempted where the first
does not. -/
theorem Kept.eq_first_iff {paths : List (Chain n)} {first c : Chain n} {k : Nat}
    (h : g.Kept paths first c k)
    (hfirst : paths.find? (fun d => d.ends = first.ends) = some first) :
    c = first ↔
      ∀ j, ∀ d ∈ paths, g.freeFrom j first d = true → g.freeFrom j first first = true := by
  constructor
  · rintro rfl j d hd hfree
    have hkj : k ≤ j := by
      by_contra hlt
      rw [h.earliest j (Nat.lt_of_not_le hlt) d hd] at hfree
      cases hfree
    exact freeFrom_self_mono hkj (List.find?_some h.found)
  · intro hall
    have hself := hall k c h.mem (List.find?_some h.found)
    have hfound := find?_narrow hfirst hself fun d _ hd => decide_eq_true (freeFrom_iff.mp hd).1
    exact Option.some.inj (h.found.symm.trans hfound)

theorem boundaryChains_kept {root : Fin n} {rootTag : Tag} {c first : Chain n}
    (hc : c ∈ g.boundaryChains root rootTag)
    (hfirst : (g.boundaryPaths root rootTag).find? (fun d => d.ends = c.ends) = some first) :
    ∃ k, g.Kept (g.boundaryPaths root rootTag) first c k := by
  have h := explore_root g.chosen_digest root
  obtain ⟨hc, hleaves⟩ := List.mem_filter.mp hc
  obtain ⟨x, hx, rfl⟩ := List.mem_map.mp hc
  -- Whether a path leaves the root's thread is told by its ends.
  have halike : ∀ d ∈ g.paths {root} (g.sites root), d.ends = x.chain.ends →
      leaves rootTag d = true := by
    intro d hd hends
    rw [leaves_eq_of_ends (leads_of_mem_paths hd) (leads_of_mem_paths (h.kept x hx)) hends]
    exact hleaves
  have hfilter : (g.boundaryPaths root rootTag).filter (·.ends = x.chain.ends) =
      (g.paths {root} (g.sites root)).filter (·.ends = x.chain.ends) := by
    rw [boundaryPaths, List.filter_filter]
    refine List.filter_congr fun d hd => ?_
    rw [Bool.eq_iff_iff, Bool.and_eq_true, decide_eq_true_eq]
    exact ⟨fun h => h.1, fun h => ⟨h, halike d hd h⟩⟩
  have hends : first.ends = x.chain.ends := by simpa using List.find?_some hfirst
  rw [find?_ends_congr hfilter] at hfirst
  obtain ⟨k, hk⟩ := h.choice x hx first hfirst
  rw [← hends] at hfilter
  exact ⟨k, hk.of_filter_eq hfilter⟩

/--
**Which of the paths with the same ends is kept.**  For every pair of ends that some path has
there is a chain.  It follows the first of the paths with these ends up to the earliest call
from which one of them goes on unexempted, and is the first that does so; so it is the first
path of all if and only if from no call on another path goes on unexempted where the first
one does not.
-/
theorem boundaryChains_choice (g : CallGraph n) (root : Fin n) (rootTag : Tag)
    {e : SiteId n × SiteId n} {first : Chain n}
    (hfirst : (g.boundaryPaths root rootTag).find? (fun d => d.ends = e) = some first) :
    ∃ c ∈ g.boundaryChains root rootTag, c.ends = e ∧
      (∃ k, (∀ j < k, ∀ d ∈ g.boundaryPaths root rootTag, g.freeFrom j first d = false) ∧
        (g.boundaryPaths root rootTag).find? (g.freeFrom k first) = some c) ∧
      (c = first ↔ ∀ k, ∀ d ∈ g.boundaryPaths root rootTag,
        g.freeFrom k first d = true → g.freeFrom k first first = true) := by
  have hends : first.ends = e := by simpa using List.find?_some hfirst
  obtain ⟨xs, hchains, hsum⟩ := g.boundaryChains_summary root rootTag
  obtain ⟨x, hx, hxends⟩ := hsum.covers first (List.mem_of_find?_eq_some hfirst)
  have hc : x.chain ∈ g.boundaryChains root rootTag := by
    rw [hchains]
    exact List.mem_map_of_mem hx
  subst hends
  obtain ⟨k, hk⟩ := boundaryChains_kept hc (hxends ▸ hfirst)
  exact ⟨x.chain, hc, hxends, ⟨k, hk.earliest, hk.found⟩, hk.eq_first_iff hfirst⟩

/-- The call of `1` is handed to the worker, and `2` calls `3` twice, the first time inside a
call that hands to the worker as well. -/
def handoff : CallGraph 6 where
  members := #v[
    { tags := { affinity := some ⟨"Main"⟩ }, sites := [{ callee := some 1, enclosing := [5] }] },
    { sites := [{ callee := some 2 }] },
    { sites := [{ callee := some 3, enclosing := [5] }, { callee := some 3 }] },
    { sites := [{ callee := some 4 }] },
    { tags := { affinity := some ⟨"Worker"⟩ } },
    { tags := { dispatch := some ⟨"Worker"⟩ } }]

/-- Both paths are exempt, and the second one is kept. -/
theorem handoff_keeps_second :
    (∀ d ∈ handoff.boundaryPaths 0 ⟨"Main"⟩, handoff.exempts d.tag d.sites = true) ∧
    (handoff.boundaryPaths 0 ⟨"Main"⟩).map (·.sites) =
      [[⟨0, 0⟩, ⟨1, 0⟩, ⟨2, 0⟩, ⟨3, 0⟩], [⟨0, 0⟩, ⟨1, 0⟩, ⟨2, 1⟩, ⟨3, 0⟩]] ∧
    (handoff.boundaryChains 0 ⟨"Main"⟩).map (·.sites) =
      [[⟨0, 0⟩, ⟨1, 0⟩, ⟨2, 1⟩, ⟨3, 0⟩]] := by
  have hexempt : ((handoff.boundaryPaths 0 ⟨"Main"⟩).all fun d =>
      handoff.exempts d.tag d.sites) = true := by decide +kernel
  exact ⟨List.all_eq_true.mp hexempt, by decide +kernel, by cbv⟩

/-- From its second call on the second path is not exempt, and the first one is. -/
theorem handoff_choice :
    (handoff.boundaryPaths 0 ⟨"Main"⟩).find? (fun d => d.ends = (⟨0, 0⟩, ⟨3, 0⟩)) =
      some { tag := ⟨"Worker"⟩, first := ⟨0, 0⟩, rest := [⟨1, 0⟩, ⟨2, 0⟩, ⟨3, 0⟩] } ∧
    ∃ c ∈ handoff.boundaryChains 0 ⟨"Main"⟩, c.ends = (⟨0, 0⟩, ⟨3, 0⟩) ∧
      ∃ k, (handoff.boundaryPaths 0 ⟨"Main"⟩).find? (handoff.freeFrom k
        { tag := ⟨"Worker"⟩, first := ⟨0, 0⟩, rest := [⟨1, 0⟩, ⟨2, 0⟩, ⟨3, 0⟩] }) = some c := by
  have hfirst : (handoff.boundaryPaths 0 ⟨"Main"⟩).find? (fun d => d.ends = (⟨0, 0⟩, ⟨3, 0⟩)) =
      some { tag := ⟨"Worker"⟩, first := ⟨0, 0⟩, rest := [⟨1, 0⟩, ⟨2, 0⟩, ⟨3, 0⟩] } := by
    decide +kernel
  obtain ⟨c, hc, hends, ⟨k, -, hk⟩, -⟩ := boundaryChains_choice handoff 0 ⟨"Main"⟩ hfirst
  exact ⟨hfirst, c, hc, hends, k, hk⟩

end CallGraph

end ThreadAffinity
