/-
What a traversal remembers does not depend on the path.

Every visit of a traversal is made on a path, which the marks tell, and leaves the marks as they
were.  What exploring a member returns is right for the whole path and for every path that has
lost members at which exploring did not stop, nor below them: exploring without memory finds the
same ends and the same unexempted suffixes there.  So what is remembered, with no member but its
own on the path, is a summary of all paths from the member, at every moment; and it tells the
same as exploring afresh wherever it does not cross the path.

The induction is on the run.  It carries that the path leads to the member at hand and that the
memory is right; what a visit found is then read off the lemmas on `explore`, since a run on a
path yields what `explore` does.
-/
import ThreadAffinity.Proofs.Afresh
import ThreadAffinity.Proofs.Traversal

namespace ThreadAffinity

variable {n : Nat}

/-! ### Lists that tell the same -/

/-- The ends are the same, and so are the unexempted suffixes. -/
def Suffix.Agree (xs ys : List (Suffix n)) : Prop :=
  (xs.map (·.chain.ends)).Perm (ys.map (·.chain.ends)) ∧
    ∀ x, x.exempt = false → (x ∈ xs ↔ x ∈ ys)

namespace CallGraph

variable {g : CallGraph n}

namespace Summary

variable {xs ys : List (Suffix n)} {paths : List (Chain n)}

theorem mem_of_unexempted (hx : g.Summary xs paths) (hy : g.Summary ys paths) {x : Suffix n}
    (hmem : x ∈ xs) (hfree : x.exempt = false) : x ∈ ys := by
  have hexempts : g.exempts x.chain.tag x.chain.sites = false := hx.flagged x hmem ▸ hfree
  have hchain := hx.mem_of_free hy (List.mem_map_of_mem hmem) hexempts
  obtain ⟨y, hymem, hchain⟩ := List.mem_map.mp hchain
  have hflag : y.exempt = x.exempt := by
    rw [hy.flagged y hymem, hchain, hexempts, hfree]
  have hyx : y = x := by
    obtain ⟨c, e⟩ := x
    obtain ⟨d, f⟩ := y
    exact congr (congrArg Suffix.mk hchain) hflag
  exact hyx ▸ hymem

theorem agree (hx : g.Summary xs paths) (hy : g.Summary ys paths) : Suffix.Agree xs ys :=
  ⟨hx.perm_ends hy, fun _ hfree =>
    ⟨fun h => hx.mem_of_unexempted hy h hfree, fun h => hy.mem_of_unexempted hx h hfree⟩⟩

end Summary

/-- What exploring a member afresh finds is a summary of the paths that avoid the given members. -/
theorem exploreAfresh_summary (g : CallGraph n) (path : List (Fin n)) (m : Fin n) :
    g.Summary (g.exploreAfresh path (g.sites m) []) (g.paths path.toFinset (g.sites m)) :=
  exploreAfresh_right g.summary_digest _ path rfl m (g.sites m) [] [] rfl Summary.nil

/-! ### What is remembered of a member -/

variable (g) in
/-- The chain leads from the body of a member, through members without affinity tag, to one that
has the chain's tag, and enters no member twice. -/
def SimplePath (m : Fin n) (c : Chain n) : Prop :=
  c.first ∈ g.sites m ∧ g.Leads c.sites c.tag ∧ (c.sites.map (·.owner)).Nodup

variable (g) in
/-- The suffixes are one for each pair of ends of a simple path from an untagged member, and
unexempted as soon as such a path is. -/
structure Remembered (m : Fin n) (xs : List (Suffix n)) : Prop where
  untagged : (g.tags m).affinity = none
  distinct : (xs.map (·.chain.ends)).Nodup
  ends : ∀ e, e ∈ xs.map (·.chain.ends) ↔ ∃ c, g.SimplePath m c ∧ c.ends = e
  simple : ∀ x ∈ xs, g.SimplePath m x.chain
  flagged : ∀ x ∈ xs, x.exempt = g.exempts x.chain.tag x.chain.sites
  /-- Of the unexempted paths with its ends a suffix is the one that comes first, depth first. -/
  first : ∀ x ∈ xs, ∀ c, g.SimplePath m c → c.ends = x.chain.ends →
    g.exempts c.tag c.sites = false → x.exempt = false ∧ (c = x.chain ∨ x.chain.Before c)

theorem Remembered.of_summary {m : Fin n} {xs : List (Suffix n)}
    (hm : (g.tags m).affinity = none) (h : g.Summary xs (g.paths {m} (g.sites m))) :
    g.Remembered m xs where
  untagged := hm
  distinct := h.distinct
  ends := by
    intro e
    rw [h.mem_ends, List.mem_map]
    exact exists_congr fun c => and_congr_left fun _ => mem_paths_body
  simple := fun x hx => mem_paths_body.mp (h.kept x hx)
  flagged := h.flagged
  first := by
    intro x hx c hc hends hfree
    have hpath := mem_paths_body.mpr hc
    have hfirst := h.find?_eq hx hpath hends hfree
    refine ⟨?_, ?_⟩
    · rw [h.flagged x hx]
      exact (g.freeAt_iff.mp (List.find?_some hfirst)).2
    · have hordered : (g.paths {m} (g.sites m)).Pairwise fun c d => d = c ∨ c.Before d :=
        (paths_pairwise (g.sites_pairwise m)).imp Or.inr
      exact find?_rel (r := fun c d : Chain n => d = c ∨ c.Before d) (fun _ => Or.inl rfl) hordered
        hfirst hpath (g.freeAt_iff.mpr ⟨hends, hfree⟩)

variable (g) in
/-- A memory of untagged members that is right for all paths from them. -/
def Faithful (memo : Memo n) : Prop :=
  ∀ (m : Fin n) (xs : List (Suffix n)), memo.get m = some xs →
    (g.tags m).affinity = none ∧ g.Summary xs (g.paths {m} (g.sites m))

theorem Faithful.memoOK {memo : Memo n} (h : g.Faithful memo) : g.MemoOK g.Summary memo :=
  fun m xs hget => (h m xs hget).2

theorem faithful_replicate : g.Faithful (Vector.replicate n none) := by
  intro m xs h
  rw [Memo.get_replicate] at h
  cases h

theorem Faithful.set {memo : Memo n} (h : g.Faithful memo) {m : Fin n} {xs : List (Suffix n)}
    (hm : (g.tags m).affinity = none) (hxs : g.Summary xs (g.paths {m} (g.sites m))) :
    g.Faithful (memo.set m (some xs) m.isLt) := by
  intro k ys hk
  refine ⟨?_, h.memoOK.set hxs k ys hk⟩
  by_cases hmk : m = k
  · rw [← hmk]
    exact hm
  · rw [Memo.get_set, if_neg hmk] at hk
    exact (h k ys hk).1

/-- Where it does not cross the path, what is remembered tells what exploring afresh would. -/
theorem Faithful.agree_afresh {memo : Memo n} (h : g.Faithful memo) {m : Fin n}
    {xs : List (Suffix n)} (hget : memo.get m = some xs) {path : List (Fin n)}
    (hcross : crossesPath path xs = false) :
    Suffix.Agree xs (g.exploreAfresh (path ++ [m]) (g.sites m) []) := by
  have hafresh := g.exploreAfresh_summary (path ++ [m]) m
  rw [toFinset_concat, Finset.insert_eq] at hafresh
  refine Summary.agree ((h m xs hget).2.restrict fun x hx => ?_) hafresh
  exact clearOf_of_crossesPath hcross hx fun k => List.mem_toFinset.mp

/-! ### Every visit is made on a path -/

end CallGraph

/-- The members of a path lead to where a task is at. -/
def Task.LedTo (g : CallGraph n) (path : List (Fin n)) : Task n → Prop
  | .enter m _ => (g.tags m).affinity = none ∧ ∀ k ∈ path, g.Above k m
  | .explore m _ => ∀ k ∈ path, g.Above k m
  | .calls rest _ _ _ => ∃ q done, g.sites q = done ++ rest ∧ ∀ k ∈ path, g.Above k q

namespace CallGraph

variable {g : CallGraph n}

variable (g) in
/-- A task comes up on a path, with a right memory. -/
structure OnPath (path : List (Fin n)) (task : Task n) (σ : Traversal n) : Prop where
  nodup : path.Nodup
  fits : task.Fits path
  ledTo : task.LedTo g path
  marks : σ.depth = depths path
  memory : g.Faithful σ.memo

variable (g) in
/-- A visit as it is made in a traversal. -/
structure Made (path : List (Fin n)) (visit : Visit n) : Prop where
  onPath : g.OnPath path visit.task visit.before
  runs : ∃ log, g.Runs visit.task visit.before visit.found visit.low visit.after log

section Steps

variable {path : List (Fin n)} {σ τ : Traversal n} {m : Fin n} {d : Nat}
  {found : List (Suffix n)} {low : Option Nat} {log : List (Visit n)}

theorem onPath_root (g : CallGraph n) (root : Fin n) :
    g.OnPath [root] (.explore root 0) (.start root) where
  nodup := List.nodup_singleton root
  fits := ⟨[], rfl, List.not_mem_nil, rfl⟩
  ledTo := by
    intro k hk
    rw [List.mem_singleton.mp hk]
    exact .refl
  marks := Traversal.start_depth root
  memory := faithful_replicate

/-- The path goes on into a member whose body is to be explored. -/
theorem OnPath.body (h : g.OnPath path (.enter m d) σ) :
    g.OnPath (path ++ [m]) (.explore m d) (σ.mark m d) := by
  obtain ⟨hm, rfl⟩ := h.fits
  refine ⟨List.nodup_append.mpr ⟨h.nodup, List.nodup_singleton m, ?_⟩, ⟨path, rfl, hm, rfl⟩, ?_,
    ?_, h.memory⟩
  · intro k hk q hq hkq
    rw [hkq, List.mem_singleton.mp hq] at hk
    exact hm hk
  · intro k hk
    rcases List.mem_append.mp hk with hk | hk
    · exact h.ledTo.2 k hk
    · rw [List.mem_singleton.mp hk]
      exact .refl
  · rw [Traversal.mark, h.marks, update_depths hm]

theorem OnPath.calls (h : g.OnPath path (.explore m d) σ) :
    g.OnPath path (.calls (g.sites m) d [] none) σ := by
  obtain ⟨front, rfl, -, rfl⟩ := h.fits
  exact ⟨h.nodup, by simp [Task.Fits], ⟨m, [], rfl, h.ledTo⟩, h.marks, h.memory⟩

variable {s : SiteId n} {rest : List (SiteId n)} {found' : List (Suffix n)} {low' : Option Nat}

/-- After a call the next ones come up on the same path. -/
theorem OnPath.next (h : g.OnPath path (.calls (s :: rest) d found low) σ)
    (hmarks : τ.depth = depths path) (hmemo : g.Faithful τ.memo) :
    g.OnPath path (.calls rest d found' low') τ := by
  obtain ⟨q, done, hbody, habove⟩ := h.ledTo
  exact ⟨h.nodup, h.fits, ⟨q, done ++ [s], by rw [hbody]; simp, habove⟩, hmarks, hmemo⟩

theorem OnPath.entered (h : g.OnPath path (.calls (s :: rest) d found low) σ)
    (hs : g.callee? s = some m) (hm : (g.tags m).affinity = none) (hd : σ.depth m = none) :
    g.OnPath path (.enter m (d + 1)) σ := by
  obtain ⟨q, done, hbody, habove⟩ := h.ledTo
  have henters : g.Enters q m := ⟨hm, s, by rw [hbody]; simp, hs⟩
  have hnot : m ∉ path := depths_eq_none_iff.mp (h.marks ▸ hd)
  exact ⟨h.nodup, ⟨hnot, h.fits.symm⟩, ⟨hm, fun k hk => (habove k hk).tail henters⟩, h.marks,
    h.memory⟩

/-- What exploring a member returns is right for all the paths that may stand for this one. -/
theorem OnPath.explored (h : g.OnPath path (.explore m d) σ)
    (hrun : g.Runs (.explore m d) σ found low τ log) :
    g.Explored g.Summary path (g.sites m) { found, low, memo := τ.memo } := by
  have hyields : g.explore path (g.sites m) { memo := σ.memo } =
      { found, low, memo := τ.memo } := (hrun.yields path h.fits h.marks).1
  rw [← hyields]
  exact explore_explored g.summary_digest h.ledTo (enter_entered g.summary_digest _ _ rfl) _ [] _
    rfl ⟨h.memory.memoOK, fun _ _ => Summary.nil⟩

/-- The memory stays right when a member is left. -/
theorem OnPath.faithful_leave (h : g.OnPath path (.enter m d) σ)
    (hrun : g.Runs (.explore m d) (σ.mark m d) found low τ log) (hmemo : g.Faithful τ.memo) :
    g.Faithful (τ.leave m d found low).memo := by
  obtain ⟨-, hd⟩ := h.fits
  unfold Traversal.leave
  by_cases hlow : low.all (d ≤ ·) = true
  · rw [if_pos hlow]
    rw [hd] at hlow
    -- Exploring stopped at nothing above `m`, so `m` alone may stand for the path.
    exact hmemo.set h.ledTo.1 ((h.body.explored hrun).right {m} (StandsFor.singleton hlow))
  · rw [if_neg hlow]
    exact hmemo

end Steps

/-- **Every visit of a run is made on a path with a right memory, and the memory is right at the
end.** -/
theorem Runs.made {task : Task n} {σ τ : Traversal n} {found : List (Suffix n)}
    {low : Option Nat} {log : List (Visit n)} (h : g.Runs task σ found low τ log) :
    ∀ path, g.OnPath path task σ →
      g.Faithful τ.memo ∧ ∀ visit ∈ log, ∃ path, g.Made path visit := by
  induction h with
  | remembered hget hclear =>
      intro path hpath
      refine ⟨hpath.memory, fun visit hvisit => ?_⟩
      rw [List.mem_singleton.mp hvisit]
      exact ⟨path, hpath, _, .remembered hget hclear⟩
  | missed hmiss hbody ih =>
      intro path hpath
      obtain ⟨hmemo, hlog⟩ := ih _ hpath.body
      refine ⟨hpath.faithful_leave hbody hmemo, fun visit hvisit => ?_⟩
      rcases List.mem_append.mp hvisit with hvisit | hvisit
      · exact hlog visit hvisit
      · rw [List.mem_singleton.mp hvisit]
        exact ⟨path, hpath, _, .missed hmiss hbody⟩
  | explore hcalls ih =>
      intro path hpath
      obtain ⟨hmemo, hlog⟩ := ih _ hpath.calls
      refine ⟨hmemo, fun visit hvisit => ?_⟩
      rcases List.mem_append.mp hvisit with hvisit | hvisit
      · exact hlog visit hvisit
      · rw [List.mem_singleton.mp hvisit]
        exact ⟨path, hpath, _, .explore hcalls⟩
  | done =>
      intro path hpath
      exact ⟨hpath.memory, fun visit hvisit => absurd hvisit List.not_mem_nil⟩
  | unknown _ _ ih =>
      intro path hpath
      exact ih path (hpath.next hpath.marks hpath.memory)
  | tagged _ _ _ ih =>
      intro path hpath
      exact ih path (hpath.next hpath.marks hpath.memory)
  | stopped _ _ _ _ ih =>
      intro path hpath
      exact ih path (hpath.next hpath.marks hpath.memory)
  | entered hs hm hd hbelow _ ihbelow ihrest =>
      intro path hpath
      have henter := hpath.entered hs hm hd
      obtain ⟨hmemo, hlog⟩ := ihbelow path henter
      -- The marks are back in place, so the other calls come up on the same path.
      have hmarks := (hbelow.yields path henter.fits henter.marks).2
      obtain ⟨hmemo', hlog'⟩ := ihrest path (hpath.next hmarks hmemo)
      refine ⟨hmemo', fun visit hvisit => ?_⟩
      exact (List.mem_append.mp hvisit).elim (hlog visit) (hlog' visit)

namespace Made

variable {path : List (Fin n)} {visit : Visit n}

/-- A visit returns and remembers what `enter` and `explore` do along the path. -/
theorem yields (h : g.Made path visit) : visit.task.Yields g path visit.before.memo
    { found := visit.found, low := visit.low, memo := visit.after.memo } := by
  obtain ⟨log, hrun⟩ := h.runs
  exact (hrun.yields path h.onPath.fits h.onPath.marks).1

/-- A visit leaves the marks as it found them. -/
theorem restored (h : g.Made path visit) : visit.after.depth = visit.before.depth := by
  obtain ⟨log, hrun⟩ := h.runs
  rw [h.onPath.marks]
  exact (hrun.yields path h.onPath.fits h.onPath.marks).2

theorem memory (h : g.Made path visit) {memo : Memo n}
    (hmemo : memo = visit.before.memo ∨ memo = visit.after.memo) : g.Faithful memo := by
  obtain ⟨log, hrun⟩ := h.runs
  rcases hmemo with rfl | rfl
  · exact h.onPath.memory
  · exact (hrun.made path h.onPath).1

/-- Exploring afresh finds the same under every path that has lost only members above the depth
at which exploring stopped. -/
theorem agree_afresh (h : g.Made path visit) {m : Fin n} {d : Nat}
    (htask : visit.task = .explore m d) {fewer : List (Fin n)} (hfewer : fewer.Sublist path)
    (hlost : ∀ k ∈ path, k ∉ fewer → ∀ l, visit.low = some l → path.idxOf k < l) :
    Suffix.Agree visit.found (g.exploreAfresh fewer (g.sites m) []) := by
  have hpath := h.onPath
  obtain ⟨log, hrun⟩ := h.runs
  rw [htask] at hpath hrun
  have hstands : StandsFor path visit.low fewer.toFinset := by
    refine ⟨fun k hk => hfewer.subset (List.mem_toFinset.mp hk), ?_⟩
    intro l hl k hk hlk
    by_contra hnot
    have := hlost k hk (fun hmem => hnot (List.mem_toFinset.mpr hmem)) l hl
    omega
  exact ((hpath.explored hrun).right _ hstands).agree (g.exploreAfresh_summary fewer m)

end Made

/--
**What is remembered does not depend on the path, and the path is restored.**  From every root
there is a run, and every run finds what the chains from the root are read off.  Every visit in a
run is made under a path, with each member of the path marked by its depth and no other marked; it
leaves the marks as they were, and returns what `enter` or `explore` does along that path.  What a
member's exploration returns has the ends and the unexempted suffixes that exploring it without
memory finds, under the path and under every path with members left out above the depth at which
the exploration stopped.  Before and after every visit, each memory of a member has one suffix for
each pair of ends of a simple path from it, the first unexempted one if there is one; and where it
does not cross the path it has the ends and the unexempted suffixes that exploring the member
without memory finds under the path.
-/
theorem memory_path_independent (g : CallGraph n) (root : Fin n) :
    g.CanRun (.explore root 0) (.start root) ∧
    ∀ found low τ log, g.Runs (.explore root 0) (.start root) found low τ log →
      (∀ rootTag, g.boundaryChains root rootTag =
        (found.map (·.chain)).filter (·.tag ≠ rootTag)) ∧
      ∀ visit ∈ log, ∃ path : List (Fin n), path.Nodup ∧
        visit.before.depth = depths path ∧ visit.after.depth = visit.before.depth ∧
        visit.task.Yields g path visit.before.memo
          { found := visit.found, low := visit.low, memo := visit.after.memo } ∧
        (∀ m d, visit.task = .explore m d →
          path.getLast? = some m ∧
          ∀ fewer : List (Fin n), fewer.Sublist path →
            (∀ k ∈ path, k ∉ fewer → k ≠ m ∧ ∀ l, visit.low = some l → path.idxOf k < l) →
            Suffix.Agree visit.found (g.exploreAfresh fewer (g.sites m) [])) ∧
        ∀ memo, memo = visit.before.memo ∨ memo = visit.after.memo →
          ∀ (m : Fin n) (xs : List (Suffix n)), memo.get m = some xs →
            g.Remembered m xs ∧
            (crossesPath path xs = false →
              Suffix.Agree xs (g.exploreAfresh (path ++ [m]) (g.sites m) [])) := by
  refine ⟨g.canRun_root root, ?_⟩
  intro found low τ log hrun
  refine ⟨hrun.boundaryChains_eq, fun visit hvisit => ?_⟩
  obtain ⟨path, hmade⟩ := (hrun.made [root] (g.onPath_root root)).2 visit hvisit
  refine ⟨path, hmade.onPath.nodup, hmade.onPath.marks, hmade.restored, hmade.yields, ?_, ?_⟩
  · intro m d htask
    refine ⟨?_, fun fewer hfewer hlost => hmade.agree_afresh htask hfewer fun k hk hnot =>
      (hlost k hk hnot).2⟩
    have hfits := hmade.onPath.fits
    rw [htask] at hfits
    obtain ⟨front, rfl, -, -⟩ := hfits
    simp
  · intro memo hmemo m xs hget
    have hfaithful := hmade.memory hmemo
    obtain ⟨hm, hxs⟩ := hfaithful m xs hget
    exact ⟨Remembered.of_summary hm hxs, hfaithful.agree_afresh hget⟩

/-- Once `detour` is explored from `0`, member `1` is remembered with what exploring it afresh
below `0` finds.  Its first suffix has taken the place of the exempt one through `3`. -/
theorem detour_memory :
    ∃ found low τ log path xs, detour.Runs (.explore 0 0) (.start 0) found low τ log ∧
      depths path = (Traversal.start 0).depth ∧
      Suffix.Agree found (detour.exploreAfresh path (detour.sites 0) []) ∧
      xs.map (·.chain.sites) = [[⟨1, 0⟩, ⟨2, 2⟩, ⟨4, 0⟩], [⟨1, 0⟩, ⟨2, 1⟩]] ∧
      τ.memo.get 1 = some xs ∧ detour.Remembered 1 xs ∧ crossesPath path xs = false ∧
      Suffix.Agree xs (detour.exploreAfresh (path ++ [1]) (detour.sites 1) []) := by
  obtain ⟨⟨found, low, τ, log, hrun⟩, hall⟩ := memory_path_independent detour 0
  have hlast : ⟨.explore 0 0, .start 0, found, low, τ⟩ ∈ log := by
    cases hrun with
    | explore _ => simp
  obtain ⟨path, -, hdepth, -, -, hexplored, hmemo⟩ := (hall found low τ log hrun).2 _ hlast
  have hmemory : τ.memo =
      (detour.explore [0] (detour.sites 0) { memo := Vector.replicate 7 none }).memo :=
    congrArg Exploration.memo
      (hrun.yields [0] (detour.onPath_root 0).fits (detour.onPath_root 0).marks).1.symm
  have hget : τ.memo.get 1 = some
      [{ chain := { tag := ⟨"Worker"⟩, first := ⟨1, 0⟩, rest := [⟨2, 2⟩, ⟨4, 0⟩] }
         exempt := false },
        { chain := { tag := ⟨"Worker"⟩, first := ⟨1, 0⟩, rest := [⟨2, 1⟩] }
          exempt := false }] := by
    rw [hmemory]
    cbv
  obtain ⟨hremembered, hafresh⟩ := hmemo _ (Or.inr rfl) 1 _ hget
  have hclear := Traversal.crosses_eq (show (Traversal.start 0).depth = depths path from hdepth)
    [{ chain := { tag := ⟨"Worker"⟩, first := ⟨1, 0⟩, rest := [⟨2, 2⟩, ⟨4, 0⟩] }, exempt := false },
      { chain := { tag := ⟨"Worker"⟩, first := ⟨1, 0⟩, rest := [⟨2, 1⟩] }, exempt := false }]
  refine ⟨found, low, τ, log, path, _, hrun, hdepth.symm, ?_, rfl, hget, hremembered, hclear.symm,
    hafresh hclear.symm⟩
  exact (hexplored 0 0 rfl).2 path (List.Sublist.refl path) fun k hk hnot => absurd hk hnot

end CallGraph

end ThreadAffinity
