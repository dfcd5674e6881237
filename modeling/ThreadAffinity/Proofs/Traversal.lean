/-
Exploring with marks on the members of the path.

`enter` and `explore` are handed the path.  The rules of `Runs` keep no path: a member is marked
with its depth when it is entered, the mark is taken away when it is left, and what was found and
what is remembered is changed as the calls of a body are met one after the other.  A run also
writes down its visits: every time a member was entered or explored, with the states before and
after it.  Marks and memory change nowhere else, so these are all the states of the traversal.

Nothing in the rules says that the marks are those of a path.  `Runs.yields` says it: a run that
starts with the marks of a path ends with the same marks, and finds and remembers what `enter` and
`explore` do when they are handed that path.  `canRun_root` says that there always is a run.
-/
import ThreadAffinity.Proofs.Exploration

namespace ThreadAffinity

variable {n : Nat}

/-- The depths at which members stand on a path. -/
def depths (path : List (Fin n)) (m : Fin n) : Option Nat :=
  path.idxOf? m

section Depths

variable {path : List (Fin n)} {m k : Fin n}

theorem isSome_depths : (depths path m).isSome = decide (m ∈ path) := by
  rw [Bool.eq_iff_iff, decide_eq_true_iff]
  exact List.isSome_idxOf?

theorem depths_eq_none_iff : depths path m = none ↔ m ∉ path :=
  List.idxOf?_eq_none_iff

theorem depths_of_mem (h : m ∈ path) : depths path m = some (path.idxOf m) := by
  obtain ⟨d, hd⟩ := Option.isSome_iff_exists.mp (List.isSome_idxOf?.mpr h)
  rw [List.idxOf_eq_getD_idxOf?, hd]
  exact hd

/-- A member that is entered comes at the end. -/
theorem update_depths (h : m ∉ path) :
    Function.update (depths path) m (some path.length) = depths (path ++ [m]) := by
  funext k
  by_cases hk : k = m
  · subst hk
    rw [Function.update_self, depths_of_mem (by simp), List.idxOf_append_of_notMem h]
    simp
  · rw [Function.update_of_ne hk]
    by_cases hpath : k ∈ path
    · rw [depths_of_mem hpath, depths_of_mem (List.mem_append_left _ hpath),
        List.idxOf_append_of_mem hpath]
    · rw [depths_eq_none_iff.mpr hpath, depths_eq_none_iff.mpr (by simp [hpath, hk])]

/-- And when it is left, nothing of it stays. -/
theorem update_depths_none (h : m ∉ path) :
    Function.update (depths (path ++ [m])) m none = depths path := by
  rw [← update_depths h, Function.update_idem, ← depths_eq_none_iff.mpr h,
    Function.update_eq_self]

end Depths

/-- The state of a traversal. -/
structure Traversal (n : Nat) where
  /-- The depths of the members on the path. -/
  depth : Fin n → Option Nat
  memo : Memo n

namespace Traversal

/-- Only the root is on the path, and nothing is remembered. -/
def start (root : Fin n) : Traversal n where
  depth := Function.update (fun _ => none) root (some 0)
  memo := Vector.replicate n none

/-- The path goes on into a member. -/
def mark (σ : Traversal n) (m : Fin n) (d : Nat) : Traversal n :=
  { σ with depth := Function.update σ.depth m (some d) }

/-- The path comes back from a member.  What was found there is remembered if exploring did not
stop above it. -/
def leave (σ : Traversal n) (m : Fin n) (d : Nat) (found : List (Suffix n)) (low : Option Nat) :
    Traversal n where
  depth := Function.update σ.depth m none
  memo := if low.all (d ≤ ·) then σ.memo.set m (some found) m.isLt else σ.memo

/-- Whether a call of one of the suffixes belongs to a marked member. -/
def crosses (σ : Traversal n) (found : List (Suffix n)) : Bool :=
  found.any fun x => x.chain.sites.any fun s => (σ.depth s.owner).isSome

theorem crosses_eq {σ : Traversal n} {path : List (Fin n)} (h : σ.depth = depths path)
    (found : List (Suffix n)) : σ.crosses found = crossesPath path found := by
  simp only [crosses, crossesPath, h, isSome_depths]

theorem start_depth (root : Fin n) : (start root).depth = depths [root] := by
  have hempty : (fun _ => none) = depths (n := n) [] := by
    funext k
    exact (depths_eq_none_iff.mpr List.not_mem_nil).symm
  show Function.update (fun _ => none) root (some 0) = depths [root]
  rw [hempty]
  exact update_depths List.not_mem_nil

end Traversal

/-- What a traversal does at a time. -/
inductive Task (n : Nat) where
  /-- Enter a member without affinity tag, at a depth. -/
  | enter (m : Fin n) (depth : Nat)
  /-- Explore the body of a member that stands at a depth. -/
  | explore (m : Fin n) (depth : Nat)
  /-- Go on with calls of a body, with what it has brought so far. -/
  | calls (sites : List (SiteId n)) (depth : Nat) (found : List (Suffix n)) (low : Option Nat)

/-- A member entered or explored: the states before and after it, and what it returned. -/
structure Visit (n : Nat) where
  task : Task n
  before : Traversal n
  found : List (Suffix n)
  low : Option Nat
  after : Traversal n

namespace CallGraph

/--
`g.Runs task σ found low τ log`: started in `σ`, the task ends in `τ` and returns `found` and
`low`; `log` has the visits on the way, in the order in which they ended.
-/
inductive Runs (g : CallGraph n) :
    Task n → Traversal n → List (Suffix n) → Option Nat → Traversal n → List (Visit n) → Prop
  /-- What is remembered of a member serves. -/
  | remembered {m : Fin n} {d : Nat} {σ : Traversal n} {xs : List (Suffix n)}
      (hget : σ.memo.get m = some xs) (hclear : σ.crosses xs = false) :
      g.Runs (.enter m d) σ xs none σ [⟨.enter m d, σ, xs, none, σ⟩]
  /-- It does not, or there is nothing. -/
  | missed {m : Fin n} {d : Nat} {σ τ : Traversal n} {found : List (Suffix n)}
      {low : Option Nat} {log : List (Visit n)}
      (hmiss : ∀ xs, σ.memo.get m = some xs → σ.crosses xs = true)
      (hbody : g.Runs (.explore m d) (σ.mark m d) found low τ log) :
      g.Runs (.enter m d) σ found low (τ.leave m d found low)
        (log ++ [⟨.enter m d, σ, found, low, τ.leave m d found low⟩])
  | explore {m : Fin n} {d : Nat} {σ τ : Traversal n} {found : List (Suffix n)}
      {low : Option Nat} {log : List (Visit n)}
      (hcalls : g.Runs (.calls (g.sites m) d [] none) σ found low τ log) :
      g.Runs (.explore m d) σ found low τ (log ++ [⟨.explore m d, σ, found, low, τ⟩])
  | done {d : Nat} {found : List (Suffix n)} {low : Option Nat} {σ : Traversal n} :
      g.Runs (.calls [] d found low) σ found low σ []
  | unknown {s : SiteId n} {rest : List (SiteId n)} {d : Nat} {found found' : List (Suffix n)}
      {low low' : Option Nat} {σ τ : Traversal n} {log : List (Visit n)}
      (hs : g.callee? s = none)
      (hrest : g.Runs (.calls rest d found low) σ found' low' τ log) :
      g.Runs (.calls (s :: rest) d found low) σ found' low' τ log
  | tagged {s : SiteId n} {rest : List (SiteId n)} {m : Fin n} {t : Tag} {d : Nat}
      {found found' : List (Suffix n)} {low low' : Option Nat} {σ τ : Traversal n}
      {log : List (Visit n)}
      (hs : g.callee? s = some m) (hm : (g.tags m).affinity = some t)
      (hrest : g.Runs (.calls rest d ((Suffix.single g s t).insert found) low) σ
        found' low' τ log) :
      g.Runs (.calls (s :: rest) d found low) σ found' low' τ log
  /-- The member is marked already. -/
  | stopped {s : SiteId n} {rest : List (SiteId n)} {m : Fin n} {d k : Nat}
      {found found' : List (Suffix n)} {low low' : Option Nat} {σ τ : Traversal n}
      {log : List (Visit n)}
      (hs : g.callee? s = some m) (hm : (g.tags m).affinity = none) (hd : σ.depth m = some k)
      (hrest : g.Runs (.calls rest d found (minDepth low (some k))) σ found' low' τ log) :
      g.Runs (.calls (s :: rest) d found low) σ found' low' τ log
  | entered {s : SiteId n} {rest : List (SiteId n)} {m : Fin n} {d : Nat}
      {found found' below : List (Suffix n)} {low low' lowBelow : Option Nat}
      {σ ρ τ : Traversal n} {log log' : List (Visit n)}
      (hs : g.callee? s = some m) (hm : (g.tags m).affinity = none) (hd : σ.depth m = none)
      (hbelow : g.Runs (.enter m (d + 1)) σ below lowBelow ρ log)
      (hrest : g.Runs (.calls rest d (Suffix.insertAll found (below.map (Suffix.cons g s)))
        (minDepth low lowBelow)) ρ found' low' τ log') :
      g.Runs (.calls (s :: rest) d found low) σ found' low' τ (log ++ log')

/-! ### Entering, by what is remembered -/

section Enter

variable {g : CallGraph n} {path : List (Fin n)} {memo : Memo n} {m : Fin n}

theorem enter_remembered (h : m ∉ path) {xs : List (Suffix n)} (hget : memo.get m = some xs)
    (hclear : crossesPath path xs = false) :
    g.enter path memo m h = { found := xs, memo } := by
  have hcached : memo[m].filter (! crossesPath path ·) = some xs :=
    Option.filter_eq_some_iff.mpr ⟨hget, by simp [hclear]⟩
  rw [enter]
  simp only [hcached]

theorem enter_missed (h : m ∉ path)
    (hmiss : ∀ xs, memo.get m = some xs → crossesPath path xs = true) {e : Exploration n}
    (he : g.explore (path ++ [m]) (g.sites m) { memo } = e) :
    g.enter path memo m h = { e with
      memo := if e.low.all (path.length ≤ ·) then e.memo.set m (some e.found) m.isLt
        else e.memo } := by
  have hcached : memo[m].filter (! crossesPath path ·) = none := by
    rw [Option.filter_eq_none_iff]
    intro xs hxs
    simp [hmiss xs hxs]
  rw [enter]
  simp only [hcached, he]
  split
  · rfl
  · rfl

end Enter

/-! ### Runs on a path -/

end CallGraph

namespace Task

/-- The marks of a path are the ones with which a task comes up. -/
def Fits (path : List (Fin n)) : Task n → Prop
  | .enter m d => m ∉ path ∧ d = path.length
  | .explore m d => ∃ front, path = front ++ [m] ∧ m ∉ front ∧ d = front.length
  | .calls _ d _ _ => path.length = d + 1

/-- What a task brings on a path. -/
def Yields (g : CallGraph n) (path : List (Fin n)) (memo : Memo n) :
    Task n → Exploration n → Prop
  | .enter m _, e => ∃ h : m ∉ path, g.enter path memo m h = e
  | .explore m _, e => g.explore path (g.sites m) { memo } = e
  | .calls rest _ found low, e => g.explore path rest { found, low, memo } = e

end Task

namespace CallGraph

variable {g : CallGraph n}

/-- **A run on a path takes its marks away again, and finds and remembers what is found and
remembered by exploring along the path.** -/
theorem Runs.yields {task : Task n} {σ τ : Traversal n} {found : List (Suffix n)}
    {low : Option Nat} {log : List (Visit n)} (h : g.Runs task σ found low τ log) :
    ∀ path, task.Fits path → σ.depth = depths path →
      task.Yields g path σ.memo { found, low, memo := τ.memo } ∧ τ.depth = depths path := by
  induction h with
  | remembered hget hclear =>
      intro path hfits hdepth
      obtain ⟨hm, -⟩ := hfits
      rw [Traversal.crosses_eq hdepth] at hclear
      exact ⟨⟨hm, enter_remembered hm hget hclear⟩, hdepth⟩
  | @missed m d σ τ found low log hmiss _ ih =>
      intro path hfits hdepth
      obtain ⟨hm, rfl⟩ := hfits
      have hmark : (σ.mark m path.length).depth = depths (path ++ [m]) := by
        rw [Traversal.mark, hdepth, update_depths hm]
      obtain ⟨hbody, hback⟩ := ih (path ++ [m]) ⟨path, rfl, hm, rfl⟩ hmark
      refine ⟨⟨hm, ?_⟩, ?_⟩
      · refine enter_missed hm (fun xs hxs => ?_) hbody
        rw [← Traversal.crosses_eq hdepth]
        exact hmiss xs hxs
      · rw [Traversal.leave, hback, update_depths_none hm]
  | explore _ ih =>
      intro path hfits hdepth
      obtain ⟨front, rfl, -, rfl⟩ := hfits
      exact ih _ (by simp [Task.Fits]) hdepth
  | done =>
      intro path _ hdepth
      exact ⟨explore_nil, hdepth⟩
  | unknown hs _ ih =>
      intro path hfits hdepth
      obtain ⟨hrest, hback⟩ := ih path hfits hdepth
      exact ⟨(explore_unknown hs).trans hrest, hback⟩
  | tagged hs hm _ ih =>
      intro path hfits hdepth
      obtain ⟨hrest, hback⟩ := ih path hfits hdepth
      exact ⟨(explore_tagged hs hm).trans hrest, hback⟩
  | @stopped s rest m d k _ _ _ _ σ _ _ hs hm hd _ ih =>
      intro path hfits hdepth
      obtain ⟨hrest, hback⟩ := ih path hfits hdepth
      rw [hdepth] at hd
      have hmem : m ∈ path := by
        by_contra hnot
        rw [depths_eq_none_iff.mpr hnot] at hd
        cases hd
      rw [depths_of_mem hmem] at hd
      obtain rfl := Option.some.inj hd
      exact ⟨(explore_stopped hs hm hmem).trans hrest, hback⟩
  | @entered s rest m d _ _ _ _ _ _ _ _ _ _ _ hs hm hd _ _ ihbelow ihrest =>
      intro path hfits hdepth
      have hnot : m ∉ path := depths_eq_none_iff.mp (hdepth ▸ hd)
      obtain ⟨⟨_, hbelow⟩, hback⟩ := ihbelow path ⟨hnot, hfits.symm⟩ hdepth
      obtain ⟨hrest, hback⟩ := ihrest path hfits hback
      refine ⟨?_, hback⟩
      show g.explore path (s :: rest) _ = _
      rw [explore_entered hs hm hnot, hbelow]
      exact hrest

/-! ### There is a run -/

/-- A task can be carried out. -/
def CanRun (g : CallGraph n) (task : Task n) (σ : Traversal n) : Prop :=
  ∃ found low τ log, g.Runs task σ found low τ log

/-- A member can be entered if its body can be explored. -/
theorem CanRun.enter {m : Fin n} {d : Nat} {σ : Traversal n}
    (h : g.CanRun (.explore m d) (σ.mark m d)) : g.CanRun (.enter m d) σ := by
  by_cases hserves : ∃ xs, σ.memo.get m = some xs ∧ σ.crosses xs = false
  · obtain ⟨xs, hget, hclear⟩ := hserves
    exact ⟨xs, none, σ, _, .remembered hget hclear⟩
  · obtain ⟨found, low, τ, log, hbody⟩ := h
    refine ⟨found, low, _, _, .missed (fun xs hxs => ?_) hbody⟩
    by_contra hclear
    exact hserves ⟨xs, hxs, by simpa using hclear⟩

/-- The calls of a body can be run if every member that is not on the path can be entered. -/
theorem CanRun.calls {path : List (Fin n)} {d : Nat} (hd : path.length = d + 1)
    (henter : ∀ (m : Fin n) (σ : Traversal n), m ∉ path → σ.depth = depths path →
      g.CanRun (.enter m (d + 1)) σ) :
    ∀ (rest : List (SiteId n)) (found : List (Suffix n)) (low : Option Nat) (σ : Traversal n),
      σ.depth = depths path → g.CanRun (.calls rest d found low) σ := by
  intro rest
  induction rest with
  | nil =>
      intro found low σ _
      exact ⟨found, low, σ, [], .done⟩
  | cons s rest ih =>
      intro found low σ hσ
      cases hs : g.callee? s with
      | none =>
          obtain ⟨found', low', τ, log, hrest⟩ := ih found low σ hσ
          exact ⟨found', low', τ, log, .unknown hs hrest⟩
      | some m =>
          cases hm : (g.tags m).affinity with
          | some t =>
              obtain ⟨found', low', τ, log, hrest⟩ := ih _ low σ hσ
              exact ⟨found', low', τ, log, .tagged hs hm hrest⟩
          | none =>
              by_cases hpath : m ∈ path
              · have hmarked : σ.depth m = some (path.idxOf m) := by
                  rw [hσ, depths_of_mem hpath]
                obtain ⟨found', low', τ, log, hrest⟩ := ih found _ σ hσ
                exact ⟨found', low', τ, log, .stopped hs hm hmarked hrest⟩
              · have hfree : σ.depth m = none := by
                  rw [hσ, depths_eq_none_iff.mpr hpath]
                obtain ⟨below, lowBelow, ρ, log, hbelow⟩ := henter m σ hpath hσ
                -- The marks are back in place, so the next calls start as this one did.
                have hρ := (hbelow.yields path ⟨hpath, hd.symm⟩ hσ).2
                obtain ⟨found', low', τ, log', hrest⟩ := ih _ _ ρ hρ
                exact ⟨found', low', τ, log ++ log', .entered hs hm hfree hbelow hrest⟩

theorem CanRun.explore {m : Fin n} {d : Nat} {σ : Traversal n}
    (h : g.CanRun (.calls (g.sites m) d [] none) σ) : g.CanRun (.explore m d) σ := by
  obtain ⟨found, low, τ, log, hcalls⟩ := h
  exact ⟨found, low, τ, _, .explore hcalls⟩

/-- The induction is on the members that are not on the path. -/
theorem canRun_enter :
    ∀ (k : Nat) (path : List (Fin n)), (offPath path).length = k →
      ∀ (m : Fin n) (σ : Traversal n), m ∉ path → σ.depth = depths path →
        g.CanRun (.enter m path.length) σ := by
  intro k
  induction k using Nat.strong_induction_on with
  | _ k ih =>
    intro path hk m σ hm hσ
    have hlt : (offPath (path ++ [m])).length < k := hk ▸ length_offPath_append_lt hm
    have hlength : (path ++ [m]).length = path.length + 1 := by simp
    refine .enter (.explore (.calls hlength ?_ _ _ _ _ ?_))
    · intro k τ hk hτ
      rw [← hlength]
      exact ih _ hlt _ rfl k τ hk hτ
    · rw [Traversal.mark, hσ, update_depths hm]

/-- **A root can be explored.** -/
theorem canRun_root (g : CallGraph n) (root : Fin n) :
    g.CanRun (.explore root 0) (.start root) :=
  .explore (.calls rfl (canRun_enter _ [root] rfl) _ _ _ _ (Traversal.start_depth root))

/-- And what is found is what the chains from the root are read off. -/
theorem Runs.boundaryChains_eq {root : Fin n} {found : List (Suffix n)} {low : Option Nat}
    {τ : Traversal n} {log : List (Visit n)}
    (h : g.Runs (.explore root 0) (.start root) found low τ log) (rootTag : Tag) :
    g.boundaryChains root rootTag = (found.map (·.chain)).filter (·.tag ≠ rootTag) := by
  have hroot := h.yields [root] ⟨[], rfl, List.not_mem_nil, rfl⟩ (Traversal.start_depth root)
  have hfound : (g.explore [root] (g.sites root) { memo := Vector.replicate n none }).found =
      found := congrArg Exploration.found hroot.1
  rw [boundaryChains, hfound]

end CallGraph

end ThreadAffinity
