/-
Where no calls come back, every member is explored at most once.

A member is explored again if it was not remembered, or if what was remembered crosses the path.
Where no calls come back neither happens.  Exploring never stops, since a call to a member of the
path would come back to it; so whatever is explored is remembered.  And the calls of what is
remembered belong to the member itself and to members below it, while the path has only members
above it; so it never crosses the path.

Every run then only adds to the memory.  `Orderly` says this of a run and of each visit on the way,
and with it that a member which is explored was not remembered before and is afterwards.  Each rule
of a run keeps this up, and `Runs.orderly` puts them together.
-/
import ThreadAffinity.Proofs.PathIndependence

namespace ThreadAffinity

variable {n : Nat}

/-- What the first memory has of a member, the second one has too. -/
def Memo.Keeps (memo later : Memo n) : Prop :=
  ∀ m xs, memo.get m = some xs → later.get m = some xs

namespace Memo.Keeps

variable {memo later last : Memo n}

theorem refl (memo : Memo n) : memo.Keeps memo :=
  fun _ _ h => h

theorem trans (h : memo.Keeps later) (h' : later.Keeps last) : memo.Keeps last :=
  fun m xs hget => h' m xs (h m xs hget)

/-- What is not remembered later was not remembered before. -/
theorem get_eq_none (h : memo.Keeps later) {m : Fin n} (hlater : later.get m = none) :
    memo.get m = none := by
  cases hget : memo.get m with
  | none => rfl
  | some xs =>
      rw [h m xs hget] at hlater
      cases hlater

/-- What was not remembered may be added. -/
theorem set (h : memo.Keeps later) {m : Fin n} (hm : memo.get m = none) (xs : List (Suffix n)) :
    memo.Keeps (later.set m (some xs) m.isLt) := by
  intro k ys hk
  rw [Memo.get_set]
  by_cases hmk : m = k
  · rw [← hmk, hm] at hk
    cases hk
  · rw [if_neg hmk]
    exact h k ys hk

end Memo.Keeps

namespace Task

/-- The member that a task enters or explores. -/
def member? : Task n → Option (Fin n)
  | .enter m _ => some m
  | .explore m _ => some m
  | .calls _ _ _ _ => none

/-- The member that a task explores. -/
def explored? : Task n → Option (Fin n)
  | .explore m _ => some m
  | _ => none

/-- The depth at which exploring stopped before a task. -/
def low : Task n → Option Nat
  | .calls _ _ _ low => low
  | _ => none

/-- The members to which a task may come. -/
def Below (g : CallGraph n) : Task n → Fin n → Prop
  | .enter m _, k => g.Above m k
  | .explore m _, k => g.Above m k
  | .calls rest _ _ _, k =>
    ∃ s ∈ rest, ∃ m, g.callee? s = some m ∧ (g.tags m).affinity = none ∧ g.Above m k

theorem Below.cons {g : CallGraph n} {rest : List (SiteId n)} {d : Nat}
    {found found' : List (Suffix n)} {low low' : Option Nat} {k : Fin n}
    (h : (Task.calls rest d found low).Below g k) {s : SiteId n} :
    (Task.calls (s :: rest) d found' low').Below g k := by
  obtain ⟨r, hr, hbelow⟩ := h
  exact ⟨r, List.mem_cons_of_mem s hr, hbelow⟩

theorem member?_of_explored? {task : Task n} {m : Fin n} (h : task.explored? = some m) :
    task.member? = some m := by
  cases task with
  | enter _ _ => cases h
  | explore _ _ => exact h
  | calls _ _ _ _ => cases h

end Task

/-- The members that were explored, in the order in which that ended. -/
def exploredMembers (log : List (Visit n)) : List (Fin n) :=
  log.filterMap (·.task.explored?)

section Log

variable {log log' : List (Visit n)} {m : Fin n}

theorem mem_exploredMembers :
    m ∈ exploredMembers log ↔ ∃ visit ∈ log, visit.task.explored? = some m :=
  List.mem_filterMap

theorem exploredMembers_append :
    exploredMembers (log ++ log') = exploredMembers log ++ exploredMembers log' :=
  List.filterMap_append

end Log

namespace CallGraph

variable {g : CallGraph n}

/-! ### Every visit is made below the task -/

theorem Runs.visits_below {task : Task n} {σ τ : Traversal n} {found : List (Suffix n)}
    {low : Option Nat} {log : List (Visit n)} (h : g.Runs task σ found low τ log) :
    ∀ visit ∈ log, ∀ k, visit.task.member? = some k → task.Below g k := by
  induction h with
  | remembered _ _ =>
      refine List.forall_mem_singleton.mpr fun k hk => ?_
      rw [← Option.some.inj hk]
      exact .refl
  | missed _ _ ih =>
      refine List.forall_mem_append.mpr ⟨ih, List.forall_mem_singleton.mpr fun k hk => ?_⟩
      rw [← Option.some.inj hk]
      exact .refl
  | explore _ ih =>
      refine List.forall_mem_append.mpr ⟨fun visit hvisit k hk => ?_,
        List.forall_mem_singleton.mpr fun k hk => ?_⟩
      · obtain ⟨s, hs, m, hcallee, hm, habove⟩ := ih visit hvisit k hk
        exact .head ⟨hm, s, hs, hcallee⟩ habove
      · rw [← Option.some.inj hk]
        exact .refl
  | done => exact fun visit hvisit => absurd hvisit List.not_mem_nil
  | unknown _ _ ih => exact fun visit hvisit k hk => (ih visit hvisit k hk).cons
  | tagged _ _ _ ih => exact fun visit hvisit k hk => (ih visit hvisit k hk).cons
  | stopped _ _ _ _ ih => exact fun visit hvisit k hk => (ih visit hvisit k hk).cons
  | @entered s _ m _ _ _ _ _ _ _ _ _ _ _ _ hs hm _ _ _ ihbelow ihrest =>
      refine List.forall_mem_append.mpr ⟨fun visit hvisit k hk => ?_, fun visit hvisit k hk => ?_⟩
      · exact ⟨s, List.mem_cons_self, m, hs, hm, ihbelow visit hvisit k hk⟩
      · exact (ihrest visit hvisit k hk).cons

/-- The calls of a body do not come back to its member. -/
theorem Acyclic.member?_ne (hg : g.Acyclic) {m : Fin n} {d : Nat} {σ τ : Traversal n}
    {found : List (Suffix n)} {low : Option Nat} {log : List (Visit n)}
    (h : g.Runs (.calls (g.sites m) d [] none) σ found low τ log) {visit : Visit n}
    (hvisit : visit ∈ log) : visit.task.member? ≠ some m := by
  intro hm
  obtain ⟨s, hs, k, hcallee, hk, habove⟩ := h.visits_below visit hvisit m hm
  exact hg m (.head' ⟨hk, s, hs, hcallee⟩ habove)

/-- Nor is the member entered while its body is explored. -/
theorem Acyclic.not_entered (hg : g.Acyclic) {m : Fin n} {d : Nat} {σ τ : Traversal n}
    {found : List (Suffix n)} {low : Option Nat} {log : List (Visit n)}
    (h : g.Runs (.explore m d) σ found low τ log) :
    ∀ visit ∈ log, ∀ e, visit.task ≠ .enter m e := by
  cases h with
  | explore hcalls =>
      intro visit hvisit e htask
      rcases List.mem_append.mp hvisit with hvisit | hvisit
      · exact hg.member?_ne hcalls hvisit (congrArg Task.member? htask)
      · rw [List.mem_singleton.mp hvisit] at htask
        cases htask

/-! ### The path and what is below it -/

section Path

variable {path : List (Fin n)} {σ : Traversal n} {m : Fin n} {d : Nat}

/-- No call of a body goes to a member of the path. -/
theorem Acyclic.unmarked (hg : g.Acyclic) {q : Fin n} (habove : ∀ k ∈ path, g.Above k q)
    (hmarks : σ.depth = depths path) (henters : g.Enters q m) : σ.depth m = none := by
  rw [hmarks, depths_eq_none_iff]
  intro hm
  exact hg m (.tail' (habove m hm) henters)

/-- **What is remembered of a member does not cross a path that leads to it.** -/
theorem Acyclic.crosses_eq_false (hg : g.Acyclic) (h : g.OnPath path (.enter m d) σ)
    {xs : List (Suffix n)} (hget : σ.memo.get m = some xs) : σ.crosses xs = false := by
  rw [Traversal.crosses_eq h.marks, Bool.eq_false_iff]
  intro hcross
  simp only [crossesPath, List.any_eq_true, decide_eq_true_eq] at hcross
  obtain ⟨x, hx, s, hs, howner⟩ := hcross
  have hpath : x.chain ∈ g.paths {m} (g.sites m) := (h.memory m xs hget).2.kept x hx
  rcases List.mem_cons.mp hs with rfl | hs
  · -- The first call belongs to the member, which is not on the path.
    rw [owner_of_mem_paths hpath] at howner
    exact h.fits.1 howner
  · have hdown := (leads_of_mem_paths hpath).transGen_enters m x.chain.first x.chain.rest rfl
      (first_mem_of_mem_paths hpath) s hs
    exact hg m (hdown.trans_left (h.ledTo.2 _ howner))

/-- So a member is explored only if nothing is remembered of it. -/
theorem Acyclic.get_eq_none (hg : g.Acyclic) (h : g.OnPath path (.enter m d) σ)
    (hmiss : ∀ xs, σ.memo.get m = some xs → σ.crosses xs = true) : σ.memo.get m = none := by
  cases hget : σ.memo.get m with
  | none => rfl
  | some xs =>
      have hclear := hg.crosses_eq_false h hget
      rw [hmiss xs hget] at hclear
      cases hclear

end Path

/-! ### Runs only add to the memory -/

/-- Of a member that is not entered nothing is forgotten and nothing is added. -/
theorem Runs.get_memo {task : Task n} {σ τ : Traversal n} {found : List (Suffix n)}
    {low : Option Nat} {log : List (Visit n)} (h : g.Runs task σ found low τ log) {m : Fin n} :
    (∀ visit ∈ log, ∀ d, visit.task ≠ .enter m d) → τ.memo.get m = σ.memo.get m := by
  induction h with
  | remembered _ _ => exact fun _ => rfl
  | @missed k d σ τ found low log _ _ ih =>
      intro hnot
      have hk : k ≠ m := by
        rintro rfl
        exact hnot _ (List.mem_append_right _ List.mem_cons_self) d rfl
      have hbody := ih fun visit hvisit => hnot visit (List.mem_append_left _ hvisit)
      rw [Traversal.leave]
      split
      · rw [Memo.get_set, if_neg hk]
        exact hbody
      · exact hbody
  | explore _ ih =>
      intro hnot
      exact ih fun visit hvisit => hnot visit (List.mem_append_left _ hvisit)
  | done => exact fun _ => rfl
  | unknown _ _ ih => exact ih
  | tagged _ _ _ ih => exact ih
  | stopped _ _ _ _ ih => exact ih
  | entered _ _ _ _ _ ihbelow ihrest =>
      intro hnot
      rw [ihrest fun visit hvisit => hnot visit (List.mem_append_right _ hvisit)]
      exact ihbelow fun visit hvisit => hnot visit (List.mem_append_left _ hvisit)

end CallGraph

namespace Visit

/-- A visit in a run that starts with one memory and ends with another. -/
structure Within (memo later : Memo n) (visit : Visit n) : Prop where
  unstopped : visit.low = none
  before_keeps : memo.Keeps visit.before.memo
  later_keeps : visit.after.memo.Keeps later
  /-- What a member returned when it was entered is remembered. -/
  stored : ∀ m d, visit.task = .enter m d → visit.after.memo.get m = some visit.found

theorem Within.mono {memo memo' later later' : Memo n} {visit : Visit n}
    (h : visit.Within memo later) (hmemo : memo'.Keeps memo) (hlater : later.Keeps later') :
    visit.Within memo' later' :=
  ⟨h.unstopped, hmemo.trans h.before_keeps, h.later_keeps.trans hlater, h.stored⟩

/-- If the second visit enters the same member, it finds what the first one returned. -/
def RecalledBy (v w : Visit n) : Prop :=
  ∀ m d e, v.task = .enter m d → w.task = .enter m e → w.before.memo.get m = some v.found

end Visit

/-- A run that never stops, keeps what is remembered, and explores no member twice.  What `low` was
before comes along with the calls of a body, and stays. -/
structure Orderly (task : Task n) (σ : Traversal n) (low : Option Nat) (τ : Traversal n)
    (log : List (Visit n)) : Prop where
  low_eq : low = task.low
  keeps : σ.memo.Keeps τ.memo
  visits : ∀ visit ∈ log, visit.Within σ.memo τ.memo
  recalled : log.Pairwise Visit.RecalledBy
  fresh : ∀ m ∈ exploredMembers log, σ.memo.get m = none
  /-- A member is remembered when it has been left. -/
  left : ∀ m ∈ exploredMembers log, task.explored? = some m ∨ τ.memo.get m ≠ none
  once : (exploredMembers log).Nodup

namespace Orderly

variable {g : CallGraph n} {σ ρ τ : Traversal n} {m : Fin n} {d : Nat}
  {found found' : List (Suffix n)} {low low' lowBelow : Option Nat} {log log' : List (Visit n)}
  {s : SiteId n} {rest : List (SiteId n)}

theorem remembered (hget : σ.memo.get m = some found) :
    Orderly (.enter m d) σ none σ [⟨.enter m d, σ, found, none, σ⟩] where
  low_eq := rfl
  keeps := .refl _
  visits := by
    refine List.forall_mem_singleton.mpr ⟨rfl, .refl _, .refl _, ?_⟩
    intro k e htask
    cases htask
    exact hget
  recalled := List.pairwise_singleton _ _
  fresh := fun _ h => absurd h List.not_mem_nil
  left := fun _ h => absurd h List.not_mem_nil
  once := List.nodup_nil

/-- A member is left that its own calls did not enter. -/
theorem missed (h : Orderly (.explore m d) (σ.mark m d) low τ log)
    (hτ : τ.memo.get m = none) (hnot : ∀ visit ∈ log, ∀ e, visit.task ≠ .enter m e) :
    Orderly (.enter m d) σ low (τ.leave m d found low)
      (log ++ [⟨.enter m d, σ, found, low, τ.leave m d found low⟩]) := by
  obtain rfl : low = none := h.low_eq
  have hadds : τ.memo.Keeps (τ.leave m d found none).memo := (Memo.Keeps.refl _).set hτ found
  have hstores : (τ.leave m d found none).memo.get m = some found :=
    (Memo.get_set τ.memo m m (some found)).trans (if_pos rfl)
  have hexplored : exploredMembers
      (log ++ [⟨.enter m d, σ, found, none, τ.leave m d found none⟩]) = exploredMembers log := by
    rw [exploredMembers_append]
    exact List.append_nil _
  refine ⟨rfl, h.keeps.trans hadds, ?_, ?_, hexplored ▸ h.fresh, ?_, hexplored ▸ h.once⟩
  · refine List.forall_mem_append.mpr ⟨fun visit hvisit => ?_, List.forall_mem_singleton.mpr ?_⟩
    · exact (h.visits visit hvisit).mono (.refl _) hadds
    · refine ⟨rfl, .refl _, .refl _, fun k e htask => ?_⟩
      cases htask
      exact hstores
  · refine List.pairwise_append.mpr ⟨h.recalled, List.pairwise_singleton _ _, ?_⟩
    -- Visits are written down when they end, so those in the body stand before this one.
    intro v hv w hw k e e' hvtask hwtask
    rw [List.mem_singleton.mp hw] at hwtask
    cases hwtask
    exact absurd hvtask (hnot v hv e)
  · rw [hexplored]
    intro k hk
    right
    rcases h.left k hk with hkm | hk
    · rw [← Option.some.inj hkm, hstores]
      exact Option.some_ne_none found
    · exact fun hnone => hk (hadds.get_eq_none hnone)

theorem explore (h : Orderly (.calls (g.sites m) d [] none) σ low τ log)
    (hm : σ.memo.get m = none) (hnot : m ∉ exploredMembers log) :
    Orderly (.explore m d) σ low τ (log ++ [⟨.explore m d, σ, found, low, τ⟩]) := by
  have hexplored : exploredMembers (log ++ [⟨.explore m d, σ, found, low, τ⟩]) =
      exploredMembers log ++ [m] := exploredMembers_append
  refine ⟨h.low_eq, h.keeps, ?_, ?_, ?_, ?_, ?_⟩
  · refine List.forall_mem_append.mpr ⟨h.visits, List.forall_mem_singleton.mpr ?_⟩
    exact ⟨h.low_eq, .refl _, .refl _, fun k e htask => by cases htask⟩
  · refine List.pairwise_append.mpr ⟨h.recalled, List.pairwise_singleton _ _, ?_⟩
    intro v _ w hw k e e' _ hwtask
    rw [List.mem_singleton.mp hw] at hwtask
    cases hwtask
  · rw [hexplored]
    exact List.forall_mem_append.mpr ⟨h.fresh, List.forall_mem_singleton.mpr hm⟩
  · rw [hexplored]
    refine List.forall_mem_append.mpr ⟨fun k hk => ?_, List.forall_mem_singleton.mpr (Or.inl rfl)⟩
    exact Or.inr ((h.left k hk).resolve_left (by simp [Task.explored?]))
  · rw [hexplored]
    refine List.nodup_append.mpr ⟨h.once, List.nodup_singleton m, ?_⟩
    intro k hk q hq hkq
    rw [hkq, List.mem_singleton.mp hq] at hk
    exact hnot hk

theorem done : Orderly (.calls [] d found low) σ low σ [] where
  low_eq := rfl
  keeps := .refl _
  visits := fun _ h => absurd h List.not_mem_nil
  recalled := .nil
  fresh := fun _ h => absurd h List.not_mem_nil
  left := fun _ h => absurd h List.not_mem_nil
  once := List.nodup_nil

/-- A call that enters no member changes neither memory nor log. -/
theorem skip (h : Orderly (.calls rest d found' low) σ low' τ log) :
    Orderly (.calls (s :: rest) d found low) σ low' τ log :=
  ⟨h.low_eq, h.keeps, h.visits, h.recalled, h.fresh, h.left, h.once⟩

/-- What the first call remembers, the other ones find. -/
theorem entered (h : Orderly (.enter m (d + 1)) σ lowBelow ρ log)
    (h' : Orderly (.calls rest d found' (minDepth low lowBelow)) ρ low' τ log') :
    Orderly (.calls (s :: rest) d found low) σ low' τ (log ++ log') := by
  have hleft : ∀ k ∈ exploredMembers log, ρ.memo.get k ≠ none :=
    fun k hk => (h.left k hk).resolve_left (by simp [Task.explored?])
  refine ⟨?_, h.keeps.trans h'.keeps, ?_, ?_, ?_, ?_, ?_⟩
  · rw [h'.low_eq, h.low_eq]
    exact Option.merge_none_right
  · refine List.forall_mem_append.mpr ⟨fun visit hvisit => ?_, fun visit hvisit => ?_⟩
    · exact (h.visits visit hvisit).mono (.refl _) h'.keeps
    · exact (h'.visits visit hvisit).mono h.keeps (.refl _)
  · refine List.pairwise_append.mpr ⟨h.recalled, h'.recalled, ?_⟩
    intro v hv w hw k e e' hvtask _
    have hstored := (h.visits v hv).stored k e hvtask
    exact (h'.visits w hw).before_keeps _ _ ((h.visits v hv).later_keeps _ _ hstored)
  · rw [exploredMembers_append]
    refine List.forall_mem_append.mpr ⟨h.fresh, fun k hk => ?_⟩
    exact h.keeps.get_eq_none (h'.fresh k hk)
  · rw [exploredMembers_append]
    refine List.forall_mem_append.mpr ⟨fun k hk => Or.inr fun hnone => ?_, h'.left⟩
    exact hleft k hk (h'.keeps.get_eq_none hnone)
  · rw [exploredMembers_append]
    refine List.nodup_append.mpr ⟨h.once, h'.once, ?_⟩
    -- A member that was explored is remembered, so the other calls do not explore it.
    intro k hk q hq hkq
    rw [← hkq] at hq
    exact hleft k hk (h'.fresh k hq)

end Orderly

namespace CallGraph

variable {g : CallGraph n}

/-- **Where no calls come back, every run on a path is orderly.**  The induction is on the run, and
a body that is to be explored must be one that is not remembered yet. -/
theorem Runs.orderly (hg : g.Acyclic) {task : Task n} {σ τ : Traversal n}
    {found : List (Suffix n)} {low : Option Nat} {log : List (Visit n)}
    (h : g.Runs task σ found low τ log) :
    ∀ path, g.OnPath path task σ → (∀ m, task.explored? = some m → σ.memo.get m = none) →
      Orderly task σ low τ log := by
  induction h with
  | remembered hget _ =>
      intro path _ _
      exact .remembered hget
  | @missed m d σ τ found low log hmiss hbody ih =>
      intro path hpath _
      have hm := hg.get_eq_none hpath hmiss
      have hfresh : ∀ k, (Task.explore m d).explored? = some k →
          (σ.mark m d).memo.get k = none := by
        intro k hk
        rw [← Option.some.inj hk]
        exact hm
      have hnot := hg.not_entered hbody
      refine (ih _ hpath.body hfresh).missed ?_ hnot
      rw [hbody.get_memo hnot]
      exact hm
  | explore hcalls ih =>
      intro path hpath hfresh
      refine (ih path hpath.calls fun _ hk => by cases hk).explore (hfresh _ rfl) ?_
      intro hm
      obtain ⟨visit, hvisit, htask⟩ := mem_exploredMembers.mp hm
      exact hg.member?_ne hcalls hvisit (Task.member?_of_explored? htask)
  | done => exact fun _ _ _ => .done
  | unknown _ _ ih =>
      intro path hpath _
      exact (ih path (hpath.next hpath.marks hpath.memory) fun _ hk => by cases hk).skip
  | tagged _ _ _ ih =>
      intro path hpath _
      exact (ih path (hpath.next hpath.marks hpath.memory) fun _ hk => by cases hk).skip
  | stopped hs hm hd _ _ =>
      intro path hpath _
      -- The call would come back to a member of the path.
      obtain ⟨q, done, hbody, habove⟩ := hpath.ledTo
      have hnone := hg.unmarked habove hpath.marks ⟨hm, _, by rw [hbody]; simp, hs⟩
      rw [hnone] at hd
      cases hd
  | entered hs hm hd hbelow _ ihbelow ihrest =>
      intro path hpath _
      have henter := hpath.entered hs hm hd
      have hmarks := (hbelow.yields path henter.fits henter.marks).2
      have hmemo := (hbelow.made path henter).1
      exact (ihbelow path henter fun _ hk => by cases hk).entered
        (ihrest path (hpath.next hmarks hmemo) fun _ hk => by cases hk)

end CallGraph

/-! ### Entering a member again -/

/-- A visit is answered from the memory, which does not cross the path. -/
structure Visit.Recalls (visit : Visit n) (m : Fin n) (xs : List (Suffix n)) : Prop where
  get_memo : visit.before.memo.get m = some xs
  clear : visit.before.crosses xs = false
  found_eq : visit.found = xs
  unchanged : visit.after = visit.before

namespace CallGraph

variable {g : CallGraph n}

theorem Runs.answered {m : Fin n} {d : Nat} {σ τ : Traversal n} {found xs : List (Suffix n)}
    {low : Option Nat} {log : List (Visit n)} (h : g.Runs (.enter m d) σ found low τ log)
    (hget : σ.memo.get m = some xs) (hclear : σ.crosses xs = false) : found = xs ∧ τ = σ := by
  cases h with
  | remembered hget' _ => exact ⟨Option.some.inj (hget'.symm.trans hget), rfl⟩
  | missed hmiss _ =>
      rw [hmiss xs hget] at hclear
      cases hclear

theorem Made.recalls (hg : g.Acyclic) {path : List (Fin n)} {visit : Visit n}
    (h : g.Made path visit) {m : Fin n} {d : Nat} (htask : visit.task = .enter m d)
    {xs : List (Suffix n)} (hget : visit.before.memo.get m = some xs) : visit.Recalls m xs := by
  have hpath := h.onPath
  obtain ⟨log, hrun⟩ := h.runs
  rw [htask] at hpath hrun
  have hclear := hg.crosses_eq_false hpath hget
  obtain ⟨hfound, hafter⟩ := hrun.answered hget hclear
  exact ⟨hget, hclear, hfound, hafter⟩

/--
**Where no calls come back, every member is explored at most once.**  From every root there is a
run, and every run finds what the chains from the root are read off.  Each visit of a run returns
what `enter` or `explore` does along some path, whose members are the marked ones; it never
stopped, and no call of a body that is explored goes to a member of the path.  When a member has
been entered it is remembered with what was found; and every time it is entered later, that does
not cross the path and is the answer.  So the members that are explored are all different.
-/
theorem explored_at_most_once (g : CallGraph n) (hg : g.Acyclic) (root : Fin n) :
    g.CanRun (.explore root 0) (.start root) ∧
    ∀ found low τ log, g.Runs (.explore root 0) (.start root) found low τ log →
      (∀ rootTag, g.boundaryChains root rootTag =
        (found.map (·.chain)).filter (·.tag ≠ rootTag)) ∧
      (∀ visit ∈ log,
        (∃ path, visit.before.depth = depths path ∧
          visit.task.Yields g path visit.before.memo
            { found := visit.found, low := visit.low, memo := visit.after.memo }) ∧
        visit.low = none ∧
        (∀ m d, visit.task = .explore m d → ∀ k, g.Enters m k → visit.before.depth k = none) ∧
        ∀ m d, visit.task = .enter m d → visit.after.memo.get m = some visit.found) ∧
      (log.Pairwise fun v w => ∀ m d e, v.task = .enter m d → w.task = .enter m e →
        w.Recalls m v.found) ∧
      (exploredMembers log).Nodup := by
  refine ⟨g.canRun_root root, ?_⟩
  intro found low τ log hrun
  have hroot := g.onPath_root root
  have hmade := (hrun.made [root] hroot).2
  have horderly := hrun.orderly hg [root] hroot fun m _ => Memo.get_replicate m
  refine ⟨hrun.boundaryChains_eq, ?_, ?_, horderly.once⟩
  · intro visit hvisit
    obtain ⟨path, hvisited⟩ := hmade visit hvisit
    have hwithin := horderly.visits visit hvisit
    refine ⟨⟨path, hvisited.onPath.marks, hvisited.yields⟩, hwithin.unstopped, ?_, hwithin.stored⟩
    intro m d htask k hk
    have hled := hvisited.onPath.ledTo
    rw [htask] at hled
    exact hg.unmarked hled hvisited.onPath.marks hk
  · refine horderly.recalled.imp_of_mem ?_
    intro v w _ hw hrecalled m d e hv hw'
    obtain ⟨path, hvisited⟩ := hmade w hw
    exact hvisited.recalls hg hw' (hrecalled m d e hv hw')

/-- Layers of helpers, each of which calls the next one twice. -/
def layers : CallGraph 5 where
  members := #v[
    { tags := { affinity := some ⟨"Main"⟩ }, sites := [{ callee := some 1 }] },
    { sites := [{ callee := some 2 }, { callee := some 2 }] },
    { sites := [{ callee := some 3 }, { callee := some 3 }] },
    { sites := [{ callee := some 4 }] },
    { tags := { affinity := some ⟨"Worker"⟩ } }]

theorem layers_acyclic : layers.Acyclic := by
  -- Every call goes to a member with a larger number.
  have hcheck : ((List.finRange 5).all fun q => (layers.sites q).all fun s =>
      (layers.callee? s).all fun m => decide (q < m)) = true := by decide
  have hup : ∀ q m, layers.Enters q m → q < m := by
    rintro q m ⟨-, s, hs, hm⟩
    have h := List.all_eq_true.mp hcheck q (List.mem_finRange q)
    have h := List.all_eq_true.mp h s hs
    rw [hm] at h
    simpa using h
  have hlt : ∀ q m, Relation.TransGen layers.Enters q m → q < m := by
    intro q m h
    induction h with
    | single h => exact hup _ _ h
    | tail _ h ih => exact ih.trans (hup _ _ h)
  exact fun m h => lt_irrefl m (hlt m m h)

/-- Four paths lead to member `3`, it is entered twice and explored once. -/
theorem layers_run : ∃ found low τ log,
    layers.Runs (.explore 0 0) (.start 0) found low τ log ∧
      log.map (·.task) = [.explore 3 3, .enter 3 3, .enter 3 3, .explore 2 2, .enter 2 2,
        .enter 2 2, .explore 1 1, .enter 1 1, .explore 0 0] := by
  refine ⟨_, _, _, _, .explore (.entered (m := 1) rfl rfl rfl (.missed ?_ (.explore
    (.entered (m := 2) rfl rfl rfl (.missed ?_ (.explore
      (.entered (m := 3) rfl rfl rfl (.missed ?_ (.explore (.tagged (m := 4) rfl rfl .done)))
        (.entered (m := 3) rfl rfl rfl (.remembered rfl rfl) .done))))
      (.entered (m := 2) rfl rfl rfl (.remembered rfl rfl) .done)))) .done), rfl⟩
  -- On the way down nothing is remembered yet.
  all_goals
    intro xs hget
    cases hget

theorem layers_explored_once :
    layers.Acyclic ∧
    (layers.boundaryChains 0 ⟨"Main"⟩).map (·.sites) = [[⟨0, 0⟩, ⟨1, 0⟩, ⟨2, 0⟩, ⟨3, 0⟩]] ∧
    ∃ found low τ log, layers.Runs (.explore 0 0) (.start 0) found low τ log ∧
      log.map (·.task) = [.explore 3 3, .enter 3 3, .enter 3 3, .explore 2 2, .enter 2 2,
        .enter 2 2, .explore 1 1, .enter 1 1, .explore 0 0] ∧
      (∀ visit ∈ log, visit.low = none ∧
        ∀ m d, visit.task = .enter m d → visit.after.memo.get m = some visit.found) ∧
      (log.Pairwise fun v w => ∀ m d e, v.task = .enter m d → w.task = .enter m e →
        w.Recalls m v.found) ∧
      (exploredMembers log).Nodup := by
  obtain ⟨found, low, τ, log, hrun, htasks⟩ := layers_run
  obtain ⟨-, hvisits, hrecalls, honce⟩ :=
    (explored_at_most_once layers layers_acyclic 0).2 found low τ log hrun
  refine ⟨layers_acyclic, by cbv, found, low, τ, log, hrun, htasks, ?_, hrecalls, honce⟩
  intro visit hvisit
  obtain ⟨-, hlow, -, hstored⟩ := hvisits visit hvisit
  exact ⟨hlow, hstored⟩

end CallGraph

end ThreadAffinity
