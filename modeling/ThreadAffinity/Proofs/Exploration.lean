/-
Remembering does not change what an exploration tells about the paths.

A member that is on the path is not entered again, so what is found below a member
depends on the path that led there, and yet it is remembered and used under other
paths.  The invariant that makes this right is stronger than "what is found is right for
the path".  An exploration that stopped at no member above some depth is right for every
set of members between the part of the path below that depth and the whole path:
`StandsFor` says which sets these are, `Explored` that the suffixes found so far are right
for all of them at once.

The member alone is such a set as soon as exploring it stopped at nothing above it, and
then its suffixes are remembered.  To use them again under another path is to ask for
more members to be avoided, and for that it is enough that no suffix that was kept runs
through one of them; what was collapsed away does not matter.

What "right" means is left open.  A `Digest` is any relation between suffixes and paths
that adding calls keeps up and that survives avoiding more members, where these can only be
members from which exploring came.  Summaries are one.
-/
import Mathlib.Logic.Relation
import ThreadAffinity.Proofs.Collapse

namespace ThreadAffinity

variable {n : Nat}

theorem Memo.get_set (memo : Memo n) (m j : Fin n) (xs : Option (List (Suffix n))) :
    (memo.set m xs m.isLt).get j = if m = j then xs else memo.get j := by
  show (memo.set m xs m.isLt)[j.val] = _
  rw [Vector.getElem_set]
  exact if_congr Fin.ext_iff.symm rfl rfl

theorem Memo.get_replicate (m : Fin n) : (Vector.replicate n none : Memo n).get m = none := by
  show (Vector.replicate n none)[m.val] = none
  rw [Vector.getElem_replicate]

/--
The members that may be taken as the ones to avoid, for a path on which exploring stopped
at no depth above `low`: some members of the path, among them all those at `low` or below.
-/
structure StandsFor (path : List (Fin n)) (low : Option Nat) (avoid : Finset (Fin n)) :
    Prop where
  onPath : ∀ m ∈ avoid, m ∈ path
  below : ∀ d, low = some d → ∀ m ∈ path, d ≤ path.idxOf m → m ∈ avoid

namespace StandsFor

variable {path : List (Fin n)} {low other : Option Nat} {avoid : Finset (Fin n)} {m : Fin n}

theorem toFinset (path : List (Fin n)) (low : Option Nat) : StandsFor path low path.toFinset :=
  ⟨fun _ hm => List.mem_toFinset.mp hm, fun _ _ _ hm _ => List.mem_toFinset.mpr hm⟩

/-- Having stopped less is less of a condition. -/
theorem mono (h : StandsFor path low avoid)
    (hle : ∀ d, other = some d → ∃ d', low = some d' ∧ d' ≤ d) : StandsFor path other avoid := by
  refine ⟨h.onPath, ?_⟩
  intro d hd m hm hdm
  obtain ⟨d', hd', hle⟩ := hle d hd
  exact h.below d' hd' m hm (Nat.le_trans hle hdm)

theorem of_minDepth_left (h : StandsFor path (minDepth low other) avoid) :
    StandsFor path low avoid := by
  refine h.mono fun d hd => ?_
  subst hd
  cases other with
  | none => exact ⟨d, rfl, Nat.le_refl d⟩
  | some d' => exact ⟨min d d', rfl, Nat.min_le_left d d'⟩

theorem of_minDepth_right (h : StandsFor path (minDepth low other) avoid) :
    StandsFor path other avoid := by
  refine h.mono fun d hd => ?_
  subst hd
  cases low with
  | none => exact ⟨d, rfl, Nat.le_refl d⟩
  | some d' => exact ⟨min d' d, rfl, Nat.min_le_right d' d⟩

/-- The path goes on into a member that was not on it. -/
theorem insert (h : StandsFor path low avoid) (hm : m ∉ path) :
    StandsFor (path ++ [m]) low (insert m avoid) := by
  refine ⟨?_, ?_⟩
  · intro k hk
    rcases Finset.mem_insert.mp hk with rfl | hk
    · simp
    · exact List.mem_append_left _ (h.onPath k hk)
  · intro d hd k hk hdk
    rcases List.mem_append.mp hk with hkp | hkm
    · rw [List.idxOf_append_of_mem hkp] at hdk
      exact Finset.mem_insert_of_mem (h.below d hd k hkp hdk)
    · rw [List.mem_singleton.mp hkm]
      exact Finset.mem_insert_self m avoid

/-- A member stands for its path if exploring it stopped at nothing above it. -/
theorem singleton (hlow : low.all (path.length ≤ ·) = true) :
    StandsFor (path ++ [m]) low {m} := by
  refine ⟨?_, ?_⟩
  · intro k hk
    rw [Finset.mem_singleton.mp hk]
    simp
  · intro d hd k hk hdk
    subst hd
    have hd : path.length ≤ d := by simpa using hlow
    rcases List.mem_append.mp hk with hkp | hkm
    · rw [List.idxOf_append_of_mem hkp] at hdk
      have := List.idxOf_lt_length_of_mem hkp
      omega
    · rw [List.mem_singleton.mp hkm]
      exact Finset.mem_singleton_self m

end StandsFor

namespace CallGraph

variable (g : CallGraph n)

/-- A call of the body of `q` enters `m`. -/
def Enters (q m : Fin n) : Prop :=
  (g.tags m).affinity = none ∧ ∃ s ∈ g.sites q, g.callee? s = some m

/-- From `k` exploring may come to `m`. -/
def Above : Fin n → Fin n → Prop :=
  Relation.ReflTransGen g.Enters

/--
A relation between suffixes and the paths they stand for that exploring keeps up, call by
call in the body of a member, and when remembered suffixes are used again.
-/
structure Digest (S : List (Suffix n) → List (Chain n) → Prop) : Prop where
  nil : S [] []
  /-- The next call of a body reaches a tag. -/
  tagged : ∀ {q m : Fin n} {avoid : Finset (Fin n)} {done after : List (SiteId n)}
    {s : SiteId n} {t : Tag} {found : List (Suffix n)}, g.sites q = done ++ s :: after →
      g.callee? s = some m → (g.tags m).affinity = some t → S found (g.paths avoid done) →
      S ((Suffix.single g s t).insert found) (g.paths avoid (done ++ [s]))
  /-- The next call of a body enters a member. -/
  entered : ∀ {q m : Fin n} {avoid : Finset (Fin n)} {done after : List (SiteId n)}
    {s : SiteId n} {found below : List (Suffix n)}, g.sites q = done ++ s :: after →
      g.callee? s = some m → (g.tags m).affinity = none → m ∉ avoid →
      S found (g.paths avoid done) → S below (g.paths (insert m avoid) (g.sites m)) →
      S (Suffix.insertAll found (below.map (Suffix.cons g s))) (g.paths avoid (done ++ [s]))
  /-- The suffixes of a body run through none of some members above. -/
  restrict : ∀ {q : Fin n} {more : Finset (Fin n)} {xs : List (Suffix n)},
    (g.tags q).affinity = none → (∀ k ∈ more, g.Above k q) → S xs (g.paths {q} (g.sites q)) →
      (∀ x ∈ xs, x.chain.clearOf more = true) → S xs (g.paths ({q} ∪ more) (g.sites q))

theorem summary_digest : g.Digest g.Summary where
  nil := Summary.nil
  tagged := by
    intro q m avoid done after s t found hbody hs hm h
    show g.Summary (Suffix.insertAll found [Suffix.single g s t]) (g.paths avoid (done ++ [s]))
    refine h.add hbody ?_
    rw [pathsThrough_tagged hs hm]
    exact Represents.single g s t
  entered := by
    intro q m avoid done after s found below hbody hs hm hav h hbelow
    exact h.add hbody (hbelow.cons hs hm hav)
  restrict := fun _ _ h hclear => h.restrict hclear

/-- What is remembered of a member is right for all paths that do not come back to it. -/
def MemoOK (S : List (Suffix n) → List (Chain n) → Prop) (memo : Memo n) : Prop :=
  ∀ (m : Fin n) (xs : List (Suffix n)), memo.get m = some xs → S xs (g.paths {m} (g.sites m))

/-- What is known after exploring some calls of the member at the end of a path. -/
structure Explored (S : List (Suffix n) → List (Chain n) → Prop) (path : List (Fin n))
    (done : List (SiteId n)) (e : Exploration n) : Prop where
  memo : g.MemoOK S e.memo
  right : ∀ avoid, StandsFor path e.low avoid → S e.found (g.paths avoid done)

/-- What is known after entering member `m` from a path. -/
structure Entered (S : List (Suffix n) → List (Chain n) → Prop) (path : List (Fin n))
    (m : Fin n) (e : Exploration n) : Prop where
  memo : g.MemoOK S e.memo
  right : ∀ avoid, StandsFor path e.low avoid →
    S e.found (g.paths (insert m avoid) (g.sites m))

variable {g} {S : List (Suffix n) → List (Chain n) → Prop}

theorem memoOK_replicate : g.MemoOK S (Vector.replicate n none) := by
  intro m xs h
  rw [Memo.get_replicate] at h
  cases h

theorem MemoOK.set {memo : Memo n} (h : g.MemoOK S memo) {m : Fin n} {xs : List (Suffix n)}
    (hxs : S xs (g.paths {m} (g.sites m))) : g.MemoOK S (memo.set m (some xs) m.isLt) := by
  intro k ys hk
  rw [Memo.get_set] at hk
  by_cases hmk : m = k
  · rw [if_pos hmk] at hk
    rw [← hmk, ← Option.some.inj hk]
    exact hxs
  · rw [if_neg hmk] at hk
    exact h k ys hk

/-! ### One call -/

section Calls

variable {path : List (Fin n)} {s : SiteId n} {rest : List (SiteId n)} {e : Exploration n}
  {m : Fin n}

theorem explore_nil : g.explore path [] e = e := by
  rw [explore]

theorem explore_unknown (hs : g.callee? s = none) :
    g.explore path (s :: rest) e = g.explore path rest e := by
  rw [explore]
  simp only [hs]

theorem explore_tagged {t : Tag} (hs : g.callee? s = some m)
    (hm : (g.tags m).affinity = some t) :
    g.explore path (s :: rest) e =
      g.explore path rest { e with found := (Suffix.single g s t).insert e.found } := by
  rw [explore]
  simp only [hs, hm]

theorem explore_stopped (hs : g.callee? s = some m) (hm : (g.tags m).affinity = none)
    (h : m ∈ path) :
    g.explore path (s :: rest) e =
      g.explore path rest { e with low := minDepth e.low (some (path.idxOf m)) } := by
  rw [explore]
  simp only [hs, hm, dif_pos h]

theorem explore_entered (hs : g.callee? s = some m) (hm : (g.tags m).affinity = none)
    (h : m ∉ path) :
    g.explore path (s :: rest) e =
      g.explore path rest {
        found := Suffix.insertAll e.found
          ((g.enter path e.memo m h).found.map (Suffix.cons g s))
        low := minDepth e.low (g.enter path e.memo m h).low
        memo := (g.enter path e.memo m h).memo } := by
  rw [explore]
  simp only [hs, hm, dif_neg h]

namespace Explored

variable {done after : List (SiteId n)} {q : Fin n}

/-- A call that brings no path leaves what was found as it is. -/
theorem skip (h : g.Explored S path done e) {low : Option Nat}
    (hlow : ∀ avoid, StandsFor path low avoid →
      StandsFor path e.low avoid ∧ g.pathsThrough avoid s = []) :
    g.Explored S path (done ++ [s]) { e with low := low } := by
  refine ⟨h.memo, fun avoid hav => ?_⟩
  obtain ⟨hav, hnone⟩ := hlow avoid hav
  rw [paths_append, paths_singleton, hnone, List.append_nil]
  exact h.right avoid hav

theorem stopped (h : g.Explored S path done e) (hs : g.callee? s = some m)
    (hm : (g.tags m).affinity = none) (hpath : m ∈ path) :
    g.Explored S path (done ++ [s])
      { e with low := minDepth e.low (some (path.idxOf m)) } := by
  refine h.skip fun avoid hav => ⟨hav.of_minDepth_left, ?_⟩
  exact pathsThrough_avoided hs hm
    (hav.of_minDepth_right.below _ rfl m hpath (Nat.le_refl _))

theorem tagged {t : Tag} (hS : g.Digest S) (h : g.Explored S path done e)
    (hbody : g.sites q = done ++ s :: after) (hs : g.callee? s = some m)
    (hm : (g.tags m).affinity = some t) :
    g.Explored S path (done ++ [s])
      { e with found := (Suffix.single g s t).insert e.found } :=
  ⟨h.memo, fun avoid hav => hS.tagged hbody hs hm (h.right avoid hav)⟩

theorem entered {below : Exploration n} (hS : g.Digest S)
    (h : g.Explored S path done e) (hbody : g.sites q = done ++ s :: after)
    (hs : g.callee? s = some m) (hm : (g.tags m).affinity = none) (hpath : m ∉ path)
    (hbelow : g.Entered S path m below) :
    g.Explored S path (done ++ [s]) {
      found := Suffix.insertAll e.found (below.found.map (Suffix.cons g s))
      low := minDepth e.low below.low
      memo := below.memo } := by
  refine ⟨hbelow.memo, fun avoid hav => ?_⟩
  have hnot : m ∉ avoid := fun hc => hpath (hav.onPath m hc)
  exact hS.entered hbody hs hm hnot (h.right avoid hav.of_minDepth_left)
    (hbelow.right avoid hav.of_minDepth_right)

end Explored

end Calls

/-! ### A whole body, and the members below it -/

/-- Exploring the rest of a body, if entering a member is right. -/
theorem explore_explored (hS : g.Digest S) {path : List (Fin n)} {q : Fin n}
    (habove : ∀ k ∈ path, g.Above k q)
    (henter : ∀ (memo : Memo n) (m : Fin n) (h : m ∉ path), (g.tags m).affinity = none →
      (∀ k ∈ path, g.Above k m) → g.MemoOK S memo →
      g.Entered S path m (g.enter path memo m h)) :
    ∀ (rest done : List (SiteId n)) (e : Exploration n), g.sites q = done ++ rest →
      g.Explored S path done e → g.Explored S path (g.sites q) (g.explore path rest e) := by
  intro rest
  induction rest with
  | nil =>
      intro done e hbody h
      rw [explore_nil, hbody, List.append_nil]
      exact h
  | cons s rest ih =>
      intro done e hbody h
      have hnext : g.sites q = (done ++ [s]) ++ rest := by rw [hbody]; simp
      cases hs : g.callee? s with
      | none =>
          rw [explore_unknown hs]
          exact ih _ e hnext (h.skip fun avoid hav => ⟨hav, pathsThrough_unknown hs⟩)
      | some m =>
          cases hm : (g.tags m).affinity with
          | some t =>
              rw [explore_tagged hs hm]
              exact ih _ _ hnext (h.tagged hS hbody hs hm)
          | none =>
              by_cases hpath : m ∈ path
              · rw [explore_stopped hs hm hpath]
                exact ih _ _ hnext (h.stopped hs hm hpath)
              · rw [explore_entered hs hm hpath]
                have henters : g.Enters q m := ⟨hm, s, by rw [hbody]; simp, hs⟩
                have hbelow := henter e.memo m hpath hm
                  (fun k hk => (habove k hk).tail henters) h.memo
                exact ih _ _ hnext (h.entered hS hbody hs hm hpath hbelow)

/-- A suffix of a list that does not cross the path enters no member of the path. -/
theorem clearOf_of_crossesPath {path : List (Fin n)} {xs : List (Suffix n)} {x : Suffix n}
    (hcross : crossesPath path xs = false) (hx : x ∈ xs) {members : Finset (Fin n)}
    (hpath : ∀ m ∈ members, m ∈ path) : x.chain.clearOf members = true := by
  rw [Chain.clearOf, List.all_eq_true]
  intro r hr
  rw [decide_eq_true_eq]
  intro hc
  have : crossesPath path xs = true := by
    rw [crossesPath, List.any_eq_true]
    refine ⟨x, hx, List.any_eq_true.mpr ⟨r, ?_, by simpa using hpath _ hc⟩⟩
    exact List.mem_cons_of_mem _ hr
  rw [hcross] at this
  cases this

/-- What was remembered serves under every path that its suffixes do not cross. -/
theorem Entered.of_memo (hS : g.Digest S) {path : List (Fin n)} {memo : Memo n} {m : Fin n}
    (hm : (g.tags m).affinity = none) (habove : ∀ k ∈ path, g.Above k m)
    {cached : List (Suffix n)} (hmemo : g.MemoOK S memo) (hcached : memo.get m = some cached)
    (hcross : crossesPath path cached = false) :
    g.Entered S path m { found := cached, memo } := by
  refine ⟨hmemo, fun avoid hav => ?_⟩
  rw [Finset.insert_eq]
  refine hS.restrict hm (fun k hk => habove k (hav.onPath k hk)) (hmemo m cached hcached) ?_
  exact fun x hx => clearOf_of_crossesPath hcross hx hav.onPath

/-- What is found below a member when its body is explored. -/
theorem Entered.of_explored {path : List (Fin n)} {m : Fin n} {e : Exploration n}
    (hpath : m ∉ path) (h : g.Explored S (path ++ [m]) (g.sites m) e) :
    g.Entered S path m
      (if e.low.all (path.length ≤ ·) then { e with memo := e.memo.set m (some e.found) m.isLt }
       else e) := by
  have hright : ∀ avoid, StandsFor path e.low avoid →
      S e.found (g.paths (insert m avoid) (g.sites m)) :=
    fun avoid hav => h.right _ (hav.insert hpath)
  split
  · rename_i hlow
    exact ⟨h.memo.set (h.right {m} (StandsFor.singleton hlow)), hright⟩
  · exact ⟨h.memo, hright⟩

/-- **Entering a member is right under every path that leads to it and with every right
memory.**  The induction is on the members that are not on the path. -/
theorem enter_entered (hS : g.Digest S) :
    ∀ (k : Nat) (path : List (Fin n)), (offPath path).length = k →
      ∀ (memo : Memo n) (m : Fin n) (h : m ∉ path), (g.tags m).affinity = none →
        (∀ k ∈ path, g.Above k m) → g.MemoOK S memo →
        g.Entered S path m (g.enter path memo m h) := by
  intro k
  induction k using Nat.strong_induction_on with
  | _ k ih =>
    intro path hk memo m h hm habove hmemo
    rw [enter]
    cases hcached : memo[m].filter (! crossesPath path ·) with
    | some cached =>
        obtain ⟨hget, hcross⟩ := Option.filter_eq_some_iff.mp hcached
        exact Entered.of_memo hS hm habove hmemo hget (by simpa using hcross)
    | none =>
        have hlt : (offPath (path ++ [m])).length < k := hk ▸ length_offPath_append_lt h
        have habove' : ∀ k ∈ path ++ [m], g.Above k m := by
          intro k hk
          rcases List.mem_append.mp hk with hk | hk
          · exact habove k hk
          · rw [List.mem_singleton.mp hk]
            exact .refl
        refine Entered.of_explored h ?_
        exact explore_explored hS habove' (ih _ hlt _ rfl) _ [] _ rfl
          ⟨hmemo, fun _ _ => hS.nil⟩

/-- **What is found from a root is right for the paths that do not come back to it.** -/
theorem explore_root (hS : g.Digest S) (root : Fin n) :
    S (g.explore [root] (g.sites root) { memo := Vector.replicate n none }).found
      (g.paths {root} (g.sites root)) := by
  have habove : ∀ k ∈ [root], g.Above k root := by
    intro k hk
    rw [List.mem_singleton.mp hk]
    exact .refl
  have h : g.Explored S [root] (g.sites root)
      (g.explore [root] (g.sites root) { memo := Vector.replicate n none }) :=
    explore_explored hS habove (enter_entered hS _ _ rfl) _ [] _ rfl
      ⟨memoOK_replicate, fun _ _ => hS.nil⟩
  have hroot := h.right _ (StandsFor.toFinset [root] _)
  rwa [List.toFinset_cons, List.toFinset_nil, insert_empty_eq] at hroot

end CallGraph

end ThreadAffinity
