/-
Handing the body of a root to a dispatching member.

The whole body becomes the argument of one call, so that call comes first and stands
around all the others, outermost.  Below the root nothing changes: exploring a member finds
the same suffixes, call by call, whatever the numbers of the members are.  In the body of
the root the innermost dispatching call decides, so the new one counts for those calls
only that had no dispatching call around them.

The last call of a chain decides its tag and the first one whether the new dispatching
call counts for it.  So chains with the same ends either all become exempt or all stay as
they are, and collapsing them chooses as before wherever it matters.
-/
import Mathlib.Data.List.Forall2
import Mathlib.Logic.Embedding.Basic
import ThreadAffinity.Proofs.BoundaryChains

namespace ThreadAffinity

variable {n k : Nat}

/-! ### Calls under other numbers -/

section Carried

variable (place : Fin n ↪ Fin k) (root : Fin n)

/-- A call in a graph in which the members have other numbers and the body of `root` starts
with one more call. -/
def SiteId.carried (s : SiteId n) : SiteId k where
  owner := place s.owner
  index := if s.owner = root then s.index + 1 else s.index

/-- A chain of such calls. -/
def Chain.carried (c : Chain n) : Chain k where
  tag := c.tag
  first := c.first.carried place root
  rest := c.rest.map (SiteId.carried place root)

/-- A suffix of such calls. -/
def Suffix.carried (x : Suffix n) : Suffix k where
  chain := x.chain.carried place root
  exempt := x.exempt

/-- A violation of such calls. -/
def Violation.carried (v : Violation n) : Violation k where
  root := place v.root
  rootTag := v.rootTag
  chain := v.chain.carried place root

variable {place root}

theorem SiteId.carried_injective : Function.Injective (SiteId.carried place root) := by
  intro r s h
  have howner : r.owner = s.owner := place.injective (congrArg SiteId.owner h)
  have hindex : (if r.owner = root then r.index + 1 else r.index) =
      if s.owner = root then s.index + 1 else s.index := congrArg SiteId.index h
  rw [howner] at hindex
  refine SiteId.ext howner ?_
  split at hindex
  · exact Nat.succ.inj hindex
  · exact hindex

namespace Chain

@[simp] theorem sites_carried (c : Chain n) :
    (c.carried place root).sites = c.sites.map (SiteId.carried place root) := rfl

@[simp] theorem last_carried (c : Chain n) :
    (c.carried place root).last = c.last.carried place root := by
  have h := (c.carried place root).getLast?_sites
  rw [sites_carried, List.getLast?_map, getLast?_sites, Option.map_some] at h
  exact (Option.some.inj h).symm

theorem ends_carried (c : Chain n) :
    (c.carried place root).ends =
      c.ends.map (SiteId.carried place root) (SiteId.carried place root) := by
  rw [ends, last_carried]
  rfl

theorem ends_carried_eq_iff {c d : Chain n} :
    (c.carried place root).ends = (d.carried place root).ends ↔ c.ends = d.ends := by
  rw [ends_carried, ends_carried]
  exact (SiteId.carried_injective.prodMap SiteId.carried_injective).eq_iff

end Chain

namespace Suffix

theorem insert_carried (x : Suffix n) (found : List (Suffix n)) :
    (insert x found).map (carried place root) =
      insert (x.carried place root) (found.map (carried place root)) := by
  induction found with
  | nil => rfl
  | cons y ys ih =>
      have hiff : (y.carried place root).chain.ends = (x.carried place root).chain.ends ↔
          y.chain.ends = x.chain.ends := Chain.ends_carried_eq_iff
      rw [List.map_cons, insert, insert]
      by_cases hends : y.chain.ends = x.chain.ends
      · rw [if_pos hends, if_pos (hiff.mpr hends), List.map_cons]
        congr 1
        exact apply_ite (carried place root) _ x y
      · rw [if_neg hends, if_neg (hends ∘ hiff.mp), List.map_cons, ih]

theorem insertAll_carried (xs : List (Suffix n)) :
    ∀ found : List (Suffix n), (insertAll found xs).map (carried place root) =
      insertAll (found.map (carried place root)) (xs.map (carried place root)) := by
  induction xs with
  | nil => exact fun _ => rfl
  | cons x xs ih =>
      intro found
      rw [List.map_cons, insertAll_cons, insertAll_cons, ih, insert_carried]

end Suffix

theorem crossesPath_carried (path : List (Fin n)) (found : List (Suffix n)) :
    crossesPath (path.map place) (found.map (Suffix.carried place root)) =
      crossesPath path found := by
  unfold crossesPath
  rw [List.any_map]
  congr 1
  funext x
  show ((x.chain.sites.map (SiteId.carried place root)).any fun s => s.owner ∈ path.map place) = _
  rw [List.any_map]
  congr 1
  funext s
  exact decide_eq_decide.mpr (List.mem_map_of_injective place.injective)

theorem idxOf_map_place (path : List (Fin n)) (m : Fin n) :
    (path.map place).idxOf (place m) = path.idxOf m := by
  induction path with
  | nil => rfl
  | cons q path ih =>
      rw [List.map_cons]
      by_cases hq : q = m
      · rw [hq, List.idxOf_cons_self, List.idxOf_cons_self]
      · rw [List.idxOf_cons_ne _ hq, List.idxOf_cons_ne _ (hq ∘ (place.injective ·)), ih]

end Carried

/-! ### Members without calls -/

namespace CallGraph

section Leaf

variable {g : CallGraph n} {path : List (Fin n)} {memo : Memo n} {m : Fin n}

theorem sites_eq_nil (h : (g.members.get m).sites = []) : g.sites m = [] := by
  show (List.range (g.members.get m).sites.length).map _ = []
  rw [h]
  rfl

theorem enter_leaf (hm : m ∉ path) (hsites : g.sites m = []) (hnone : memo.get m = none) :
    g.enter path memo m hm = { memo := memo.set m (some []) m.isLt } := by
  have hcached : memo[m].filter (! crossesPath path ·) = none := by
    show (memo.get m).filter _ = none
    rw [hnone]
    rfl
  rw [enter, hcached, hsites]
  simp only [explore_nil]
  rfl

theorem enter_known_leaf (hm : m ∉ path) (hnil : memo.get m = some []) :
    g.enter path memo m hm = { memo } := by
  have hcached : memo[m].filter (! crossesPath path ·) = some [] := by
    show (memo.get m).filter _ = some []
    rw [hnil]
    rfl
  rw [enter, hcached]

end Leaf

end CallGraph

/-! ### The two graphs -/

/-- A site whose members have other numbers, with some calls more around it, outermost. -/
def Site.carried (place : Fin n ↪ Fin k) (outer : List (Fin k)) (x : Site n) : Site k where
  callee := x.callee.map place
  enclosing := x.enclosing.map place ++ outer

namespace CallGraph

/-- The second graph is the first one with other numbers, but the body of `root` is handed to
the member `handler`, which dispatches to the thread `t`. -/
structure Wraps (g : CallGraph n) (h : CallGraph k) (place : Fin n ↪ Fin k) (root : Fin n)
    (handler : Fin k) (t : Tag) : Prop where
  tags : ∀ m, h.tags (place m) = g.tags m
  others : ∀ m, m ≠ root →
    (h.members.get (place m)).sites = (g.members.get m).sites.map (Site.carried place [])
  body : (h.members.get (place root)).sites =
    { callee := some handler } :: (g.members.get root).sites.map (Site.carried place [handler])
  handlerTags : h.tags handler = { dispatch := some t }
  handlerBody : (h.members.get handler).sites = []

/-- Whether some call around a site calls a dispatching member. -/
def dispatched (g : CallGraph n) (s : SiteId n) : Bool :=
  (g.site? s).any fun x => x.enclosing.any fun m => (g.tags m).dispatch.isSome

theorem dispatch?_eq_none_iff {g : CallGraph n} {s : SiteId n} :
    g.dispatch? s = none ↔ g.dispatched s = false := by
  unfold dispatch? dispatched
  cases g.site? s with
  | none => exact iff_of_true rfl rfl
  | some x =>
      show x.enclosing.findSome? _ = none ↔ (x.enclosing.any _) = false
      rw [List.findSome?_eq_none_iff, List.any_eq_false]
      simp

namespace Wraps

variable {g : CallGraph n} {h : CallGraph k} {place : Fin n ↪ Fin k} {root : Fin n}
  {handler : Fin k} {t : Tag}

theorem site?_carried_of_ne (w : g.Wraps h place root handler t) {s : SiteId n}
    (hs : s.owner ≠ root) :
    h.site? (s.carried place root) = (g.site? s).map (Site.carried place []) := by
  show (h.members.get (place s.owner)).sites[if s.owner = root then s.index + 1 else s.index]? = _
  rw [if_neg hs, w.others _ hs, List.getElem?_map]
  rfl

theorem site?_carried_root (w : g.Wraps h place root handler t) {s : SiteId n}
    (hs : s.owner = root) :
    h.site? (s.carried place root) = (g.site? s).map (Site.carried place [handler]) := by
  show (h.members.get (place s.owner)).sites[if s.owner = root then s.index + 1 else s.index]? = _
  rw [if_pos hs, hs, w.body, List.getElem?_cons_succ, List.getElem?_map, ← hs]
  rfl

theorem callee?_carried (w : g.Wraps h place root handler t) (s : SiteId n) :
    h.callee? (s.carried place root) = (g.callee? s).map place := by
  have hsite : ∃ outer, h.site? (s.carried place root) =
      (g.site? s).map (Site.carried place outer) := by
    by_cases hs : s.owner = root
    · exact ⟨_, w.site?_carried_root hs⟩
    · exact ⟨_, w.site?_carried_of_ne hs⟩
  obtain ⟨outer, hsite⟩ := hsite
  unfold callee?
  rw [hsite]
  cases g.site? s with
  | none => rfl
  | some x => rfl

theorem sites_of_ne (w : g.Wraps h place root handler t) {m : Fin n} (hm : m ≠ root) :
    h.sites (place m) = (g.sites m).map (SiteId.carried place root) := by
  show (List.range (h.members.get (place m)).sites.length).map _ =
    ((List.range (g.members.get m).sites.length).map _).map _
  rw [w.others m hm, List.length_map, List.map_map]
  refine List.map_congr_left fun i _ => ?_
  exact SiteId.ext rfl (if_neg hm).symm

theorem sites_root (w : g.Wraps h place root handler t) :
    h.sites (place root) =
      { owner := place root, index := 0 } :: (g.sites root).map (SiteId.carried place root) := by
  show (List.range (h.members.get (place root)).sites.length).map _ =
    _ :: ((List.range (g.members.get root).sites.length).map _).map _
  rw [w.body, List.length_cons, List.length_map, List.range_succ_eq_map, List.map_cons,
    List.map_map, List.map_map]
  congr 1
  refine List.map_congr_left fun i _ => ?_
  exact SiteId.ext rfl (if_pos rfl).symm

theorem dispatch?_carried_of_ne (w : g.Wraps h place root handler t) {s : SiteId n}
    (hs : s.owner ≠ root) : h.dispatch? (s.carried place root) = g.dispatch? s := by
  unfold dispatch?
  rw [w.site?_carried_of_ne hs]
  cases g.site? s with
  | none => rfl
  | some x =>
      show ((x.enclosing.map place) ++ []).findSome? _ = x.enclosing.findSome? _
      rw [List.append_nil, List.findSome?_map]
      congr 1
      funext m
      exact congrArg Tags.dispatch (w.tags m)

theorem dispatch?_carried_root (w : g.Wraps h place root handler t) {s : SiteId n}
    (hs : s ∈ g.sites root) :
    h.dispatch? (s.carried place root) = (g.dispatch? s).or (some t) := by
  obtain ⟨howner, hindex⟩ := g.mem_sites.mp hs
  have hsite : (g.site? s).isSome := by
    show ((g.members.get s.owner).sites[s.index]?).isSome
    rw [howner, isSome_getElem?]
    exact hindex
  obtain ⟨x, hx⟩ := Option.isSome_iff_exists.mp hsite
  unfold dispatch?
  rw [w.site?_carried_root howner, hx]
  show ((x.enclosing.map place) ++ [handler]).findSome? _ = (x.enclosing.findSome? _).or _
  rw [List.findSome?_append, List.findSome?_map]
  congr 1
  · congr 1
    funext m
    exact congrArg Tags.dispatch (w.tags m)
  · rw [List.findSome?_singleton, w.handlerTags]

theorem handsTo_carried_root (w : g.Wraps h place root handler t) {s : SiteId n}
    (hs : s ∈ g.sites root) (u : Tag) :
    h.handsTo (s.carried place root) u = (g.handsTo s u || (u == t && ! g.dispatched s)) := by
  unfold handsTo
  rw [w.dispatch?_carried_root hs]
  cases hd : g.dispatch? s with
  | none =>
      rw [dispatch?_eq_none_iff.mp hd]
      simp [Bool.beq_comm, beq_eq_decide]
  | some v =>
      have : g.dispatched s = true := by
        by_contra hnot
        rw [dispatch?_eq_none_iff.mpr (by simpa using hnot)] at hd
        cases hd
      simp [this]

/-! ### Below the root -/

variable (place root handler) in
/-- What is remembered in the two graphs is the same, except that in the second one the
handler is known to lead nowhere. -/
structure Recalls (memo : Memo n) (memo' : Memo k) : Prop where
  others : ∀ m, place m ≠ handler →
    memo'.get (place m) = (memo.get m).map (List.map (Suffix.carried place root))
  known : memo'.get handler = some []
  idle : ∀ m, place m = handler → memo.get m = none ∨ memo.get m = some []

variable (place root handler) in
/-- What was explored in the two graphs is the same. -/
structure Follows (e : Exploration n) (f : Exploration k) : Prop where
  found : f.found = e.found.map (Suffix.carried place root)
  low : f.low = e.low
  memo : Recalls place root handler e.memo f.memo

/-- At first nothing is remembered but the handler. -/
theorem recalls_replicate :
    Recalls place root handler (Vector.replicate n none)
      ((Vector.replicate k none : Memo k).set handler (some []) handler.isLt) := by
  refine ⟨?_, ?_, fun m _ => Or.inl (Memo.get_replicate m)⟩
  · intro m hm
    rw [Memo.get_set, if_neg (Ne.symm hm), Memo.get_replicate, Memo.get_replicate, Option.map_none]
  · rw [Memo.get_set, if_pos rfl]

theorem Recalls.set {memo : Memo n} {memo' : Memo k} (hmemo : Recalls place root handler memo memo')
    {m : Fin n} (hm : place m ≠ handler) (xs : List (Suffix n)) :
    Recalls place root handler (memo.set m (some xs) m.isLt)
      (memo'.set (place m) (some (xs.map (Suffix.carried place root))) (place m).isLt) := by
  refine ⟨?_, ?_, ?_⟩
  · intro j hj
    rw [Memo.get_set, Memo.get_set]
    by_cases hmj : m = j
    · rw [if_pos hmj, if_pos (congrArg place hmj), Option.map_some]
    · rw [if_neg hmj, if_neg (hmj ∘ (place.injective ·))]
      exact hmemo.others j hj
  · rw [Memo.get_set, if_neg hm]
    exact hmemo.known
  · intro j hj
    have hmj : m ≠ j := by
      rintro rfl
      exact hm hj
    rw [Memo.get_set, if_neg hmj]
    exact hmemo.idle j hj

/-- What was found is remembered in both graphs or in none. -/
theorem Follows.remember {e : Exploration n} {f : Exploration k}
    (hef : Follows place root handler e f) {m : Fin n} (hm : place m ≠ handler) (depth : Nat) :
    Follows place root handler
      (if e.low.all (depth ≤ ·) then { e with memo := e.memo.set m (some e.found) m.isLt } else e)
      (if f.low.all (depth ≤ ·) then
        { f with memo := f.memo.set (place m) (some f.found) (place m).isLt } else f) := by
  rw [hef.low]
  split
  · refine ⟨hef.found, rfl, ?_⟩
    show Recalls place root handler _ (f.memo.set (place m) (some f.found) (place m).isLt)
    rw [hef.found]
    exact hef.memo.set hm e.found
  · exact hef

/-- In the first graph the handler may still have to be entered. -/
theorem Recalls.set_handler {memo : Memo n} {memo' : Memo k}
    (hmemo : Recalls place root handler memo memo') {m : Fin n} (hm : place m = handler) :
    Recalls place root handler (memo.set m (some []) m.isLt) memo' := by
  refine ⟨?_, hmemo.known, ?_⟩
  · intro j hj
    have hmj : m ≠ j := by
      rintro rfl
      exact hj hm
    rw [Memo.get_set, if_neg hmj]
    exact hmemo.others j hj
  · intro j hj
    rw [Memo.get_set]
    by_cases hmj : m = j
    · exact Or.inr (if_pos hmj)
    · rw [if_neg hmj]
      exact hmemo.idle j hj

section Calls

variable (w : g.Wraps h place root handler t)

include w

theorem handsTo_carried_of_ne {s : SiteId n} (hs : s.owner ≠ root) (u : Tag) :
    h.handsTo (s.carried place root) u = g.handsTo s u := by
  unfold handsTo
  rw [w.dispatch?_carried_of_ne hs]

theorem single_carried {s : SiteId n} (hs : s.owner ≠ root) (u : Tag) :
    (Suffix.single g s u).carried place root = Suffix.single h (s.carried place root) u := by
  unfold Suffix.single
  rw [w.handsTo_carried_of_ne hs]
  rfl

theorem map_cons_carried {s : SiteId n} (hs : s.owner ≠ root) (xs : List (Suffix n)) :
    (xs.map (Suffix.cons g s)).map (Suffix.carried place root) =
      (xs.map (Suffix.carried place root)).map (Suffix.cons h (s.carried place root)) := by
  rw [List.map_map, List.map_map]
  refine List.map_congr_left fun x _ => ?_
  show (Suffix.cons g s x).carried place root =
    Suffix.cons h (s.carried place root) (x.carried place root)
  unfold Suffix.cons
  rw [w.handsTo_carried_of_ne hs]
  rfl

/-- What holds between the two explorations after some calls if every single call keeps it up. -/
theorem explore_steps {path : List (Fin n)} {R : Exploration n → Exploration k → Prop} :
    ∀ {sites : List (SiteId n)},
      (∀ s ∈ sites, ∀ u e f, g.tagAt? s = some u → R e f →
        R { e with found := (Suffix.single g s u).insert e.found }
          { f with found := (Suffix.single h (s.carried place root) u).insert f.found }) →
      (∀ m ∈ path, ∀ e f, (g.tags m).affinity = none → R e f →
        R { e with low := minDepth e.low (some (path.idxOf m)) }
          { f with low := minDepth f.low (some (path.idxOf m)) }) →
      (∀ s ∈ sites, ∀ m e f (hm : m ∉ path) (hm' : place m ∉ path.map place),
        g.callee? s = some m → (g.tags m).affinity = none → R e f →
        R { found := Suffix.insertAll e.found
              ((g.enter path e.memo m hm).found.map (Suffix.cons g s))
            low := minDepth e.low (g.enter path e.memo m hm).low
            memo := (g.enter path e.memo m hm).memo }
          { found := Suffix.insertAll f.found
              ((h.enter (path.map place) f.memo (place m) hm').found.map
                (Suffix.cons h (s.carried place root)))
            low := minDepth f.low (h.enter (path.map place) f.memo (place m) hm').low
            memo := (h.enter (path.map place) f.memo (place m) hm').memo }) →
      ∀ {e f}, R e f →
        R (g.explore path sites e)
          (h.explore (path.map place) (sites.map (SiteId.carried place root)) f) := by
  intro sites
  induction sites with
  | nil =>
      intro _ _ _ e f hef
      rw [List.map_nil, explore_nil, explore_nil]
      exact hef
  | cons s sites ih =>
      intro htagged hstopped hentered e f hef
      have ih : ∀ {e f}, R e f → R (g.explore path sites e)
          (h.explore (path.map place) (sites.map (SiteId.carried place root)) f) :=
        ih (fun r hr => htagged r (List.mem_cons_of_mem s hr)) hstopped
          fun r hr => hentered r (List.mem_cons_of_mem s hr)
      have hcallee := w.callee?_carried s
      rw [List.map_cons]
      cases hc : g.callee? s with
      | none =>
          rw [hc, Option.map_none] at hcallee
          rw [explore_unknown hc, explore_unknown hcallee]
          exact ih hef
      | some m =>
          rw [hc, Option.map_some] at hcallee
          have htags := w.tags m
          cases hm : (g.tags m).affinity with
          | some u =>
              have htag : g.tagAt? s = some u := by rw [tagAt?, hc, Option.bind_some, hm]
              rw [explore_tagged hc hm, explore_tagged hcallee (htags ▸ hm)]
              exact ih (htagged s List.mem_cons_self u e f htag hef)
          | none =>
              have hmem : place m ∈ path.map place ↔ m ∈ path :=
                List.mem_map_of_injective place.injective
              by_cases hpath : m ∈ path
              · rw [explore_stopped hc hm hpath,
                  explore_stopped hcallee (htags ▸ hm) (hmem.mpr hpath), idxOf_map_place]
                exact ih (hstopped m hpath e f hm hef)
              · have hpath' : place m ∉ path.map place := hpath ∘ hmem.mp
                rw [explore_entered hc hm hpath, explore_entered hcallee (htags ▸ hm) hpath']
                exact ih (hentered s List.mem_cons_self m e f hpath hpath' hc hm hef)

/-- Exploring calls below the root, if entering a member finds the same. -/
theorem explore_follows {path : List (Fin n)}
    (henter : ∀ (memo : Memo n) (memo' : Memo k) (m : Fin n) (hm : m ∉ path)
      (hm' : place m ∉ path.map place), (g.tags m).affinity = none →
      Recalls place root handler memo memo' →
      Follows place root handler (g.enter path memo m hm)
        (h.enter (path.map place) memo' (place m) hm'))
    {sites : List (SiteId n)} {e : Exploration n} {f : Exploration k}
    (howners : ∀ s ∈ sites, s.owner ≠ root) (hef : Follows place root handler e f) :
    Follows place root handler (g.explore path sites e)
      (h.explore (path.map place) (sites.map (SiteId.carried place root)) f) := by
  refine w.explore_steps ?_ ?_ ?_ hef
  · intro s hs u e f _ hef
    refine ⟨?_, hef.low, hef.memo⟩
    rw [Suffix.insert_carried, w.single_carried (howners s hs), hef.found]
  · intro m _ e f _ hef
    exact ⟨hef.found, by rw [hef.low], hef.memo⟩
  · intro s hs m e f hm hm' _ htag hef
    have hbelow := henter e.memo f.memo m hm hm' htag hef.memo
    refine ⟨?_, by rw [hef.low, hbelow.low], hbelow.memo⟩
    rw [Suffix.insertAll_carried, w.map_cons_carried (howners s hs), hef.found, hbelow.found]

/-- The handler leads nowhere, whether or not it has been entered before. -/
theorem enter_handler {path : List (Fin n)} {memo : Memo n} {memo' : Memo k} {m : Fin n}
    (hm : m ∉ path) (hm' : place m ∉ path.map place) (hroot : m ≠ root)
    (hhandler : place m = handler) (hmemo : Recalls place root handler memo memo') :
    Follows place root handler (g.enter path memo m hm)
      (h.enter (path.map place) memo' (place m) hm') := by
  have hsites : g.sites m = [] := by
    have hnone : h.sites (place m) = [] := sites_eq_nil (by rw [hhandler, w.handlerBody])
    rw [w.sites_of_ne hroot] at hnone
    exact List.map_eq_nil_iff.mp hnone
  rw [enter_known_leaf hm' (by rw [hhandler, hmemo.known])]
  rcases hmemo.idle m hhandler with hnone | hnil
  · rw [enter_leaf hm hsites hnone]
    exact ⟨rfl, rfl, hmemo.set_handler hhandler⟩
  · rw [enter_known_leaf hm hnil]
    exact ⟨rfl, rfl, hmemo⟩

/-- **Entering a member finds the same in both graphs.**  The induction is on the members that
are not on the path. -/
theorem enter_follows (hroot : (g.tags root).affinity ≠ none) :
    ∀ (j : Nat) (path : List (Fin n)), (offPath path).length = j →
      ∀ (memo : Memo n) (memo' : Memo k) (m : Fin n) (hm : m ∉ path)
        (hm' : place m ∉ path.map place), (g.tags m).affinity = none →
        Recalls place root handler memo memo' →
        Follows place root handler (g.enter path memo m hm)
          (h.enter (path.map place) memo' (place m) hm') := by
  intro j
  induction j using Nat.strong_induction_on with
  | _ j ih =>
    intro path hj memo memo' m hm hm' htag hmemo
    have hne : m ≠ root := by
      rintro rfl
      exact hroot htag
    by_cases hhandler : place m = handler
    · exact w.enter_handler hm hm' hne hhandler hmemo
    · have hget : memo'[place m].filter (! crossesPath (path.map place) ·) =
          (memo[m].filter (! crossesPath path ·)).map (List.map (Suffix.carried place root)) := by
        show (memo'.get (place m)).filter _ = ((memo.get m).filter _).map _
        rw [hmemo.others m hhandler]
        cases memo.get m with
        | none => rfl
        | some xs =>
            simp only [Option.map_some, Option.filter_some, crossesPath_carried]
            split <;> rfl
      rw [enter, enter, hget]
      cases hcached : memo[m].filter (! crossesPath path ·) with
      | some cached =>
          exact ⟨rfl, rfl, hmemo⟩
      | none =>
          have hlt : (offPath (path ++ [m])).length < j := hj ▸ length_offPath_append_lt hm
          have howners : ∀ s ∈ g.sites m, s.owner ≠ root := by
            intro s hs
            rw [(g.mem_sites.mp hs).1]
            exact hne
          have hstart : Follows place root handler { memo } { memo := memo' } := ⟨rfl, rfl, hmemo⟩
          have hbody := w.explore_follows (ih _ hlt (path ++ [m]) rfl) howners hstart
          rw [List.map_append, List.map_singleton, ← w.sites_of_ne hne] at hbody
          simp only [Option.map_none, List.length_map]
          exact hbody.remember hhandler path.length

end Calls

/-! ### In the body of the root -/

variable (g t) in
/-- The chains with the given first and last call become exempt: they lead to the thread of
the handler, and in the body no dispatching call stands around the first call. -/
def Caught (e : SiteId n × SiteId n) : Prop :=
  g.tagAt? e.2 = some t ∧ g.dispatched e.1 = false

variable (g t place root) in
/-- What stands for chains with the same ends in the two graphs. -/
structure Matches (x : Suffix n) (y : Suffix k) : Prop where
  ends : y.chain.ends = (x.chain.carried place root).ends
  caught : Caught g t x.chain.ends → y.exempt = true
  kept : ¬ Caught g t x.chain.ends → y = x.carried place root

/-- Of chains that become exempt it does not matter which one is kept. -/
theorem Matches.of_ends {x x' : Suffix n} {y : Suffix k} (hxy : Matches g place root t x y)
    (hends : x'.chain.ends = x.chain.ends) (hcaught : Caught g t x.chain.ends) :
    Matches g place root t x' y := by
  refine ⟨?_, fun _ => hxy.caught hcaught, fun h => ?_⟩
  · rw [hxy.ends, Chain.ends_carried_eq_iff, hends]
  · rw [hends] at h
    exact absurd hcaught h

theorem Matches.insert {x : Suffix n} {y : Suffix k} (hxy : Matches g place root t x y)
    {xs : List (Suffix n)} {ys : List (Suffix k)}
    (hall : List.Forall₂ (Matches g place root t) xs ys) :
    List.Forall₂ (Matches g place root t) (x.insert xs) (y.insert ys) := by
  induction hall with
  | nil => exact .cons hxy .nil
  | @cons a b xs ys hab hall ih =>
      have hiff : b.chain.ends = y.chain.ends ↔ a.chain.ends = x.chain.ends := by
        rw [hab.ends, hxy.ends, Chain.ends_carried_eq_iff]
      rw [Suffix.insert, Suffix.insert]
      by_cases hends : a.chain.ends = x.chain.ends
      · rw [if_pos hends, if_pos (hiff.mpr hends)]
        refine .cons ?_ hall
        by_cases hcaught : Caught g t x.chain.ends
        · -- Both are exempt in the second graph, so the one that was there stays.
          rw [hxy.caught hcaught, Bool.not_true, Bool.and_false, if_neg Bool.false_ne_true]
          refine hab.of_ends ?_ (hends ▸ hcaught)
          split
          · exact hends.symm
          · rfl
        · have hy : y.exempt = x.exempt := by
            rw [hxy.kept hcaught]
            rfl
          have hb : b.exempt = a.exempt := by
            rw [hab.kept (hends ▸ hcaught)]
            rfl
          rw [hy, hb]
          split
          · exact hxy
          · exact hab
      · rw [if_neg hends, if_neg (hends ∘ hiff.mp)]
        exact .cons hab ih

theorem Matches.insertAll {more : List (Suffix n)} {more' : List (Suffix k)}
    (hmore : List.Forall₂ (Matches g place root t) more more') :
    ∀ {xs : List (Suffix n)} {ys : List (Suffix k)},
      List.Forall₂ (Matches g place root t) xs ys →
      List.Forall₂ (Matches g place root t) (Suffix.insertAll xs more)
        (Suffix.insertAll ys more') := by
  induction hmore with
  | nil => exact fun hall => hall
  | cons hxy _ ih =>
      intro xs ys hall
      rw [Suffix.insertAll_cons, Suffix.insertAll_cons]
      exact ih (hxy.insert hall)

/-- What is reported of chains that match: in the second graph those are missing that became
exempt. -/
theorem Matches.filter_eq {xs : List (Suffix n)} {ys : List (Suffix k)}
    (hall : List.Forall₂ (Matches g place root t) xs ys)
    (htag : ∀ x ∈ xs, g.tagAt? x.chain.last = some x.chain.tag) (rootTag : Tag) :
    (ys.filter fun y => y.chain.tag ≠ rootTag && ! y.exempt) =
      ((xs.filter fun x => x.chain.tag ≠ rootTag && ! x.exempt).filter
        fun x => x.chain.tag ≠ t || g.dispatched x.chain.first).map
          (Suffix.carried place root) := by
  induction hall with
  | nil => rfl
  | @cons x y xs ys hxy hall ih =>
      have ih := ih fun z hz => htag z (List.mem_cons_of_mem x hz)
      have hcaught : Caught g t x.chain.ends ↔
          (decide (x.chain.tag ≠ t) || g.dispatched x.chain.first) = false := by
        show g.tagAt? x.chain.last = some t ∧ g.dispatched x.chain.first = false ↔ _
        rw [htag x List.mem_cons_self]
        simp
      rw [List.filter_filter] at ih ⊢
      rw [List.filter_cons, List.filter_cons, ih]
      by_cases h : Caught g t x.chain.ends
      · rw [hxy.caught h, hcaught.mp h]
        simp
      · rw [hcaught, Bool.not_eq_false] at h
        rw [hxy.kept (by rw [hcaught, h]; exact Bool.true_eq_false.mp), h, Bool.true_and]
        show (if (decide (x.chain.tag ≠ rootTag) && ! x.exempt) = true then _ else _) = _
        split <;> rfl

variable (g t place root handler) in
/-- What was explored of the root's body in the two graphs. -/
structure RootFollows (e : Exploration n) (f : Exploration k) : Prop where
  right : g.MemoOK g.Summary e.memo
  found : List.Forall₂ (Matches g place root t) e.found f.found
  memo : Recalls place root handler e.memo f.memo

section Root

variable (w : g.Wraps h place root handler t)

include w

theorem handsTo_of_caught {s : SiteId n} (hs : s ∈ g.sites root) {u : Tag} {b : SiteId n}
    (hb : g.tagAt? b = some u) :
    (Caught g t (s, b) → h.handsTo (s.carried place root) u = true) ∧
      (¬ Caught g t (s, b) → h.handsTo (s.carried place root) u = g.handsTo s u) := by
  rw [w.handsTo_carried_root hs]
  have hcaught : Caught g t (s, b) ↔ (u == t && ! g.dispatched s) = true := by
    unfold Caught
    rw [hb, Option.some.injEq, Bool.and_eq_true, beq_iff_eq, Bool.not_eq_true']
  rw [hcaught]
  refine ⟨fun h => ?_, fun h => ?_⟩
  · rw [h, Bool.or_true]
  · rw [Bool.not_eq_true] at h
    rw [h, Bool.or_false]

theorem matches_single {s : SiteId n} (hs : s ∈ g.sites root) {u : Tag}
    (htag : g.tagAt? s = some u) :
    Matches g place root t (Suffix.single g s u) (Suffix.single h (s.carried place root) u) := by
  obtain ⟨hcaught, hkept⟩ := w.handsTo_of_caught hs htag
  refine ⟨rfl, hcaught, fun hnot => ?_⟩
  unfold Suffix.single
  rw [hkept hnot]
  rfl

theorem matches_cons {s : SiteId n} (hs : s ∈ g.sites root) {x : Suffix n}
    (htag : g.tagAt? x.chain.last = some x.chain.tag) :
    Matches g place root t (Suffix.cons g s x)
      (Suffix.cons h (s.carried place root) (x.carried place root)) := by
  obtain ⟨hcaught, hkept⟩ := w.handsTo_of_caught hs htag
  have hends : (Suffix.cons g s x).chain.ends = (s, x.chain.last) := Chain.ends_cons s x.chain
  refine ⟨rfl, ?_, ?_⟩
  · intro h
    rw [hends] at h
    show (x.exempt || _) = true
    rw [Bool.or_eq_true]
    exact Or.inr (hcaught h)
  · intro hnot
    rw [hends] at hnot
    unfold Suffix.cons
    show { chain := _, exempt := x.exempt || h.handsTo _ x.chain.tag : Suffix k } = _
    rw [hkept hnot]
    rfl

/-- A call of the root's body enters a member. -/
theorem RootFollows.enter (hroot : (g.tags root).affinity ≠ none) {e : Exploration n}
    {f : Exploration k} (hef : RootFollows g place root handler t e f) {s : SiteId n}
    (hs : s ∈ g.sites root) {m : Fin n} (hc : g.callee? s = some m)
    (hm : (g.tags m).affinity = none) (hpath : m ∉ [root]) (hpath' : place m ∉ [place root]) :
    RootFollows g place root handler t
      { found := Suffix.insertAll e.found
          ((g.enter [root] e.memo m hpath).found.map (Suffix.cons g s))
        low := minDepth e.low (g.enter [root] e.memo m hpath).low
        memo := (g.enter [root] e.memo m hpath).memo }
      { found := Suffix.insertAll f.found
          ((h.enter [place root] f.memo (place m) hpath').found.map
            (Suffix.cons h (s.carried place root)))
        low := minDepth f.low (h.enter [place root] f.memo (place m) hpath').low
        memo := (h.enter [place root] f.memo (place m) hpath').memo } := by
  have hfollows : Follows place root handler (g.enter [root] e.memo m hpath)
      (h.enter [place root] f.memo (place m) hpath') :=
    w.enter_follows hroot _ [root] rfl e.memo f.memo m hpath hpath' hm hef.memo
  have habove : ∀ q ∈ [root], g.Above q m := by
    intro q hq
    rw [List.mem_singleton.mp hq]
    exact .single ⟨hm, s, hs, hc⟩
  have hentered := enter_entered g.summary_digest _ [root] rfl e.memo m hpath hm habove hef.right
  refine ⟨hentered.memo, Matches.insertAll ?_ hef.found, hfollows.memo⟩
  rw [hfollows.found, List.map_map, List.forall₂_map_left_iff, List.forall₂_map_right_iff,
    List.forall₂_same]
  intro x hx
  have hpaths := (hentered.right _ (StandsFor.toFinset _ _)).kept x hx
  exact w.matches_cons hs (leads_of_mem_paths hpaths).tagAt?_last

/-- Exploring calls of the root's body. -/
theorem explore_rootFollows (hroot : (g.tags root).affinity ≠ none) {sites : List (SiteId n)}
    (hsites : ∀ s ∈ sites, s ∈ g.sites root) {e : Exploration n} {f : Exploration k}
    (hef : RootFollows g place root handler t e f) :
    RootFollows g place root handler t (g.explore [root] sites e)
      (h.explore [place root] (sites.map (SiteId.carried place root)) f) := by
  refine w.explore_steps ?_ ?_ ?_ hef
  · intro s hs u e f htag hef
    exact ⟨hef.right, (w.matches_single (hsites s hs) htag).insert hef.found, hef.memo⟩
  · intro m _ e f _ hef
    exact ⟨hef.right, hef.found, hef.memo⟩
  · intro s hs m e f hm hm' hc htag hef
    exact hef.enter w hroot (hsites s hs) hc htag hm hm'

/-- What is found from the root in the two graphs. -/
theorem explore_root_matches (hroot : (g.tags root).affinity ≠ none) :
    List.Forall₂ (Matches g place root t)
      (g.explore [root] (g.sites root) { memo := Vector.replicate n none }).found
      (h.explore [place root] (h.sites (place root))
        { memo := Vector.replicate k none }).found := by
  have hcallee : h.callee? { owner := place root, index := 0 } = some handler := by
    show ((h.members.get (place root)).sites[0]?).bind _ = _
    rw [w.body]
    rfl
  have htag : (h.tags handler).affinity = none := congrArg Tags.affinity w.handlerTags
  have hpath : handler ∉ [place root] := by
    intro hmem
    rw [List.mem_singleton.mp hmem, w.tags] at htag
    exact hroot htag
  rw [w.sites_root, explore_entered hcallee htag hpath,
    enter_leaf hpath (sites_eq_nil w.handlerBody) (Memo.get_replicate handler)]
  have hstart : RootFollows g place root handler t { memo := Vector.replicate n none }
      { memo := (Vector.replicate k none : Memo k).set handler (some []) handler.isLt } :=
    ⟨memoOK_replicate, .nil, recalls_replicate⟩
  exact (w.explore_rootFollows hroot (fun _ hs => hs) hstart).found

end Root

end Wraps

/-! ### The violations -/

theorem violations_eq_found (g : CallGraph n) {root : Fin n} {rootTag : Tag}
    (hroot : (g.tags root).affinity = some rootTag) :
    g.violations root =
      ((g.explore [root] (g.sites root) { memo := Vector.replicate n none }).found.filter
        fun x => x.chain.tag ≠ rootTag && ! x.exempt).map
          fun x => { root, rootTag, chain := x.chain } := by
  have hflagged := (explore_root g.summary_digest root).flagged
  unfold violations boundaryChains
  rw [hroot]
  simp only [List.filter_map, List.map_map, List.filter_filter]
  congr 1
  refine List.filter_congr fun x hx => ?_
  show (! g.exempts x.chain.tag x.chain.sites && decide (x.chain.tag ≠ rootTag)) = _
  rw [hflagged x hx, Bool.and_comm]

/-- **The violations of a root whose body is handed over.** -/
theorem Wraps.violations_eq {g : CallGraph n} {h : CallGraph k} {place : Fin n ↪ Fin k}
    {root : Fin n} {handler : Fin k} {t : Tag} (w : g.Wraps h place root handler t) :
    h.violations (place root) =
      ((g.violations root).filter fun v => v.chain.tag ≠ t || g.dispatched v.chain.first).map
        (Violation.carried place root) := by
  cases hroot : (g.tags root).affinity with
  | none =>
      unfold violations
      rw [w.tags, hroot]
      rfl
  | some rootTag =>
      have hroot' : (h.tags (place root)).affinity = some rootTag := by rw [w.tags, hroot]
      have hmatches := w.explore_root_matches (by rw [hroot]; exact Option.some_ne_none rootTag)
      have htag : ∀ x ∈ (g.explore [root] (g.sites root) { memo := Vector.replicate n none }).found,
          g.tagAt? x.chain.last = some x.chain.tag := fun x hx =>
        (leads_of_mem_paths ((explore_root g.summary_digest root).kept x hx)).tagAt?_last
      rw [violations_eq_found g hroot, violations_eq_found h hroot',
        Wraps.Matches.filter_eq hmatches htag, List.filter_map, List.map_map, List.map_map]
      rfl

end CallGraph

end ThreadAffinity
