/-
What collapsing keeps of a list of paths.

An exploration holds one suffix for each pair of a first and a last call, although many
paths may share the pair.  `Represents` says what such a list still tells about all the
paths: every suffix is one of them, every pair is there, and for each pair the first
unexempted suffix is the first unexempted path.

The last point is the one that has to survive another call in front.  Then only the last
calls still tell pairs apart, so suffixes with different first calls fall together, and
which of them is met first depends on the order of the list.  Suffixes keep the place of
the path they were found with, not that of the path that replaced it; what saves the
first unexempted path is that all paths with one first call stand together, in the list
of paths as well as in the collapsed one.
-/
import Mathlib.Data.List.Find
import ThreadAffinity.Proofs.Distinct
import ThreadAffinity.Proofs.Paths

namespace ThreadAffinity

variable {n : Nat}

namespace Suffix

/-- Whether a suffix has the given ends and is not exempt. -/
def freeAt (e : SiteId n × SiteId n) (x : Suffix n) : Bool :=
  x.chain.ends = e && ! x.exempt

/-! ### Adding a suffix -/

theorem mem_of_mem_insert {x y : Suffix n} :
    ∀ {found : List (Suffix n)}, y ∈ insert x found → y ∈ found ∨ y = x := by
  intro found
  induction found with
  | nil => intro h; exact Or.inr (by simpa [insert] using h)
  | cons z found ih =>
      intro h
      rw [insert] at h
      split at h
      · rcases List.mem_cons.mp h with rfl | h
        · split
          · exact Or.inr rfl
          · exact Or.inl List.mem_cons_self
        · exact Or.inl (List.mem_cons_of_mem _ h)
      · rcases List.mem_cons.mp h with rfl | h
        · exact Or.inl List.mem_cons_self
        · exact (ih h).imp_left (List.mem_cons_of_mem _)

/-- A pair of ends that is there already keeps its place, a new one comes last. -/
theorem ends_insert (x : Suffix n) (found : List (Suffix n)) :
    (insert x found).map (·.chain.ends) =
      if x.chain.ends ∈ found.map (·.chain.ends) then found.map (·.chain.ends)
      else found.map (·.chain.ends) ++ [x.chain.ends] := by
  induction found with
  | nil => simp [insert]
  | cons y found ih =>
      by_cases hy : y.chain.ends = x.chain.ends
      · have hkept : (if y.exempt && ! x.exempt then x else y).chain.ends = y.chain.ends := by
          split
          · exact hy.symm
          · rfl
        rw [insert, if_pos hy, List.map_cons, hkept, List.map_cons, hy,
          if_pos List.mem_cons_self]
      · rw [insert, if_neg hy, List.map_cons, ih, List.map_cons]
        by_cases hx : x.chain.ends ∈ found.map (·.chain.ends)
        · rw [if_pos hx, if_pos (List.mem_cons_of_mem _ hx)]
        · rw [if_neg hx, if_neg (by simp [hx, Ne.symm hy])]
          rfl

theorem nodup_ends_insert (x : Suffix n) {found : List (Suffix n)}
    (h : (found.map (·.chain.ends)).Nodup) : ((insert x found).map (·.chain.ends)).Nodup := by
  rw [ends_insert]
  split
  · exact h
  · rename_i hx
    exact List.nodup_append.mpr ⟨h, List.nodup_singleton _, by
      intro a ha b hb hab
      rw [List.mem_singleton.mp hb] at hab
      exact hx (hab ▸ ha)⟩

/-- The first unexempted suffix with given ends is found as if the new one came last. -/
theorem find?_insert (x : Suffix n) (e : SiteId n × SiteId n) :
    ∀ {found : List (Suffix n)}, (found.map (·.chain.ends)).Nodup →
      (insert x found).find? (freeAt e) = (found ++ [x]).find? (freeAt e) := by
  intro found
  induction found with
  | nil => intro _; rfl
  | cons y found ih =>
      intro hnd
      rw [List.map_cons, List.nodup_cons] at hnd
      by_cases hy : y.chain.ends = x.chain.ends
      · rw [insert, if_pos hy]
        -- No other suffix has these ends, so between `y` and `x` nothing is found for them.
        have hnone : x.chain.ends = e → found.find? (freeAt e) = none := by
          intro he
          rw [List.find?_eq_none]
          intro z hz hfree
          have hze : z.chain.ends = e := by
            simp only [freeAt, Bool.and_eq_true, decide_eq_true_eq] at hfree
            exact hfree.1
          exact hnd.1 (List.mem_map.mpr ⟨z, hz, by rw [hze, hy, he]⟩)
        by_cases he : x.chain.ends = e
        · cases hye : y.exempt <;> cases hxe : x.exempt <;>
            simp [freeAt, hy, he, hye, hxe, hnone he]
        · cases hye : y.exempt <;> cases hxe : x.exempt <;>
            simp [freeAt, hy, he]
      · rw [insert, if_neg hy, List.cons_append, List.find?_cons, List.find?_cons, ih hnd.2]

/-! ### Adding several -/

theorem insertAll_cons (found : List (Suffix n)) (x : Suffix n) (xs : List (Suffix n)) :
    insertAll found (x :: xs) = insertAll (insert x found) xs := rfl

theorem mem_of_mem_insertAll {y : Suffix n} :
    ∀ {xs found : List (Suffix n)}, y ∈ insertAll found xs → y ∈ found ∨ y ∈ xs := by
  intro xs
  induction xs with
  | nil => intro found h; exact Or.inl h
  | cons x xs ih =>
      intro found h
      rcases ih h with h | h
      · rcases mem_of_mem_insert h with h | rfl
        · exact Or.inl h
        · exact Or.inr List.mem_cons_self
      · exact Or.inr (List.mem_cons_of_mem _ h)

/-- Collapsing drops ends that are there already and moves none. -/
theorem ends_insertAll :
    ∀ (xs : List (Suffix n)) {found : List (Suffix n)}, (found.map (·.chain.ends)).Nodup →
      (insertAll found xs).map (·.chain.ends) =
        distinctBy id ((found ++ xs).map (·.chain.ends)) := by
  intro xs
  induction xs with
  | nil =>
      intro found h
      rw [List.append_nil, distinctBy_eq_self (by rwa [List.map_id])]
      rfl
  | cons x xs ih =>
      intro found h
      have hinsert : (insert x found).map (·.chain.ends) =
          distinctBy id (found.map (·.chain.ends) ++ [x.chain.ends]) := by
        rw [ends_insert, distinctBy_concat, List.map_id, distinctBy_eq_self (by rwa [List.map_id])]
        split
        · rename_i hx
          rw [if_pos (show id x.chain.ends ∈ _ from hx)]
        · rename_i hx
          rw [if_neg (show id x.chain.ends ∉ _ from hx)]
      rw [insertAll_cons, ih (nodup_ends_insert x h), List.map_append, hinsert,
        distinctBy_append_left, List.map_append, List.map_cons, List.append_assoc]
      rfl

theorem find?_insertAll (e : SiteId n × SiteId n) :
    ∀ (xs : List (Suffix n)) {found : List (Suffix n)}, (found.map (·.chain.ends)).Nodup →
      (insertAll found xs).find? (freeAt e) = (found ++ xs).find? (freeAt e) := by
  intro xs
  induction xs with
  | nil => intro found _; rw [List.append_nil]; rfl
  | cons x xs ih =>
      intro found h
      rw [insertAll_cons, ih (nodup_ends_insert x h), List.find?_append, find?_insert x e h,
        ← List.find?_append, List.append_assoc]
      rfl

end Suffix

namespace CallGraph

variable (g : CallGraph n)

/-- Whether a chain has the given ends and is not exempt. -/
def freeAt (e : SiteId n × SiteId n) (c : Chain n) : Bool :=
  c.ends = e && ! g.exempts c.tag c.sites

theorem freeAt_iff {e : SiteId n × SiteId n} {c : Chain n} :
    g.freeAt e c = true ↔ c.ends = e ∧ g.exempts c.tag c.sites = false := by
  simp [freeAt]

theorem freeAt_of_flag {x : Suffix n} (h : x.exempt = g.exempts x.chain.tag x.chain.sites)
    (e : SiteId n × SiteId n) : Suffix.freeAt e x = g.freeAt e x.chain := by
  rw [Suffix.freeAt, freeAt, h]

/-- What a list of suffixes tells about the paths that it was collapsed from. -/
structure Represents (xs : List (Suffix n)) (paths : List (Chain n)) : Prop where
  /-- The flag of a suffix says whether its chain is exempt. -/
  flagged : ∀ x ∈ xs, x.exempt = g.exempts x.chain.tag x.chain.sites
  /-- Every suffix is one of the paths. -/
  kept : ∀ x ∈ xs, x.chain ∈ paths
  /-- The ends of every path are there. -/
  covers : ∀ c ∈ paths, ∃ x ∈ xs, x.chain.ends = c.ends
  /-- For any ends the first unexempted suffix is the first unexempted path. -/
  firstFree : ∀ e, (xs.find? (Suffix.freeAt e)).map (·.chain) = paths.find? (g.freeAt e)

namespace Represents

variable {g} {xs ys : List (Suffix n)} {paths more : List (Chain n)}

/-- The same of the chains of the suffixes. -/
theorem find?_chains (h : g.Represents xs paths) (e : SiteId n × SiteId n) :
    (xs.map (·.chain)).find? (g.freeAt e) = paths.find? (g.freeAt e) := by
  rw [← h.firstFree e, List.find?_map]
  congr 1
  exact List.find?_congr fun x hx => (g.freeAt_of_flag (h.flagged x hx) e).symm

theorem nil : g.Represents [] [] :=
  ⟨by simp, by simp, by simp, fun _ => rfl⟩

theorem append (h : g.Represents xs paths) (k : g.Represents ys more) :
    g.Represents (xs ++ ys) (paths ++ more) := by
  refine ⟨?_, ?_, ?_, ?_⟩
  · intro x hx
    exact (List.mem_append.mp hx).elim (h.flagged x) (k.flagged x)
  · intro x hx
    rcases List.mem_append.mp hx with hx | hx
    · exact List.mem_append_left _ (h.kept x hx)
    · exact List.mem_append_right _ (k.kept x hx)
  · intro c hc
    rcases List.mem_append.mp hc with hc | hc
    · obtain ⟨x, hx, hends⟩ := h.covers c hc
      exact ⟨x, List.mem_append_left _ hx, hends⟩
    · obtain ⟨x, hx, hends⟩ := k.covers c hc
      exact ⟨x, List.mem_append_right _ hx, hends⟩
  · intro e
    rw [List.find?_append, List.find?_append, Option.map_or, h.firstFree, k.firstFree]

/-- Collapsing loses none of it. -/
theorem collapse {found : List (Suffix n)} (h : g.Represents (found ++ xs) paths)
    (hnd : (found.map (·.chain.ends)).Nodup) :
    g.Represents (Suffix.insertAll found xs) paths := by
  have hsub : ∀ x ∈ Suffix.insertAll found xs, x ∈ found ++ xs := fun x hx =>
    List.mem_append.mpr (Suffix.mem_of_mem_insertAll hx)
  refine ⟨fun x hx => h.flagged x (hsub x hx), fun x hx => h.kept x (hsub x hx), ?_, ?_⟩
  · intro c hc
    obtain ⟨x, hx, hends⟩ := h.covers c hc
    have hmem : x.chain.ends ∈ (Suffix.insertAll found xs).map (·.chain.ends) := by
      rw [Suffix.ends_insertAll xs hnd, mem_distinctBy_id]
      exact List.mem_map_of_mem hx
    obtain ⟨y, hy, hyx⟩ := List.mem_map.mp hmem
    exact ⟨y, hy, hyx.trans hends⟩
  · intro e
    rw [Suffix.find?_insertAll e xs hnd]
    exact h.firstFree e

/-- Paths that no suffix is among may be taken away. -/
theorem filter (h : g.Represents xs paths) {q : Chain n → Bool} (hq : ∀ x ∈ xs, q x.chain = true) :
    g.Represents xs (paths.filter q) := by
  refine ⟨h.flagged, fun x hx => List.mem_filter.mpr ⟨h.kept x hx, hq x hx⟩, ?_, ?_⟩
  · intro c hc
    exact h.covers c (List.mem_filter.mp hc).1
  · intro e
    rw [h.firstFree e]
    cases hfind : paths.find? (g.freeAt e) with
    | none =>
        symm
        rw [List.find?_eq_none] at hfind ⊢
        exact fun c hc => hfind c (List.mem_filter.mp hc).1
    | some c =>
        -- The path that is found is a suffix's, so the filter keeps it.
        have hqc : q c = true := by
          have hx := h.firstFree e
          rw [hfind, Option.map_eq_some_iff] at hx
          obtain ⟨x, hx, rfl⟩ := hx
          exact hq x (List.mem_of_find?_eq_some hx)
        obtain ⟨hc, before, after, rfl, hbefore⟩ := List.find?_eq_some_iff_append.mp hfind
        symm
        refine List.find?_eq_some_iff_append.mpr
          ⟨hc, before.filter q, after.filter q, ?_, fun a ha => hbefore a (List.mem_filter.mp ha).1⟩
        rw [List.filter_append, List.filter_cons_of_pos hqc]

theorem single (g : CallGraph n) (s : SiteId n) (t : Tag) :
    g.Represents [Suffix.single g s t] [{ tag := t, first := s }] := by
  refine ⟨?_, ?_, ?_, ?_⟩
  · intro x hx
    rw [List.mem_singleton.mp hx]
    simp [Suffix.single, exempts, Chain.sites]
  · intro x hx
    rw [List.mem_singleton.mp hx]
    simp [Suffix.single]
  · intro c hc
    rw [List.mem_singleton.mp hc]
    exact ⟨_, List.mem_singleton_self _, rfl⟩
  · intro e
    have hflag : (Suffix.single g s t).exempt = g.exempts t [s] := by
      simp [Suffix.single, exempts]
    have hfree : Suffix.freeAt e (Suffix.single g s t) = g.freeAt e { tag := t, first := s } :=
      g.freeAt_of_flag hflag e
    rw [List.find?_singleton, List.find?_singleton, hfree]
    split
    · rfl
    · rfl

end Represents

/-! ### One more call in front

A call in front leaves only the last calls to tell pairs apart.  What is found first among
the suffixes that end alike is what is found first among the paths, provided that both
lists are grouped by first calls.
-/

/-- The first element with a property is the first with a narrower one that it has. -/
theorem find?_narrow {α : Type} {p q : α → Bool} {l : List α} {a : α} (ha : l.find? p = some a)
    (hq : q a = true) (himp : ∀ b ∈ l, q b = true → p b = true) : l.find? q = some a := by
  obtain ⟨-, before, after, rfl, hbefore⟩ := List.find?_eq_some_iff_append.mp ha
  refine List.find?_eq_some_iff_append.mpr ⟨hq, before, after, rfl, ?_⟩
  intro b hb
  have hnot := hbefore b hb
  rw [Bool.not_eq_true'] at hnot ⊢
  by_contra hqb
  rw [Bool.not_eq_false] at hqb
  rw [himp b (List.mem_append_left _ hb) hqb] at hnot
  cases hnot

theorem find?_rel {α : Type} {r : α → α → Prop} {q : α → Bool} {l : List α} {a b : α}
    (hrefl : ∀ x, r x x) (hl : l.Pairwise r) (ha : l.find? q = some a) (hb : b ∈ l)
    (hqb : q b = true) : r a b := by
  obtain ⟨-, before, after, rfl, hbefore⟩ := List.find?_eq_some_iff_append.mp ha
  rcases List.mem_append.mp hb with hb | hb
  · have := hbefore b hb
    rw [hqb] at this
    simp at this
  · rcases List.mem_cons.mp hb with rfl | hb
    · exact hrefl b
    · exact (List.pairwise_cons.mp (List.pairwise_append.mp hl).2.1).1 b hb

variable {g}

/-- What a search finds is the first unexempted path of its own ends, if the search asks for
nothing but the ends and that the path is not exempt. -/
theorem find?_freeAt_ends {paths : List (Chain n)} {q : Chain n → Bool} {c : Chain n}
    (hexempt : ∀ d, q d = true → g.exempts d.tag d.sites = false)
    (hq : ∀ c ∈ paths, ∀ d ∈ paths, d.ends = c.ends → g.exempts d.tag d.sites = false →
      q c = true → q d = true)
    (h : paths.find? q = some c) : paths.find? (g.freeAt c.ends) = some c := by
  obtain ⟨hc, before, after, rfl, hbefore⟩ := List.find?_eq_some_iff_append.mp h
  refine List.find?_eq_some_iff_append.mpr ⟨?_, before, after, rfl, ?_⟩
  · exact g.freeAt_iff.mpr ⟨rfl, hexempt c hc⟩
  · intro d hd
    have hnot := hbefore d hd
    rw [Bool.not_eq_true'] at hnot ⊢
    rw [← Bool.not_eq_true]
    intro hfree
    obtain ⟨hends, hfree⟩ := g.freeAt_iff.mp hfree
    have hqd := hq c (by simp) d (by simp [hd]) hends hfree hc
    rw [hqd] at hnot
    cases hnot

theorem find?_eq_of_grouped {kept paths : List (Chain n)} {m : Fin n} {b : SiteId n}
    {q : Chain n → Bool} (hsub : ∀ c ∈ kept, c ∈ paths)
    (hkept : kept.Pairwise (·.first.index ≤ ·.first.index))
    (hpaths : paths.Pairwise (·.first.index ≤ ·.first.index))
    (howner : ∀ c ∈ paths, c.first.owner = m)
    (hfree : ∀ e, kept.find? (g.freeAt e) = paths.find? (g.freeAt e))
    (hlast : ∀ c, q c = true → c.last = b)
    (hexempt : ∀ c, q c = true → g.exempts c.tag c.sites = false)
    (hq : ∀ c ∈ paths, ∀ d ∈ paths, d.ends = c.ends → g.exempts d.tag d.sites = false →
      q c = true → q d = true) :
    kept.find? q = paths.find? q := by
  have hqkept : ∀ c ∈ kept, ∀ d ∈ kept, d.ends = c.ends → g.exempts d.tag d.sites = false →
      q c = true → q d = true := fun c hc d hd => hq c (hsub c hc) d (hsub d hd)
  -- What is found among the paths is kept.
  have hback : ∀ d, paths.find? q = some d → d ∈ kept := by
    intro d hd
    have := find?_freeAt_ends hexempt hq hd
    rw [← hfree] at this
    exact List.mem_of_find?_eq_some this
  cases hc : kept.find? q with
  | none =>
      symm
      rw [List.find?_eq_none] at hc ⊢
      intro d hd hqd
      cases hfind : paths.find? q with
      | none => exact List.find?_eq_none.mp hfind d hd hqd
      | some c => exact hc c (hback c hfind) (List.find?_some hfind)
  | some c =>
      have hcmem : c ∈ kept := List.mem_of_find?_eq_some hc
      have hqc : q c = true := List.find?_some hc
      cases hd : paths.find? q with
      | none => exact absurd hqc (List.find?_eq_none.mp hd c (hsub c hcmem))
      | some d =>
          have hdmem : d ∈ kept := hback d hd
          have hqd : q d = true := List.find?_some hd
          -- Each of the two comes first in its list, so their first calls are the same.
          have hdc : d.first.index ≤ c.first.index :=
            find?_rel (r := fun c d : Chain n => c.first.index ≤ d.first.index)
              (fun _ => Nat.le_refl _) hpaths hd (hsub c hcmem) hqc
          have hcd : c.first.index ≤ d.first.index :=
            find?_rel (r := fun c d : Chain n => c.first.index ≤ d.first.index)
              (fun _ => Nat.le_refl _) hkept hc hdmem hqd
          have howners : c.first.owner = d.first.owner := by
            rw [howner c (hsub c hcmem), howner d (hsub d hdmem)]
          have hfirst : c.first = d.first := SiteId.ext howners (Nat.le_antisymm hcd hdc)
          have hends : c.ends = d.ends := by
            rw [Chain.ends, Chain.ends, hfirst, hlast c hqc, hlast d hqd]
          have hc' := find?_freeAt_ends hexempt hqkept hc
          rw [hends, hfree, find?_freeAt_ends hexempt hq hd] at hc'
          exact hc'.symm

theorem exempts_cons (t : Tag) (s : SiteId n) (calls : List (SiteId n)) :
    g.exempts t (s :: calls) = (g.handsTo s t || g.exempts t calls) := rfl

/-- A call in front of every suffix and of every path leaves the ones standing for the others. -/
theorem Represents.cons {xs : List (Suffix n)} {paths : List (Chain n)} {m : Fin n}
    (h : g.Represents xs paths)
    (hxs : xs.Pairwise (·.chain.first.index ≤ ·.chain.first.index))
    (hpaths : paths.Pairwise (·.first.index ≤ ·.first.index))
    (howner : ∀ c ∈ paths, c.first.owner = m)
    (hleads : ∀ c ∈ paths, g.Leads c.sites c.tag) (s : SiteId n) :
    g.Represents (xs.map (Suffix.cons g s)) (paths.map (Chain.cons s)) := by
  have hflag : ∀ x ∈ xs, (Suffix.cons g s x).exempt =
      g.exempts (Suffix.cons g s x).chain.tag (Suffix.cons g s x).chain.sites := by
    intro x hx
    show (x.exempt || g.handsTo s x.chain.tag) = g.exempts x.chain.tag (s :: x.chain.sites)
    rw [exempts_cons, h.flagged x hx, Bool.or_comm]
  refine ⟨?_, ?_, ?_, ?_⟩
  · intro y hy
    obtain ⟨x, hx, rfl⟩ := List.mem_map.mp hy
    exact hflag x hx
  · intro y hy
    obtain ⟨x, hx, rfl⟩ := List.mem_map.mp hy
    exact List.mem_map_of_mem (h.kept x hx)
  · intro d hd
    obtain ⟨c, hc, rfl⟩ := List.mem_map.mp hd
    obtain ⟨x, hx, hends⟩ := h.covers c hc
    refine ⟨_, List.mem_map_of_mem hx, ?_⟩
    show (x.chain.cons s).ends = (c.cons s).ends
    rw [Chain.ends_cons, Chain.ends_cons, show x.chain.last = c.last from congrArg Prod.snd hends]
  · intro e
    -- The search among suffixes is one among their chains.
    have hsearch : (xs.find? (Suffix.freeAt e ∘ Suffix.cons g s)).map (·.chain) =
        (xs.map (·.chain)).find? fun c => g.freeAt e (c.cons s) := by
      rw [List.find?_map]
      congr 1
      exact List.find?_congr fun x hx => g.freeAt_of_flag (hflag x hx) e
    have hunfold : ∀ c : Chain n, g.freeAt e (c.cons s) = true ↔
        (s, c.last) = e ∧ g.handsTo s c.tag = false ∧ g.exempts c.tag c.sites = false := by
      intro c
      rw [freeAt_iff, Chain.ends_cons, Chain.tag_cons, Chain.sites_cons, exempts_cons,
        Bool.or_eq_false_iff]
    have hgrouped := find?_eq_of_grouped (q := fun c => g.freeAt e (c.cons s)) (b := e.2)
      (fun c hc => by
        obtain ⟨x, hx, rfl⟩ := List.mem_map.mp hc
        exact h.kept x hx)
      (List.pairwise_map.mpr hxs) hpaths howner h.find?_chains
      (fun c hc => congrArg Prod.snd ((hunfold c).mp hc).1)
      (fun c hc => ((hunfold c).mp hc).2.2)
      (fun c hc d hd hends hd' hqc => by
        obtain ⟨he, hs, -⟩ := (hunfold c).mp hqc
        have hlast : d.last = c.last := congrArg Prod.snd hends
        refine (hunfold d).mpr ⟨hlast ▸ he, ?_, hd'⟩
        rw [Leads.tag_eq (hleads d hd) (hleads c hc) hlast]
        exact hs)
    rw [List.find?_map, List.find?_map, Option.map_map]
    show Option.map (Chain.cons s ∘ fun x : Suffix n => x.chain) _ = _
    rw [← Option.map_map, hsearch, hgrouped]
    rfl

/-! ### Summaries of a body -/

variable (g) in
/-- A list of suffixes with one suffix for each pair of ends, grouped by first calls, that
stands for a list of paths. -/
structure Summary (xs : List (Suffix n)) (paths : List (Chain n)) : Prop
    extends g.Represents xs paths where
  distinct : (xs.map (·.chain.ends)).Nodup
  grouped : xs.Pairwise (·.chain.first.index ≤ ·.chain.first.index)

namespace Summary

variable {xs found : List (Suffix n)} {paths : List (Chain n)} {avoid : Finset (Fin n)}
  {m : Fin n} {s : SiteId n}

theorem nil : g.Summary [] [] :=
  ⟨Represents.nil, List.nodup_nil, List.Pairwise.nil⟩

/-- What a call of a body brings is added to the summary of the calls before it. -/
theorem add {done after : List (SiteId n)} (hbody : g.sites m = done ++ s :: after)
    (h : g.Summary found (g.paths avoid done)) (hxs : g.Represents xs (g.pathsThrough avoid s)) :
    g.Summary (Suffix.insertAll found xs) (g.paths avoid (done ++ [s])) := by
  have hindex : ∀ r ∈ done, r.index < s.index := by
    have hpair := g.sites_pairwise m
    rw [hbody, List.pairwise_append] at hpair
    exact fun r hr => hpair.2.2 r hr s List.mem_cons_self
  have hfirst : ∀ x ∈ xs, x.chain.first = s := fun x hx =>
    first_of_mem_pathsThrough (hxs.kept x hx)
  have hall : (found ++ xs).Pairwise (·.chain.first.index ≤ ·.chain.first.index) := by
    refine List.pairwise_append.mpr ⟨h.grouped, ?_, ?_⟩
    · refine List.pairwise_of_forall_mem_list fun x hx y hy => ?_
      rw [hfirst x hx, hfirst y hy]
    · intro x hx y hy
      rw [hfirst y hy]
      exact Nat.le_of_lt (hindex _ (first_mem_of_mem_paths (h.kept x hx)))
  have hends := Suffix.ends_insertAll xs h.distinct
  refine ⟨?_, ?_, ?_⟩
  · rw [paths_append, paths_singleton]
    exact (h.toRepresents.append hxs).collapse h.distinct
  · rw [hends]
    exact nodup_distinctBy_id _
  · have hsorted : ((found ++ xs).map (·.chain.ends)).Pairwise (·.1.index ≤ ·.1.index) :=
      List.pairwise_map.mpr hall
    have hsub := hsorted.sublist (distinctBy_sublist id _)
    rw [← hends, List.pairwise_map] at hsub
    exact hsub

/-- A summary of a member's body, with a call of the member in front. -/
theorem cons (hs : g.callee? s = some m) (hm : (g.tags m).affinity = none) (hav : m ∉ avoid)
    (h : g.Summary xs (g.paths (insert m avoid) (g.sites m))) :
    g.Represents (xs.map (Suffix.cons g s)) (g.pathsThrough avoid s) := by
  rw [pathsThrough_entered hs hm hav]
  exact h.toRepresents.cons h.grouped (paths_grouped (g.sites_pairwise m))
    (fun _ => owner_of_mem_paths) (fun _ => leads_of_mem_paths) s

/-- Of the suffixes with the same last call the first has the ends of the first of the paths. -/
theorem find?_of_last (h : g.Summary xs (g.paths avoid (g.sites m))) {x : Suffix n} {c : Chain n}
    {b : SiteId n} (hx : xs.find? (fun y => y.chain.last = b) = some x)
    (hc : (g.paths avoid (g.sites m)).find? (fun d => d.last = b) = some c) :
    (g.paths avoid (g.sites m)).find? (fun d => d.ends = x.chain.ends) = some c := by
  have hxmem := List.mem_of_find?_eq_some hx
  have hcmem := List.mem_of_find?_eq_some hc
  have hxlast : x.chain.last = b := by simpa using List.find?_some hx
  have hclast : c.last = b := by simpa using List.find?_some hc
  -- Both lists are grouped by first calls, so the first call of each is not after the other.
  obtain ⟨y, hy, hyc⟩ := h.covers c hcmem
  have hylast : y.chain.last = b := (congrArg Prod.snd hyc).trans hclast
  have hyfirst : y.chain.first = c.first := congrArg Prod.fst hyc
  have hxc : x.chain.first.index ≤ c.first.index := by
    rw [← hyfirst]
    exact find?_rel (r := fun x y : Suffix n => x.chain.first.index ≤ y.chain.first.index)
      (fun _ => Nat.le_refl _) h.grouped hx hy (decide_eq_true hylast)
  have hcx : c.first.index ≤ x.chain.first.index :=
    find?_rel (r := fun c d : Chain n => c.first.index ≤ d.first.index)
      (fun _ => Nat.le_refl _) (paths_grouped (g.sites_pairwise m)) hc (h.kept x hxmem)
      (decide_eq_true hxlast)
  have howners : c.first.owner = x.chain.first.owner := by
    rw [owner_of_mem_paths hcmem, owner_of_mem_paths (h.kept x hxmem)]
  have hends : c.ends = x.chain.ends :=
    Prod.ext (SiteId.ext howners (Nat.le_antisymm hcx hxc)) (hclast.trans hxlast.symm)
  refine find?_narrow hc (decide_eq_true hends) fun d _ hd => decide_eq_true ?_
  exact (congrArg Prod.snd (of_decide_eq_true hd)).trans hxlast

/-- With a call in front the ends are told by the last calls; what comes first with some ends
then came first before. -/
theorem find?_cons (h : g.Summary xs (g.paths avoid (g.sites m))) {y : Suffix n} {c : Chain n}
    (hy : (xs.map (Suffix.cons g s)).find? (fun z => z.chain.ends = y.chain.ends) = some y)
    (hc : ((g.paths avoid (g.sites m)).map (Chain.cons s)).find?
      (fun d => d.ends = y.chain.ends) = some c) :
    ∃ x d, Suffix.cons g s x = y ∧ d.cons s = c ∧ x ∈ xs ∧
      (g.paths avoid (g.sites m)).find? (fun d => d.ends = x.chain.ends) = some d := by
  rw [List.find?_map, Option.map_eq_some_iff] at hy hc
  obtain ⟨x, hx, rfl⟩ := hy
  obtain ⟨d, hd, rfl⟩ := hc
  have hxlast : xs.find? (fun z => z.chain.last = x.chain.last) = some x := by
    rw [← hx]
    exact List.find?_congr fun z _ => decide_eq_decide.mpr Chain.ends_cons_inj.symm
  have hdlast : (g.paths avoid (g.sites m)).find? (fun d => d.last = x.chain.last) = some d := by
    rw [← hd]
    exact List.find?_congr fun d _ => decide_eq_decide.mpr Chain.ends_cons_inj.symm
  exact ⟨x, d, rfl, rfl, List.mem_of_find?_eq_some hxlast, h.find?_of_last hxlast hdlast⟩

/-- A summary that enters none of some members is one of the paths that avoid them. -/
theorem restrict {calls : List (SiteId n)} {more : Finset (Fin n)}
    (h : g.Summary xs (g.paths avoid calls)) (hclear : ∀ x ∈ xs, x.chain.clearOf more = true) :
    g.Summary xs (g.paths (avoid ∪ more) calls) := by
  rw [paths_union]
  exact ⟨h.toRepresents.filter hclear, h.distinct, h.grouped⟩

/-- The ends of the suffixes are those of the paths. -/
theorem mem_ends (h : g.Summary xs paths) {e : SiteId n × SiteId n} :
    e ∈ xs.map (·.chain.ends) ↔ e ∈ paths.map (·.ends) := by
  rw [List.mem_map, List.mem_map]
  constructor
  · intro he
    obtain ⟨x, hx, rfl⟩ := he
    exact ⟨x.chain, h.kept x hx, rfl⟩
  · intro he
    obtain ⟨c, hc, rfl⟩ := he
    exact h.covers c hc

theorem eq_of_ends (h : g.Summary xs paths) {x y : Suffix n} (hx : x ∈ xs) (hy : y ∈ xs)
    (hends : x.chain.ends = y.chain.ends) : x = y :=
  List.inj_on_of_nodup_map h.distinct hx hy hends

/-- A suffix is the first unexempted path of its ends as soon as there is one. -/
theorem find?_eq (h : g.Summary xs paths) {x : Suffix n} (hx : x ∈ xs) {d : Chain n}
    (hd : d ∈ paths) (hends : d.ends = x.chain.ends)
    (hfree : g.exempts d.tag d.sites = false) :
    paths.find? (g.freeAt x.chain.ends) = some x.chain := by
  cases hy : xs.find? (Suffix.freeAt x.chain.ends) with
  | none =>
      have hnone := h.firstFree x.chain.ends
      rw [hy, Option.map_none] at hnone
      exact absurd (g.freeAt_iff.mpr ⟨hends, hfree⟩) (List.find?_eq_none.mp hnone.symm d hd)
  | some y =>
      have hyends : y.chain.ends = x.chain.ends := by
        have hyfree := List.find?_some hy
        rw [Suffix.freeAt, Bool.and_eq_true, decide_eq_true_eq] at hyfree
        exact hyfree.1
      rw [← h.firstFree, hy, h.eq_of_ends (List.mem_of_find?_eq_some hy) hx hyends]
      rfl

end Summary

end CallGraph

end ThreadAffinity
