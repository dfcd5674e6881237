/-
The chains from a root, against all paths from it.

`boundaryPaths` lists every path from a root into another thread, depth first.  Of these
`boundaryChains` gives one for each first and last call, and the right one wherever there
is an unexempted path.  The exploration is done with all tags and the root's own tag is
left out afterwards; since the last call decides the tag, that takes away whole groups of
paths with the same ends and disturbs nothing else.
-/
import ThreadAffinity.Proofs.Exploration

namespace ThreadAffinity

variable {n : Nat}

namespace CallGraph

variable {g : CallGraph n}

/-! ### Leaving out a tag -/

theorem find?_filter_of_alike {α : Type} {p q : α → Bool} {l : List α}
    (h : ∀ a ∈ l, ∀ b ∈ l, p a = true → p b = true → q a = q b) :
    (l.filter q).find? p = (l.find? p).filter q := by
  cases ha : l.find? p with
  | none =>
      rw [Option.filter_none, List.find?_eq_none]
      intro b hb
      exact List.find?_eq_none.mp ha b (List.mem_filter.mp hb).1
  | some a =>
      have hpa : p a = true := List.find?_some ha
      by_cases hqa : q a = true
      · rw [Option.filter_some_pos hqa]
        obtain ⟨-, before, after, rfl, hbefore⟩ := List.find?_eq_some_iff_append.mp ha
        refine List.find?_eq_some_iff_append.mpr ⟨hpa, before.filter q, after.filter q, ?_, ?_⟩
        · rw [List.filter_append, List.filter_cons_of_pos hqa]
        · exact fun b hb => hbefore b (List.mem_filter.mp hb).1
      · rw [Option.filter_some_neg (by simpa using hqa), List.find?_eq_none]
        intro b hb hpb
        obtain ⟨hbl, hqb⟩ := List.mem_filter.mp hb
        rw [h b hbl a (List.mem_of_find?_eq_some ha) hpb hpa] at hqb
        exact hqa hqb

/-- Whether a chain leads to another thread than the given one. -/
def leaves (rootTag : Tag) (c : Chain n) : Bool :=
  c.tag ≠ rootTag

theorem leaves_eq_of_ends {rootTag : Tag} {c d : Chain n} (hc : g.Leads c.sites c.tag)
    (hd : g.Leads d.sites d.tag) (h : c.ends = d.ends) : leaves rootTag c = leaves rootTag d := by
  have hlast : c.last = d.last := congrArg Prod.snd h
  rw [leaves, leaves, hc.tag_eq hd hlast]

/-- A summary stays one when the chains with a given tag are left out on both sides. -/
theorem Summary.leaving {xs : List (Suffix n)} {paths : List (Chain n)} (h : g.Summary xs paths)
    (hleads : ∀ c ∈ paths, g.Leads c.sites c.tag) (rootTag : Tag) :
    g.Summary (xs.filter fun x => leaves rootTag x.chain) (paths.filter (leaves rootTag)) := by
  have halike : ∀ c ∈ paths, ∀ d ∈ paths, c.ends = d.ends →
      leaves rootTag c = leaves rootTag d :=
    fun c hc d hd => leaves_eq_of_ends (hleads c hc) (hleads d hd)
  refine ⟨⟨?_, ?_, ?_, ?_⟩, ?_, h.grouped.filter _⟩
  · intro x hx
    exact h.flagged x (List.mem_filter.mp hx).1
  · intro x hx
    obtain ⟨hx, hleaves⟩ := List.mem_filter.mp hx
    exact List.mem_filter.mpr ⟨h.kept x hx, hleaves⟩
  · intro c hc
    obtain ⟨hc, hleaves⟩ := List.mem_filter.mp hc
    obtain ⟨x, hx, hends⟩ := h.covers c hc
    refine ⟨x, List.mem_filter.mpr ⟨hx, ?_⟩, hends⟩
    rw [halike _ (h.kept x hx) c hc hends]
    exact hleaves
  · intro e
    rw [find?_filter_of_alike, find?_filter_of_alike, ← h.firstFree e, Option.filter_map]
    · rfl
    · intro c hc d hd hce hde
      exact halike c hc d hd ((g.freeAt_iff.mp hce).1.trans (g.freeAt_iff.mp hde).1.symm)
    · intro x hx y hy hxe hye
      rw [g.freeAt_of_flag (h.flagged x hx)] at hxe
      rw [g.freeAt_of_flag (h.flagged y hy)] at hye
      exact halike _ (h.kept x hx) _ (h.kept y hy)
        ((g.freeAt_iff.mp hxe).1.trans (g.freeAt_iff.mp hye).1.symm)
  · exact (List.filter_sublist.map _).nodup h.distinct

theorem Summary.chains_leaving {xs : List (Suffix n)} {paths : List (Chain n)}
    (h : g.Summary xs paths) (hleads : ∀ c ∈ paths, g.Leads c.sites c.tag) (rootTag : Tag) :
    ∃ ys : List (Suffix n), (xs.map (·.chain)).filter (·.tag ≠ rootTag) = ys.map (·.chain) ∧
      g.Summary ys (paths.filter (leaves rootTag)) := by
  refine ⟨_, ?_, h.leaving hleads rootTag⟩
  rw [List.filter_map]
  rfl

/-! ### All paths into other threads -/

/-- The paths from a member to members whose affinity tag differs from a given one that enter
no member twice and do not come back, in depth-first order. -/
def boundaryPaths (g : CallGraph n) (root : Fin n) (rootTag : Tag) : List (Chain n) :=
  (g.paths {root} (g.sites root)).filter (leaves rootTag)

theorem mem_boundaryPaths {root : Fin n} {rootTag : Tag} {c : Chain n} :
    c ∈ g.boundaryPaths root rootTag ↔
      c.first ∈ g.sites root ∧ g.Leads c.sites c.tag ∧ (c.sites.map (·.owner)).Nodup ∧
        c.tag ≠ rootTag := by
  rw [boundaryPaths, List.mem_filter, mem_paths_body, leaves, decide_eq_true_eq, and_assoc,
    and_assoc]

theorem boundaryPaths_pairwise (root : Fin n) (rootTag : Tag) :
    (g.boundaryPaths root rootTag).Pairwise Chain.Before :=
  (paths_pairwise (g.sites_pairwise root)).filter _

/-- **The chains from a root are a summary of the paths from it.** -/
theorem boundaryChains_summary (g : CallGraph n) (root : Fin n) (rootTag : Tag) :
    ∃ xs : List (Suffix n), g.boundaryChains root rootTag = xs.map (·.chain) ∧
      g.Summary xs (g.boundaryPaths root rootTag) :=
  (explore_root g.summary_digest root).chains_leaving (fun _ => leads_of_mem_paths) rootTag

/--
**The chains from a root refine the list of all paths.**  That list holds exactly the
sequences of calls from the root's body that lead to another tag and enter no member
twice, in depth-first order.  The chains have the ends of its paths, each once; every
chain is one of the paths and carries the tag of its last call; where some path with the
same ends is not exempt, the chain is the first such path; and the chains come in the
order of their first calls in the body.
-/
theorem boundaryChains_refine_paths (g : CallGraph n) (root : Fin n) (rootTag : Tag) :
    (∀ c, c ∈ g.boundaryPaths root rootTag ↔
      c.first ∈ g.sites root ∧ g.Leads c.sites c.tag ∧ (c.sites.map (·.owner)).Nodup ∧
        c.tag ≠ rootTag) ∧
    (g.boundaryPaths root rootTag).Pairwise Chain.Before ∧
    ((g.boundaryChains root rootTag).map (·.ends)).Nodup ∧
    (∀ e, e ∈ (g.boundaryChains root rootTag).map (·.ends) ↔
      e ∈ (g.boundaryPaths root rootTag).map (·.ends)) ∧
    (∀ c ∈ g.boundaryChains root rootTag,
      c ∈ g.boundaryPaths root rootTag ∧ g.tagAt? c.last = some c.tag) ∧
    (∀ c ∈ g.boundaryChains root rootTag, ∀ d ∈ g.boundaryPaths root rootTag,
      d.ends = c.ends → g.exempts d.tag d.sites = false →
        (g.boundaryPaths root rootTag).find?
          (fun p => p.ends = c.ends && ! g.exempts p.tag p.sites) = some c) ∧
    (g.boundaryChains root rootTag).Pairwise (·.first.index ≤ ·.first.index) := by
  obtain ⟨xs, hchains, h⟩ := g.boundaryChains_summary root rootTag
  rw [hchains, List.map_map]
  refine ⟨fun _ => mem_boundaryPaths, boundaryPaths_pairwise root rootTag, h.distinct,
    fun _ => h.mem_ends, ?_, ?_, List.pairwise_map.mpr h.grouped⟩
  · intro c hc
    obtain ⟨x, hx, rfl⟩ := List.mem_map.mp hc
    have hpath := h.kept x hx
    exact ⟨hpath, (mem_boundaryPaths.mp hpath).2.1.tagAt?_last⟩
  · intro c hc d hd hends hfree
    obtain ⟨x, hx, rfl⟩ := List.mem_map.mp hc
    exact h.find?_eq hx hd hends hfree

end CallGraph

end ThreadAffinity
