/-
The call graph of a program, in terms of the program.
-/
import Mathlib.Data.List.OfFn
import ThreadAffinity.Program
import ThreadAffinity.Proofs.Paths

namespace ThreadAffinity

namespace Program

variable (prog : Program)

theorem members_graph (m : Fin prog.size) :
    prog.graph.members.get m =
      { tags := (prog.members.get m).tags
        sites := (prog.members.get m).calls.map (prog.site (prog.members.get m)) } := by
  show (Vector.ofFn _)[m.val] = _
  rw [Vector.getElem_ofFn]
  rfl

theorem tags_graph (m : Fin prog.size) : prog.graph.tags m = (prog.members.get m).tags := by
  show (prog.graph.members.get m).tags = _
  rw [members_graph]

theorem site?_graph (s : SiteId prog.size) :
    prog.graph.site? s =
      (prog.members.get s.owner).calls[s.index]?.map (prog.site (prog.members.get s.owner)) := by
  show (prog.graph.members.get s.owner).sites[s.index]? = _
  rw [members_graph, List.getElem?_map]

theorem callee?_graph (s : SiteId prog.size) :
    prog.graph.callee? s = (prog.call? s).bind prog.resolveCall? := by
  rw [CallGraph.callee?, site?_graph]
  show _ = ((prog.members.get s.owner).calls[s.index]?.map (·.call)).bind _
  cases (prog.members.get s.owner).calls[s.index]? with
  | none => rfl
  | some e => rfl

theorem mem_sites_graph {m : Fin prog.size} {s : SiteId prog.size} :
    s ∈ prog.graph.sites m ↔ s.owner = m ∧ ∃ c, prog.call? s = some c := by
  rw [CallGraph.mem_sites, members_graph, List.length_map]
  refine and_congr_right fun howner => ?_
  subst howner
  show _ ↔ ∃ c, (prog.members.get s.owner).calls[s.index]?.map (·.call) = some c
  rw [← Option.isSome_iff_exists, Option.isSome_map, isSome_getElem?]

end Program

end ThreadAffinity
