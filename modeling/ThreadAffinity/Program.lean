/-
The call graph of a package.

Every declared function is a member, in the order of the declarations.  A function
that is declared elsewhere is a member too, without calls, if it is called here and
carries a tag; any other call stays unresolved.
-/
import ThreadAffinity.CallGraph.Walk
import ThreadAffinity.Distinct
import ThreadAffinity.Source.File
import ThreadAffinity.TagIndex

namespace ThreadAffinity

/-- A function that takes part in the analysis. -/
structure ProgramMember where
  func : Func
  /-- Its declaration, none for a function that is declared elsewhere. -/
  decl : Option FuncDecl := none
  tags : Tags
  calls : List CallEntry := []
deriving Inhabited

/-- The functions of a package and the tagged functions they call elsewhere. -/
structure Program where
  declared : List ProgramMember
  external : List ProgramMember

namespace Program

/-- The members for the declared functions. -/
def declaredMembers (decls : List FuncDecl) (index : TagIndex) : List ProgramMember :=
  decls.filterMap fun d => d.func.map fun f =>
    { func := f, decl := some d, tags := index.lookup f, calls := d.calls }

theorem mem_declaredMembers {decls : List FuncDecl} {index : TagIndex} {m : ProgramMember} :
    m ∈ declaredMembers decls index ↔ ∃ d ∈ decls, ∃ f, d.func = some f ∧
      m = { func := f, decl := some d, tags := index.lookup f, calls := d.calls } := by
  refine List.mem_filterMap.trans (exists_congr fun d => and_congr_right fun _ => ?_)
  rw [Option.map_eq_some_iff]
  exact exists_congr fun f => and_congr_right fun _ => eq_comm

/-- The members for tagged functions that are called but not declared. -/
def externalMembers (declared : List ProgramMember) (index : TagIndex) : List ProgramMember :=
  let called := declared.flatMap fun m => m.calls.filterMap (·.call.callee?)
  let outside := called.filter fun f =>
    ! declared.any (·.func == f) && ! (index.lookup f).isEmpty
  (distinctBy id outside).map fun f => { func := f, tags := index.lookup f }

/-- The program of the given declarations. -/
def build (decls : List FuncDecl) (index : TagIndex) : Program :=
  let declared := declaredMembers decls index
  { declared, external := externalMembers declared index }

/-- All members, declared ones first. -/
def members (p : Program) : List ProgramMember :=
  p.declared ++ p.external

/-- The number of members. -/
abbrev size (p : Program) : Nat :=
  p.members.length

/-- The member that is a given function; of several declarations the last one counts. -/
def resolve? (p : Program) (f : Func) : Option (Fin p.size) :=
  (List.finRange p.size).reverse.find? fun i => p.members[i].func == f

/-- The member that a call calls. -/
def resolveCall? (p : Program) (c : Call) : Option (Fin p.size) :=
  c.callee?.bind p.resolve?

/-- A call of a member as a site of the call graph. -/
def site (p : Program) (m : ProgramMember) (e : CallEntry) : Site p.size where
  callee := p.resolveCall? e.call
  enclosing := e.enclosing.filterMap fun i => m.calls[i]?.bind fun o => p.resolveCall? o.call

/-- The call graph. -/
def graph (p : Program) : CallGraph p.size where
  members := Vector.ofFn fun i =>
    { tags := p.members[i].tags, sites := p.members[i].calls.map (p.site p.members[i]) }

/-- The declared members with an affinity tag, in order. -/
def roots (p : Program) : List (Fin p.size) :=
  (List.finRange p.size).filter fun i =>
    i.val < p.declared.length && p.members[i].tags.affinity.isSome

/-- The call at a site of the call graph. -/
def call? (p : Program) (s : SiteId p.size) : Option Call :=
  p.members[s.owner].calls[s.index]?.map (·.call)

end Program

end ThreadAffinity
