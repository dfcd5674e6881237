/-
Call graphs, and chains of calls through them.

The members of a graph are numbered.  A member has tags and call sites; a site knows
the member that it calls, if that is known, and the members whose calls stand around
it.  A site is named by its owner and its number there, so two sites of different
members are always different.
-/
import ThreadAffinity.Tag

namespace ThreadAffinity

/-- A call in the body of a member of a graph with `n` members. -/
structure Site (n : Nat) where
  /-- The member that is called, if it is known. -/
  callee : Option (Fin n)
  /-- The members that the calls around this one call, innermost first. -/
  enclosing : List (Fin n) := []
deriving DecidableEq, Repr

/-- A function in a graph with `n` members. -/
structure Member (n : Nat) where
  tags : Tags := .empty
  sites : List (Site n) := []
deriving DecidableEq, Repr

/-- A call graph with `n` members. -/
structure CallGraph (n : Nat) where
  members : Vector (Member n) n

/-- A call site by its owner and its number among the owner's sites. -/
structure SiteId (n : Nat) where
  owner : Fin n
  index : Nat
deriving DecidableEq, Repr

/-- Calls from one member down to one with an affinity tag, and that tag. -/
structure Chain (n : Nat) where
  tag : Tag
  first : SiteId n
  rest : List (SiteId n) := []
deriving DecidableEq, Repr

namespace Chain

variable {n : Nat}

/-- The calls of the chain in order. -/
def sites (c : Chain n) : List (SiteId n) :=
  c.first :: c.rest

/-- The call that reaches the tagged member. -/
def last (c : Chain n) : SiteId n :=
  c.rest.getLast?.getD c.first

/-- The first and the last call. -/
def ends (c : Chain n) : SiteId n × SiteId n :=
  (c.first, c.last)

/-- The chain with one more call in front. -/
def cons (s : SiteId n) (c : Chain n) : Chain n :=
  { tag := c.tag, first := s, rest := c.sites }

end Chain

namespace CallGraph

variable {n : Nat} (g : CallGraph n)

/-- The tags of a member. -/
def tags (m : Fin n) : Tags :=
  g.members[m].tags

/-- The call sites of a member in order. -/
def sites (m : Fin n) : List (SiteId n) :=
  (List.range g.members[m].sites.length).map fun i => { owner := m, index := i }

/-- The site with a given name. -/
def site? (s : SiteId n) : Option (Site n) :=
  g.members[s.owner].sites[s.index]?

/-- The member that a site calls. -/
def callee? (s : SiteId n) : Option (Fin n) :=
  (g.site? s).bind (·.callee)

/-! ### Dispatch

A callback that is handed to a dispatching function runs on the thread that function
dispatches to.  So what counts for a call is the innermost call around it that
dispatches; calls around it that do not dispatch change nothing.
-/

/-- The thread that the innermost dispatching call around a site hands it to. -/
def dispatch? (s : SiteId n) : Option Tag :=
  (g.site? s).bind fun site => site.enclosing.findSome? fun m => (g.tags m).dispatch

/-- Whether a site is handed to the thread with a given tag. -/
def handsTo (s : SiteId n) (t : Tag) : Bool :=
  g.dispatch? s == some t

/-- Whether one of several calls is handed to the thread with a given tag. -/
def exempts (t : Tag) (path : List (SiteId n)) : Bool :=
  path.any (g.handsTo · t)

end CallGraph

end ThreadAffinity
