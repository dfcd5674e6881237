/-
Finding the chains from a member to the nearest members with an affinity tag.

Members without an affinity tag are looked through: their bodies are explored, and
their calls become part of the chains.  A member with one ends a chain.  A member that
is already on the current path is not entered again.  Of several chains with the same
first and last call one is kept: the first that no dispatching call exempts, or the
first of all.

What is found below a member is remembered when it does not depend on the path that
led there, and used again unless one of its chains would cross the path.
-/
import ThreadAffinity.CallGraph.Basic

namespace ThreadAffinity

variable {n : Nat}

/-- A chain that starts somewhere on the way, and whether a dispatching call exempts it. -/
structure Suffix (n : Nat) where
  chain : Chain n
  exempt : Bool
deriving DecidableEq, Repr

namespace Suffix

/-- The suffix with one more call in front, in a given graph. -/
def cons (g : CallGraph n) (s : SiteId n) (x : Suffix n) : Suffix n where
  chain := x.chain.cons s
  exempt := x.exempt || g.handsTo s x.chain.tag

/-- The suffix of a single call that reaches a member with an affinity tag. -/
def single (g : CallGraph n) (s : SiteId n) (t : Tag) : Suffix n where
  chain := { tag := t, first := s }
  exempt := g.handsTo s t

/--
Adds a suffix.  One with the same first and last call stands in for both, in its own
place, and gives way only if it is exempt and the new one is not.
-/
def insert (x : Suffix n) : List (Suffix n) → List (Suffix n)
  | [] => [x]
  | y :: ys =>
    if y.chain.ends = x.chain.ends then (if y.exempt && ! x.exempt then x else y) :: ys
    else y :: insert x ys

/-- Adds several suffixes, one after the other. -/
def insertAll (found xs : List (Suffix n)) : List (Suffix n) :=
  xs.foldl (fun found x => insert x found) found

end Suffix

/-- What is remembered of each member: the suffixes that start in its body. -/
abbrev Memo (n : Nat) := Vector (Option (List (Suffix n))) n

/-- The state of an exploration. -/
structure Exploration (n : Nat) where
  found : List (Suffix n) := []
  /-- The smallest depth of a member of the path at which exploring stopped. -/
  low : Option Nat := none
  memo : Memo n

/-- The smaller of two depths, where there may be none. -/
def minDepth (a b : Option Nat) : Option Nat :=
  a.merge min b

/-- Whether a call of one of the suffixes belongs to a member of the path. -/
def crossesPath (path : List (Fin n)) (found : List (Suffix n)) : Bool :=
  found.any fun x => x.chain.sites.any fun s => s.owner ∈ path

/-- The members that are not on a path. -/
def offPath (path : List (Fin n)) : List (Fin n) :=
  (List.finRange n).filter (· ∉ path)

/-- A path that grows by a new member leaves fewer members off it. -/
theorem length_offPath_append_lt {path : List (Fin n)} {m : Fin n} (h : m ∉ path) :
    (offPath (path ++ [m])).length < (offPath path).length := by
  have hfilter : offPath (path ++ [m]) = (offPath path).filter (· ≠ m) := by
    simp [offPath, List.filter_filter, Bool.and_comm]
  rw [hfilter]
  exact List.length_filter_lt_length_iff_exists.2 ⟨m, by simp [offPath, h], by simp⟩

namespace CallGraph

variable (g : CallGraph n)

mutual

/--
Explores a member without affinity tag that is not on the path.  What was remembered
of it serves if it does not cross the path; what is found is remembered if exploring
did not stop above the member.
-/
def enter (path : List (Fin n)) (memo : Memo n) (m : Fin n) (_fresh : m ∉ path) :
    Exploration n :=
  match memo[m].filter (! crossesPath path ·) with
  | some cached => { found := cached, memo }
  | none =>
    let e := explore (path ++ [m]) (g.sites m) { memo }
    if e.low.all (path.length ≤ ·) then { e with memo := e.memo.set m (some e.found) } else e
termination_by ((offPath path).length, 0)
decreasing_by exact .left _ _ (length_offPath_append_lt _fresh)

/-- Explores call sites of the member at the end of the path, one after the other. -/
def explore (path : List (Fin n)) (sites : List (SiteId n)) (e : Exploration n) :
    Exploration n :=
  match sites with
  | [] => e
  | s :: rest =>
    match g.callee? s with
    | none => explore path rest e
    | some m =>
      match (g.tags m).affinity with
      | some t => explore path rest { e with found := (Suffix.single g s t).insert e.found }
      | none =>
        if h : m ∈ path then
          explore path rest { e with low := minDepth e.low (some (path.idxOf m)) }
        else
          let below := enter path e.memo m h
          explore path rest {
            found := Suffix.insertAll e.found (below.found.map (Suffix.cons g s))
            low := minDepth e.low below.low
            memo := below.memo }
termination_by ((offPath path).length, sites.length + 1)

end

/-- The chains from a member to members whose affinity tag differs from a given one. -/
def boundaryChains (root : Fin n) (rootTag : Tag) : List (Chain n) :=
  let e := g.explore [root] (g.sites root) { memo := Vector.replicate n none }
  (e.found.map (·.chain)).filter (·.tag ≠ rootTag)

end CallGraph

/-- A chain from a member with an affinity tag to one with another, not exempt. -/
structure Violation (n : Nat) where
  root : Fin n
  rootTag : Tag
  chain : Chain n
deriving DecidableEq, Repr

/-- The violations of a member; one without affinity tag has none. -/
def CallGraph.violations (g : CallGraph n) (root : Fin n) : List (Violation n) :=
  match (g.tags root).affinity with
  | none => []
  | some rootTag =>
    ((g.boundaryChains root rootTag).filter fun c => ! g.exempts c.tag c.sites).map
      fun chain => { root, rootTag, chain }

end ThreadAffinity
