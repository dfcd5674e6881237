/-
Findings: violations as they are reported.

A finding stands at the first call of its chain.  A chain of one call needs no
explanation; a longer one is shown call by call.  Findings with the same place and
the same message are reported once.
-/
import ThreadAffinity.CallGraph.Walk
import ThreadAffinity.Distinct
import ThreadAffinity.Source.Position
import ThreadAffinity.Text.Quoted

namespace ThreadAffinity

/-- Further information that belongs to a diagnostic. -/
structure Related where
  pos : Pos
  message : String
deriving DecidableEq, Repr

/-- A message about a place in the source. -/
structure Diagnostic where
  pos : Pos
  /-- The end of what the message is about, if that is known. -/
  stop : Option Pos := none
  category : String := ""
  message : String
  related : List Related := []
deriving DecidableEq, Repr

/-- Where a call stands, and how it is shown. -/
structure CallView where
  start : Pos
  stop : Pos
  text : String
deriving DecidableEq, Repr, Inhabited

/-- A violation that is ready to be reported. -/
structure Finding where
  start : Pos
  stop : Pos
  /-- The call that enters the other thread. -/
  boundary : Pos
  /-- The calls of the chain, if there is more than one. -/
  route : Option String := none
  rootTag : Tag
  tag : Tag
deriving DecidableEq, Repr

/-- Calls one after the other. -/
def renderRoute (calls : List String) : String :=
  " -> ".intercalate calls

namespace Finding

/-- The finding for a violation, given how its calls are seen. -/
def ofViolation {n : Nat} (view : SiteId n → CallView) (v : Violation n) : Finding where
  start := (view v.chain.first).start
  stop := (view v.chain.first).stop
  boundary := (view v.chain.last).start
  route :=
    if v.chain.rest.isEmpty then none
    else some (renderRoute (v.chain.sites.map fun s => (view s).text))
  rootTag := v.rootTag
  tag := v.chain.tag

/-- What a finding says. -/
def message (f : Finding) : String :=
  match f.route with
  | none => "forbidden cross-thread invocation"
  | some calls => "forbidden cross-thread invocation: '" ++ calls ++ "'"

/-- The first findings of each place and message. -/
def distinct (fs : List Finding) : List Finding :=
  distinctBy (fun f => (f.start, f.message)) fs

/-- The diagnostic of a finding, which also points at the boundary. -/
def diagnostic (f : Finding) : Diagnostic where
  pos := f.start
  stop := some f.stop
  category := "crossthread"
  message := f.message
  related := [{
    pos := f.boundary
    message := "thread " ++ Text.quoted f.tag.text ++ " entered here from thread " ++
      Text.quoted f.rootTag.text }]

end Finding

end ThreadAffinity
