/-
The analysis of a package.

Calls across threads come first, from root to root; then, if asked for, directives
without effect; then ignore directives without use.  A diagnostic of the first two
sorts is asked about at the ignore directives before it is reported, and that keeps
their account.
-/
import ThreadAffinity.DirectiveLint
import ThreadAffinity.Finding
import ThreadAffinity.Program
import ThreadAffinity.Source.Printer

namespace ThreadAffinity

/-- What is to be analysed, and how. -/
structure Request where
  package : Package
  sources : ExternalSources := {}
  /-- Whether to check directives too. -/
  lint : Bool := false
  /-- Whether the package has been traversed for its declarations. -/
  inspected : Bool := true

/-- Why a package is not analysed. -/
inductive AnalysisError where
  /-- The package has not been traversed. -/
  | notInspected
  /-- The external tags cannot be had. -/
  | external (cause : ExternalError)
deriving DecidableEq, Repr

/-- The wording of an error. -/
def AnalysisError.message : AnalysisError → String
  | notInspected => "inspector analyzer result not found"
  | external cause => cause.message

/-- A diagnostic that an ignore directive may suppress, and where to look for one. -/
structure Pending where
  file : String
  line : Int
  diagnostic : Diagnostic

namespace IgnoreTables

/-- Asks about diagnostics one after the other; gives those that stay, and the account. -/
def sift (checker : CheckerName) : List Pending → IgnoreTables → List Diagnostic × IgnoreTables
  | [], tables => ([], tables)
  | p :: ps, tables =>
    let (ignored, tables') := tables.shouldIgnore p.file p.line checker
    let (kept, tables'') := sift checker ps tables'
    (if ignored then kept else p.diagnostic :: kept, tables'')

end IgnoreTables

namespace Package

variable (p : Package)

/-- The index of the package's functions. -/
def tagIndex (external : List External) : TagIndex :=
  TagIndex.build (p.funcDecls.map fun (d, doc) => (d.func, doc)) external

/-- The program of the package; generated files take part in it. -/
def program (external : List External) : Program :=
  Program.build (p.funcDecls.map (·.1)) (p.tagIndex external)

/-- The roots that are checked: those declared in files that are not generated. -/
def checkedRoots (prog : Program) : List (Fin prog.size) :=
  let skipped := p.skipped
  prog.roots.filter fun i => (prog.members.get i).decl.all fun d =>
    ! skipped.contains (p.shown d.pos).file

/-- How the calls of a program are seen. -/
def callView (prog : Program) (s : SiteId prog.size) : CallView :=
  match prog.call? s with
  | some c => { start := c.start, stop := c.stop, text := c.text }
  | none => default

/-- The calls across threads, from root to root. -/
def findings (external : List External) : List Finding :=
  let prog := p.program external
  let graph := prog.graph
  Finding.distinct <| (p.checkedRoots prog).flatMap fun root =>
    (graph.violations root).map (Finding.ofViolation (callView prog))

/-- The diagnostics for calls across threads. -/
def crossings (external : List External) : List Pending :=
  (p.findings external).map fun f =>
    let place := p.shown f.start
    { file := place.file, line := place.line, diagnostic := f.diagnostic }

/-- The files that are not generated. -/
def checkedFiles : List SourceFile :=
  let skipped := p.skipped
  p.files.filter fun f => ! skipped.contains f.shownName

/-- The diagnostics for directives without effect. -/
def lintReports : List Pending :=
  p.checkedFiles.flatMap fun f => (DirectiveLint.faults f).map fun (c, fault) =>
    { file := f.shownName
      line := (p.shown c.pos).line
      diagnostic := { pos := c.pos, message := fault.message } }

/-- The ignore directives of the files that are not generated. -/
def ignoreTables : IgnoreTables :=
  IgnoreTables.build (·.shownName) p.checkedFiles

/-- The checkers that run. -/
def enabledCheckers (lint : Bool) : EnabledCheckers :=
  (CheckerName.crossthread, true) :: if lint then [(CheckerName.directive, true)] else []

/-- The diagnostics for ignore directives without use. -/
def unusedReports (lint : Bool) (tables : IgnoreTables) : List Diagnostic :=
  (tables.unused (enabledCheckers lint) (p.files.map (·.shownName))).map fun u =>
    { pos := u.pos, message := u.message }

/-- All diagnostics of the package. -/
def diagnostics (external : List External) (lint : Bool) : List Diagnostic :=
  let (crossing, tables) := p.ignoreTables.sift CheckerName.crossthread (p.crossings external)
  let (linted, tables) :=
    if lint then tables.sift CheckerName.directive p.lintReports else ([], tables)
  crossing ++ linted ++ p.unusedReports lint tables

end Package

/-- Analyses a package.  Nothing is reported if it cannot be done. -/
def analyze (r : Request) : Except AnalysisError (List Diagnostic) :=
  if r.inspected then
    match External.load r.sources with
    | .ok external => .ok (r.package.diagnostics external r.lint)
    | .error cause => .error (.external cause)
  else .error .notInspected

theorem diagnostics_of_analyze {r : Request} {ds : List Diagnostic} (h : analyze r = .ok ds) :
    ∃ external, External.load r.sources = .ok external ∧
      ds = r.package.diagnostics external r.lint := by
  unfold analyze at h
  split at h
  · split at h
    · rename_i external hload
      exact ⟨external, hload, (Except.ok.inj h).symm⟩
    · cases h
  · cases h

end ThreadAffinity
