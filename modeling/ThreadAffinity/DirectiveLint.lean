/-
The checker of directives: those that cannot take effect are reported.

In the doc comment of a function a directive has to be of a known kind, to give a tag,
to be the first such directive of its kind and, if it dispatches, to belong to a
function with a callback.  Anywhere else it has no effect at all.  Ignore directives
are no concern of this checker.
-/
import ThreadAffinity.Ignore
import ThreadAffinity.Text.Quoted

namespace ThreadAffinity

open Text

namespace DirectiveLint

/-- Why a directive has no effect. -/
inductive Fault where
  | unknown (directive : String)
  | missingTag (directive : String)
  | duplicate (directive : String)
  | noCallback (function directive : String)
  | misplaced (directive : String)
deriving DecidableEq, Repr

/-- The wording of a fault. -/
def Fault.message : Fault → String
  | unknown directive => "unknown directive " ++ quoted directive
  | missingTag directive => quoted directive ++ " directive requires a thread tag"
  | duplicate directive => "duplicate " ++ quoted directive ++ " directive; the first one is used"
  | noCallback function directive =>
    "function " ++ quoted function ++ " has " ++ quoted directive ++
      " directive but takes no func argument"
  | misplaced directive => quoted directive ++ " directive must be in the doc comment of a function"

/-- The directive in a comment, unless it is an ignore directive. -/
def directive? (c : Comment) : Option Directive :=
  (Directive.ofComment? c.text).filter (·.name ≠ Ignore.directiveName)

/-- What is wrong with a directive of a doc comment, given the kinds already in effect there. -/
def docFault? (d : FuncDecl) (seen : List Kind) (directive : Directive) : Option Fault :=
  match directive.kind? with
  | none => some (.unknown directive.name)
  | some kind =>
    if directive.arg = "" then some (.missingTag directive.name)
    else if kind ∈ seen then some (.duplicate directive.name)
    else if kind = .dispatch ∧ ! d.func.any Func.hasCallback then
      some (.noCallback d.name directive.name)
    else none

/-- The kinds in effect after a directive of a doc comment. -/
def seenAfter (seen : List Kind) (directive : Directive) : List Kind :=
  match directive.kind? with
  | some kind => if directive.arg = "" then seen else kind :: seen
  | none => seen

/-- The faults in a doc comment, each with its comment. -/
def docFaults (d : FuncDecl) (seen : List Kind) : List Comment → List (Comment × Fault)
  | [] => []
  | c :: cs =>
    match directive? c with
    | none => docFaults d seen cs
    | some directive =>
      ((docFault? d seen directive).map (c, ·)).toList ++ docFaults d (seenAfter seen directive) cs

/-- What is wrong with a directive that is in no doc comment of a function. -/
def strayFault (directive : Directive) : Fault :=
  match directive.kind? with
  | none => .unknown directive.name
  | some _ => .misplaced directive.name

/-- The faults in comments that are in no doc comment of a function. -/
def strayFaults (comments : List Comment) : List (Comment × Fault) :=
  comments.filterMap fun c => (directive? c).map fun d => (c, strayFault d)

/-- The comments of a file that are in no doc comment of a function. -/
def strayComments (f : SourceFile) : List Comment :=
  ((f.comments.zipIdx).filter fun (_, i) => ! f.funcs.any (·.doc == some i)).flatMap (·.1)

/-- The faults of a file: doc comments first, then all other comments. -/
def faults (f : SourceFile) : List (Comment × Fault) :=
  (f.funcs.flatMap fun d => docFaults d [] (f.doc d)) ++ strayFaults (strayComments f)

end DirectiveLint

end ThreadAffinity
