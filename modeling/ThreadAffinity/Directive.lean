/-
Directives: line comments that speak to the analysis.

A directive comment is `//`, optional blanks, a name that starts with `threadctl:`,
and words.  The words end at a remark, which starts with a lone dash between
blanks or with `//`.  The directives of a function's doc comment give the function
its tags; the first usable directive of a kind decides.
-/
import ThreadAffinity.Tag

namespace ThreadAffinity

open Text

/-- A directive: its name, and the words in front of any remark. -/
structure Directive where
  name : String
  args : List String
deriving DecidableEq, Repr

namespace Directive

/-- What every directive's name starts with. -/
def domain : List Char := "threadctl:".toList

/-- A character that ends the name of a directive. -/
def endsName (c : Char) : Bool :=
  c == ' ' || c == '\t'

/-- The words after the name, up to the first ` - ` or `//`, none if a dash leads them. -/
def argWords (rest : List Char) : List (List Char) :=
  match words (before ['/', '/'] (before [' ', '-', ' '] rest)) with
  | ['-'] :: _ => []
  | ws => ws

/-- The directive in a text from which the comment's slashes and outer blanks are gone. -/
def ofBody? (body : List Char) : Option Directive :=
  if domain.isPrefixOf body then
    some {
      name := String.ofList (body.takeWhile (! endsName ·))
      args := (argWords (body.dropWhile (! endsName ·))).map String.ofList }
  else none

/-- The directive in a comment, if it is a line comment that holds one. -/
def ofComment? (comment : String) : Option Directive :=
  match comment.toList with
  | '/' :: '/' :: rest => ofBody? (trim rest)
  | _ => none

/-- The first word after the name, empty if there is none. -/
def arg (d : Directive) : String :=
  d.args.headD ""

/-- The kind of tag the directive gives. -/
def kind? (d : Directive) : Option Kind :=
  Kind.ofDirective? d.name

end Directive

namespace Tags

/-- Adds the tag that a comment gives, if it holds a directive that gives one. -/
def addComment (ts : Tags) (comment : String) : Tags :=
  match Directive.ofComment? comment with
  | none => ts
  | some d => d.kind?.elim ts fun k => ts.add k (Tag.ofText d.arg)

/-- The tags that the comments of a doc comment give. -/
def ofDoc (comments : List String) : Tags :=
  comments.foldl addComment .empty

end Tags

end ThreadAffinity
