/-
Ignore directives, and which of them were of use.

`//threadctl:ignore` silences the checkers it names, or all of them if it names none,
on its own line and on the next one.  Each directive keeps account of the checkers it
has silenced, so that one that was of no use can be reported.
-/
import ThreadAffinity.Directive
import ThreadAffinity.Source.File
import ThreadAffinity.Table

namespace ThreadAffinity

open Text

/-- The name of a checker in ignore directives. -/
abbrev CheckerName := String

namespace CheckerName

/-- The checker of calls across threads. -/
def crossthread : CheckerName := "crossthread"

/-- The checker of directives. -/
def directive : CheckerName := "directive"

/-- All checkers. -/
def all : List CheckerName := [crossthread, directive]

end CheckerName

/-- The checkers that are enabled.  A checker may be listed as one that is not. -/
abbrev EnabledCheckers := List (CheckerName × Bool)

namespace EnabledCheckers

/-- Whether a checker is listed, enabled or not. -/
def lists (enabled : EnabledCheckers) (c : CheckerName) : Bool :=
  enabled.any (·.1 == c)

/-- Whether a checker is listed as enabled. -/
def enables (enabled : EnabledCheckers) (c : CheckerName) : Bool :=
  enabled.lookup c == some true

end EnabledCheckers

/-- An ignore directive. -/
structure Ignore where
  pos : Pos
  /-- The checkers that it names; none stands for all. -/
  checkers : List CheckerName
  /-- The checkers that it has silenced so far. -/
  used : List CheckerName := []
deriving DecidableEq, Repr

/-- An ignore directive that was of no use, and for which of the checkers it names. -/
structure UnusedIgnore where
  pos : Pos
  checkers : List CheckerName
deriving DecidableEq, Repr

namespace Ignore

/-- The name of ignore directives. -/
def directiveName : String := "threadctl:ignore"

/-- The checkers in a list that is written with commas; the words are joined first. -/
def checkersOf (args : List String) : List CheckerName :=
  (((splitWhen (· == ',') (args.flatMap String.toList)).map trim).filter (! ·.isEmpty)).map
    String.ofList

/-- The checkers that a comment says to ignore, if it is an ignore directive. -/
def ofComment? (comment : String) : Option (List CheckerName) :=
  match Directive.ofComment? comment with
  | some d => if d.name = directiveName then some (checkersOf d.args) else none
  | none => none

/-- Whether the directive silences a checker. -/
def covers (i : Ignore) (c : CheckerName) : Bool :=
  i.checkers.isEmpty || i.checkers.contains c

/-- Takes note that the directive has silenced a checker. -/
def use (i : Ignore) (c : CheckerName) : Ignore :=
  { i with used := c :: i.used }

/--
What of the directive was of no use.  A directive without names is unused if it has
silenced no checker that is listed; a named checker is unused if it is not enabled or
was not silenced.
-/
def unused? (enabled : EnabledCheckers) (i : Ignore) : Option UnusedIgnore :=
  if i.checkers.isEmpty then
    if i.used.any enabled.lists then none else some { pos := i.pos, checkers := [] }
  else
    match i.checkers.filter fun c => ! (enabled.enables c && i.used.contains c) with
    | [] => none
    | names => some { pos := i.pos, checkers := names }

end Ignore

namespace UnusedIgnore

/-- The directives in the order of the source. -/
def sort (us : List UnusedIgnore) : List UnusedIgnore :=
  us.mergeSort fun u v => u.pos.le v.pos

/-- What is said about an unused directive. -/
def message (u : UnusedIgnore) : String :=
  if u.checkers.isEmpty then "unused threadctl:ignore directive"
  else "unused threadctl:ignore directive for checker(s): " ++ ", ".intercalate u.checkers

end UnusedIgnore

/-- The ignore directives of a file by the line they are shown on. -/
abbrev IgnoreTable := Table Int Ignore

namespace IgnoreTable

/-- Adds the directive of a comment, if it is one; it replaces an earlier one on its line. -/
def addComment (file : SourceFile) (table : IgnoreTable) (c : Comment) : IgnoreTable :=
  match Ignore.ofComment? c.text with
  | some checkers => Table.set (file.shown c.pos).line { pos := c.pos, checkers } table
  | none => table

/-- The ignore directives of a file. -/
def build (file : SourceFile) : IgnoreTable :=
  file.comments.flatten.foldl (addComment file) []

/-- Whether there is a directive on a line that silences a checker. -/
def coversAt (table : IgnoreTable) (line : Int) (c : CheckerName) : Bool :=
  (table.lookup line).any (·.covers c)

/-- The line of the directive that silences a checker on a line: this line, or the one before. -/
def answering? (table : IgnoreTable) (line : Int) (c : CheckerName) : Option Int :=
  if table.coversAt line c then some line
  else if table.coversAt (line - 1) c then some (line - 1)
  else none

/-- Takes note that the directive of a line has silenced a checker. -/
def use (table : IgnoreTable) (line : Int) (c : CheckerName) : IgnoreTable :=
  table.map fun (l, i) => if l = line then (l, i.use c) else (l, i)

/-- Whether a checker is to be silent on a line, and the account afterwards. -/
def shouldIgnore (table : IgnoreTable) (line : Int) (c : CheckerName) : Bool × IgnoreTable :=
  match table.answering? line c with
  | some l => (true, table.use l c)
  | none => (false, table)

/-- The directives that were of no use, in the order of the source. -/
def unused (enabled : EnabledCheckers) (table : IgnoreTable) : List UnusedIgnore :=
  UnusedIgnore.sort (table.filterMap fun (_, i) => i.unused? enabled)

/-- The lines that have a directive. -/
def lines (table : IgnoreTable) : List Int :=
  table.map (·.1)

end IgnoreTable

/-- The ignore directives of several files, by name. -/
abbrev IgnoreTables := Table String IgnoreTable

namespace IgnoreTables

/-- The tables of several files by name; a later file replaces an earlier one of its name. -/
def build (name : SourceFile → String) (files : List SourceFile) : IgnoreTables :=
  files.foldl (fun tables f => Table.set (name f) (IgnoreTable.build f) tables) []

/-- Whether a checker is to be silent on a line of a file, and the account afterwards. -/
def shouldIgnore (tables : IgnoreTables) (file : String) (line : Int) (c : CheckerName) :
    Bool × IgnoreTables :=
  match tables.lookup file with
  | none => (false, tables)
  | some table =>
    let (ignored, table') := table.shouldIgnore line c
    (ignored, Table.set file table' tables)

/-- The unused directives of the named files, file by file. -/
def unused (enabled : EnabledCheckers) (files : List String) (tables : IgnoreTables) :
    List UnusedIgnore :=
  files.flatMap fun f => (tables.lookup f).elim [] (IgnoreTable.unused enabled)

end IgnoreTables

end ThreadAffinity
