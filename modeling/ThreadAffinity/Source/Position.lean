/-
Where things stand in the source.

A `Pos` is a physical place: the number of a file, a line and a column.  Physical
places are ordered, and two findings are at the same place only if the physical
places agree.  A `Position` is a place as it is shown, after the line directives of
the file have renamed files and renumbered lines.
-/
namespace ThreadAffinity

/-- A physical place: a file by its number in the package, a line and a column. -/
structure Pos where
  file : Nat := 0
  line : Nat
  column : Nat
deriving DecidableEq, Repr, Inhabited

namespace Pos

/-- Whether a place is before another one or equal to it. -/
def le (a b : Pos) : Bool :=
  a.file < b.file || (a.file == b.file &&
    (a.line < b.line || (a.line == b.line && a.column ≤ b.column)))

end Pos

/-- A place as it is shown. -/
structure Position where
  file : String
  line : Int
  column : Nat
deriving DecidableEq, Repr, Inhabited

namespace Position

/-- The place written as file, line and column. -/
def render (p : Position) : String :=
  p.file ++ ":" ++ toString p.line ++ ":" ++ toString p.column

end Position

/-- A line directive: from physical line `line` on, lines count from `target` in `file`. -/
structure LineDirective where
  line : Nat
  file : String
  target : Int
deriving Repr, Inhabited

namespace LineDirective

/--
How a physical line and column of a file are shown.  The last directive at or
before the line decides; it also hides the column.
-/
def shown (name : String) (directives : List LineDirective) (line column : Nat) : Position :=
  match (directives.filter (·.line ≤ line)).getLast? with
  | none => { file := name, line := line, column := column }
  | some d => { file := d.file, line := d.target + (line - d.line : Nat), column := 0 }

end LineDirective

end ThreadAffinity
