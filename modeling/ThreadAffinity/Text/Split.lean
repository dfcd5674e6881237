/-
Cutting text at separators.

`splitWhen` cuts at every separator, `cutFirst` at the first one, `cutLast` at the
last one, and `before` at the first place where a whole marker stands.  All of them
are structural recursions on the characters, so what they do to an appended or
extended text can be read off by induction.
-/
namespace ThreadAffinity.Text

/--
The pieces of a text between its separators, empty pieces included.  There is
always one more piece than there are separators.
-/
def splitWhen (p : Char → Bool) : List Char → List (List Char)
  | [] => [[]]
  | c :: cs =>
    if p c then [] :: splitWhen p cs
    else match splitWhen p cs with
      | [] => [[c]]
      | piece :: pieces => (c :: piece) :: pieces

/-- The text before and after the first separator, if there is one. -/
def cutFirst (sep : Char) : List Char → Option (List Char × List Char)
  | [] => none
  | c :: cs =>
    if c = sep then some ([], cs)
    else (cutFirst sep cs).map fun (front, back) => (c :: front, back)

/-- The text before and after the last separator, if there is one. -/
def cutLast (sep : Char) : List Char → Option (List Char × List Char)
  | [] => none
  | c :: cs =>
    match cutLast sep cs with
    | some (front, back) => some (c :: front, back)
    | none => if c = sep then some ([], cs) else none

/-- The text in front of the first occurrence of a marker, or the whole text. -/
def before (marker : List Char) : List Char → List Char
  | [] => []
  | c :: cs => if marker.isPrefixOf (c :: cs) then [] else c :: before marker cs

end ThreadAffinity.Text
