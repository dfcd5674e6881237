/-
Function specifications: functions named from outside their package.

A specification is `pkg/path.Func` or `pkg/path.Type.Method`.  The last dot ends the
package or the type; the part between the last two dots is a type if it has no
slash and starts like an exported name.
-/
import ThreadAffinity.Source.Function
import ThreadAffinity.Text.Blank
import ThreadAffinity.Text.Quoted

namespace ThreadAffinity

open Text

/-- A function of a package, or a method of a type of it. -/
structure FunctionSpec where
  package : String
  receiver : Option String := none
  name : String
deriving DecidableEq, Repr, Inhabited

namespace FunctionSpec

/-- Why a text is no specification. -/
inductive ParseError where
  /-- There is nothing but blanks. -/
  | empty
  /-- There is no dot with something on both sides. -/
  | malformed (text : String)
deriving DecidableEq, Repr

/-- The wording of a parse error. -/
def ParseError.message : ParseError → String
  | empty => "empty function specification"
  | malformed text =>
    "function specification " ++ quoted text ++ ": want pkg/path.Func or pkg/path.Type.Method"

/-- The first byte of a character's UTF-8 encoding. -/
def leadByte (c : Char) : Nat :=
  let k := c.toNat
  if k < 0x80 then k
  else if k < 0x800 then 0xC0 + k / 0x40
  else if k < 0x10000 then 0xE0 + k / 0x1000
  else 0xF0 + k / 0x40000

/-- An upper-case letter among the code points up to U+00FF. -/
def isUpperByte (b : Nat) : Bool :=
  (0x41 ≤ b && b ≤ 0x5A) || (0xC0 ≤ b && b ≤ 0xD6) || (0xD8 ≤ b && b ≤ 0xDE)

/-- Whether a segment can be a type: no slash, and the first byte an upper-case letter. -/
def isTypeSegment : List Char → Bool
  | [] => false
  | c :: cs => isUpperByte (leadByte c) && ! (c :: cs).contains '/'

/-- Splits what stands before the function's name into package and type. -/
def splitOwner (owner : List Char) : List Char × Option (List Char) :=
  match cutLast '.' owner with
  | some (package, segment) =>
    if isTypeSegment segment then (package, some segment) else (owner, none)
  | none => (owner, none)

/-- Reads a specification from text without outer blanks. -/
def ofTrimmed (text : List Char) : Except ParseError FunctionSpec :=
  if text.isEmpty then .error .empty
  else match cutLast '.' text with
    | some (owner, name) =>
      if owner.isEmpty || name.isEmpty then .error (.malformed (String.ofList text))
      else
        let (package, receiver) := splitOwner owner
        .ok {
          package := String.ofList package
          receiver := receiver.map String.ofList
          name := String.ofList name }
    | none => .error (.malformed (String.ofList text))

/-- Reads a specification; blanks around it do not matter. -/
def parse (text : String) : Except ParseError FunctionSpec :=
  ofTrimmed (trim text.toList)

/-- The specification as text. -/
def render (s : FunctionSpec) : String :=
  match s.receiver with
  | none => s.package ++ "." ++ s.name
  | some t => s.package ++ "." ++ t ++ "." ++ s.name

/--
Whether the specification names a function: same name, same package, and the same
defined type as receiver, by value or by pointer, or no receiver on either side.
-/
def matchesFunc (s : FunctionSpec) (f : Func) : Bool :=
  f.name == s.name && f.package == some s.package &&
    match s.receiver with
    | none => f.receiver.isNone
    | some t => f.receiver.bind Ty.receiverName? == some t

end FunctionSpec

end ThreadAffinity
