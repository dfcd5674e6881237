/-
Functions and the types in their signatures.

Only as much of a type is kept as the analysis looks at: whether it is a pointer, a
slice, a defined type or a synonym, and what its underlying type is.
-/
namespace ThreadAffinity

/-- A type, as far as receivers and parameters need it. -/
inductive Ty where
  | basic
  | func
  | struct
  | interface
  | map
  | chan
  | array (element : Ty)
  | slice (element : Ty)
  | pointer (element : Ty)
  /-- A defined type. -/
  | named (name : String) (definition : Ty)
  /-- Another name for a type. -/
  | synonym (name : String) (target : Ty)
  | typeParam
deriving DecidableEq, Repr, Inhabited

namespace Ty

/-- The type below all defined names and synonyms.  Type parameters act as interfaces. -/
def underlying : Ty → Ty
  | named _ definition => definition.underlying
  | synonym _ target => target.underlying
  | typeParam => interface
  | t => t

/-- The name of a defined type or of a pointer to one. -/
def receiverName? : Ty → Option String
  | pointer (named name _) => some name
  | named name _ => some name
  | _ => none

/-- Whether an argument for the parameter can be a function.  A variadic parameter is a slice. -/
def takesFunction : Ty → Bool
  | slice element => element.underlying == func
  | t => t.underlying == func

end Ty

/-- A function or method.  Functions are told apart by their number. -/
structure Func where
  id : Nat
  name : String
  /-- The path of its package, if it has one. -/
  package : Option String := none
  receiver : Option Ty := none
  params : List Ty := []
deriving DecidableEq, Repr, Inhabited

namespace Func

/-- The name, with the receiver's type in front of it where that is a defined type. -/
def qualifiedName (f : Func) : String :=
  match f.receiver.bind Ty.receiverName? with
  | some t => t ++ "." ++ f.name
  | none => f.name

/-- The qualified name of a function, where there may be none. -/
def nameOrUnknown (f : Option Func) : String :=
  f.elim "<unknown>" qualifiedName

/-- A method whose receiver is an interface, so that a call of it has no fixed target. -/
def isAbstract (f : Func) : Bool :=
  f.receiver.any (·.underlying == .interface)

/-- Whether some parameter can take a function. -/
def hasCallback (f : Func) : Bool :=
  f.params.any Ty.takesFunction

end Func

end ThreadAffinity
