/-
Expressions as short text, the way they stand in diagnostics.

Function bodies and the elements of composite literals are left out, and so is the
layout: a struct or interface type stands on one line.
-/
import ThreadAffinity.Source.Expr

namespace ThreadAffinity

/-- What stands in front of a channel's element type. -/
def ChanDirection.text : ChanDirection → String
  | both => "chan "
  | send => "chan<- "
  | receive => "<-chan "

/-- Texts with commas between them. -/
def commaList (parts : List String) : String :=
  ", ".intercalate parts

/-- Whether an expression is left out. -/
def Expr.isAbsent : Expr → Bool
  | absent => true
  | _ => false

/-- Whether a list of results is a single type without a name. -/
def isSingleResult : List Field → Bool
  | [.mk [] _] => true
  | _ => false

/-- A signature, from the texts of its parameters and results. -/
def signatureText (params results : List String) (single : Bool) : String :=
  "(" ++ commaList params ++ ")" ++
    (if results.isEmpty then ""
    else if single then " " ++ commaList results
    else " (" ++ commaList results ++ ")")

mutual

/-- An expression as text. -/
def Expr.text : Expr → String
  | .absent => "(ast: <nil>)"
  | .ident name _ => name
  | .literal text => text
  | .funcLiteral type _ => "(" ++ type.text ++ " literal)"
  | .composite type elements =>
    type.text ++ (if elements.isEmpty then "\x7b\x7d" else "\x7b…\x7d")
  | .keyValue _ _ => "(ast: *ast.KeyValueExpr)"
  | .paren inner => "(" ++ inner.text ++ ")"
  | .selector base name _ => base.text ++ "." ++ name
  | .index base indices _ => base.text ++ "[" ++ commaList (Expr.texts indices) ++ "]"
  | .slice base low high limit full =>
    base.text ++ "[" ++ (if low.isAbsent then "" else low.text) ++ ":" ++
      (if high.isAbsent then "" else high.text) ++
      (if full then ":" ++ (if limit.isAbsent then "" else limit.text) else "") ++ "]"
  | .typeAssert base type => base.text ++ ".(" ++ type.text ++ ")"
  | .call c => c.text
  | .star inner => "*" ++ inner.text
  | .unary op operand => op ++ operand.text
  | .binary op left right => left.text ++ " " ++ op ++ " " ++ right.text
  | .arrayType length element =>
    "[" ++ (if length.isAbsent then "" else length.text) ++ "]" ++ element.text
  | .structType fields => "struct\x7b" ++ "; ".intercalate (Field.texts fields) ++ "\x7d"
  | .funcType params results =>
    "func" ++ signatureText (Field.texts params) (Field.texts results) (isSingleResult results)
  | .interfaceType fields =>
    "interface\x7b" ++ "; ".intercalate (Field.methodTexts fields) ++ "\x7d"
  | .mapType key value => "map[" ++ key.text ++ "]" ++ value.text
  | .chanType direction element => direction.text ++ element.text
  | .ellipsis element => "..." ++ (if element.isAbsent then "" else element.text)

/-- The texts of several expressions. -/
def Expr.texts : List Expr → List String
  | [] => []
  | e :: es => e.text :: Expr.texts es

/-- A call as text; the dots of a spread argument stand even without arguments. -/
def Call.text : Call → String
  | .mk fn args spread _ _ =>
    fn.text ++ "(" ++ commaList (Expr.texts args) ++ (if spread then "..." else "") ++ ")"

/-- The fields of a struct or parameter list: the names, then the type. -/
def Field.texts : List Field → List String
  | [] => []
  | .mk names type :: fields =>
    (commaList names ++ (if names.isEmpty then "" else " ") ++ type.text) :: Field.texts fields

/-- The fields of an interface; a method's signature follows its name at once. -/
def Field.methodTexts : List Field → List String
  | [] => []
  | .mk names (.funcType params results) :: fields =>
    (commaList names ++
      signatureText (Field.texts params) (Field.texts results) (isSingleResult results)) ::
      Field.methodTexts fields
  | .mk names type :: fields =>
    (commaList names ++ (if names.isEmpty then "" else " ") ++ type.text) ::
      Field.methodTexts fields

end

end ThreadAffinity
