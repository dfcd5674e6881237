/-
What a document says: scalars, sequences and mappings, each with the line it starts on.

A plain scalar has a type that its text decides.  Only the names of these types, and
whether a scalar is null, matter to a reader that wants text.
-/
namespace ThreadAffinity.Yaml

/-- A value of a document. -/
inductive Node where
  | scalar (line : Nat) (isPlain : Bool) (text : String)
  | sequence (line : Nat) (items : List Node)
  | mapping (line : Nat) (entries : List (Node × Node))
deriving Repr, Inhabited

/-- The types a scalar can have. -/
inductive ScalarType where
  | null
  | bool
  | int
  | float
  | timestamp
  | str
deriving DecidableEq, Repr

namespace ScalarType

/-- The short name of the type's tag. -/
def tagName : ScalarType → String
  | null => "!!null"
  | bool => "!!bool"
  | int => "!!int"
  | float => "!!float"
  | timestamp => "!!timestamp"
  | str => "!!str"

/-- Whether a text is a number of digits below a base, at least one. -/
def isNumeral (base : Nat) (digits : List Char) : Bool :=
  ! digits.isEmpty && digits.all fun c =>
    if c.isDigit then c.toNat - '0'.toNat < base
    else if 'a' ≤ c ∧ c ≤ 'f' then 10 ≤ base && c.toNat - 'a'.toNat + 10 < base
    else if 'A' ≤ c ∧ c ≤ 'F' then 10 ≤ base && c.toNat - 'A'.toNat + 10 < base
    else false

/-- The value of a numeral. -/
def numeralValue (base : Nat) (digits : List Char) : Nat :=
  digits.foldl (fun v c =>
    v * base + (if c.isDigit then c.toNat - '0'.toNat else c.toLower.toNat - 'a'.toNat + 10)) 0

/-- The base and the digits of an integer without sign. -/
def splitBase : List Char → Nat × List Char
  | '0' :: c :: digits =>
    if c == 'x' || c == 'X' then (16, digits)
    else if c == 'b' || c == 'B' then (2, digits)
    else if c == 'o' || c == 'O' then (8, digits)
    else (8, c :: digits)
  | digits => (10, digits)

/-- Whether a text is an integer of 64 bits, with or without sign. -/
def isInteger (text : List Char) : Bool :=
  let (sign, digits) :=
    match text with
    | '+' :: ds => (some '+', ds)
    | '-' :: ds => (some '-', ds)
    | ds => (none, ds)
  let (base, numeral) := splitBase digits
  isNumeral base numeral &&
    match sign with
    | none => numeralValue base numeral < Nat.pow 2 64
    | some '-' => numeralValue base numeral ≤ Nat.pow 2 63
    | some _ => numeralValue base numeral < Nat.pow 2 63

/-- Whether a text is empty or an exponent. -/
def isExponent : List Char → Bool
  | [] => true
  | e :: rest =>
    (e == 'e' || e == 'E') &&
      match rest with
      | '+' :: ds => isNumeral 10 ds
      | '-' :: ds => isNumeral 10 ds
      | ds => isNumeral 10 ds

/-- Whether a text is a decimal number, with or without point and exponent. -/
def isDecimal (text : List Char) : Bool :=
  let unsigned :=
    match text with
    | '+' :: ds => ds
    | '-' :: ds => ds
    | ds => ds
  let whole := unsigned.takeWhile Char.isDigit
  let behind := unsigned.dropWhile Char.isDigit
  match behind with
  | '.' :: ds =>
    let fraction := ds.takeWhile Char.isDigit
    (! whole.isEmpty || ! fraction.isEmpty) && isExponent (ds.dropWhile Char.isDigit)
  | ds => ! whole.isEmpty && isExponent ds

/-- Whether a text names a number without digits: an infinity, or no number. -/
def isSpecialFloat (text : String) : Bool :=
  [".inf", ".Inf", ".INF", "+.inf", "+.Inf", "+.INF", "-.inf", "-.Inf", "-.INF",
    ".nan", ".NaN", ".NAN"].contains text

/-- The number of days of a month. -/
def daysIn (year month : Nat) : Nat :=
  if month == 2 then
    if year % 4 == 0 && (year % 100 != 0 || year % 400 == 0) then 29 else 28
  else if month == 4 || month == 6 || month == 9 || month == 11 then 30
  else 31

/-- Whether a text is a date: a year of four digits, a month and a day. -/
def isDate (text : List Char) : Bool :=
  let year := text.takeWhile Char.isDigit
  match text.dropWhile Char.isDigit with
  | '-' :: rest =>
    let month := rest.takeWhile Char.isDigit
    match rest.dropWhile Char.isDigit with
    | '-' :: day =>
      let y := numeralValue 10 year
      let m := numeralValue 10 month
      let d := numeralValue 10 day
      year.length == 4 && isNumeral 10 month && isNumeral 10 day &&
        month.length ≤ 2 && day.length ≤ 2 && 1 ≤ m && m ≤ 12 && 1 ≤ d && d ≤ daysIn y m
    | _ => false
  | _ => false

/-- The type of a plain scalar. -/
def ofPlain (text : String) : ScalarType :=
  if ["", "~", "null", "Null", "NULL"].contains text then null
  else if ["true", "True", "TRUE", "false", "False", "FALSE"].contains text then bool
  else if isSpecialFloat text then float
  else if isDate text.toList then timestamp
  else
    let digits := text.toList.filter (· != '_')
    if text.toList.head?.any (fun c => c.isDigit || c == '+' || c == '-') && isInteger digits
    then int
    else if isDecimal digits then float
    else str

end ScalarType

namespace Node

/-- The line on which a value starts. -/
def line : Node → Nat
  | scalar l _ _ => l
  | sequence l _ => l
  | mapping l _ => l

/-- A scalar's text; empty for a collection. -/
def text : Node → String
  | scalar _ _ t => t
  | _ => ""

/-- The type of a scalar; quoted and block scalars are always text. -/
def scalarType (isPlain : Bool) (text : String) : ScalarType :=
  if isPlain then ScalarType.ofPlain text else .str

/-- Whether a value is null. -/
def isNull : Node → Bool
  | scalar _ isPlain t => scalarType isPlain t == .null
  | _ => false

/-- Whether two values are of one kind and, if scalars, of one text. -/
def sameKey : Node → Node → Bool
  | scalar _ _ t, scalar _ _ u => t == u
  | sequence _ _, sequence _ _ => true
  | mapping _ _, mapping _ _ => true
  | _, _ => false

end Node

end ThreadAffinity.Yaml
