/-
Quoted text, as it stands in error messages and diagnostics.

Double quotes stand around the text; a quote or a backslash inside is escaped, the
seven control characters with a letter of their own are written with it, and any
other character that is not printable is written by its code point in hexadecimal.
-/
import ThreadAffinity.Text.Printable

namespace ThreadAffinity.Text

/-- The digit of a number below sixteen, in lower case. -/
def hexDigit (k : Nat) : Char :=
  if k < 10 then Char.ofNat ('0'.toNat + k) else Char.ofNat ('a'.toNat + (k - 10))

/-- The last `width` hexadecimal digits of a number, most significant first. -/
def hexDigits : Nat → Nat → List Char
  | 0, _ => []
  | width + 1, k => hexDigits width (k / 16) ++ [hexDigit (k % 16)]

/-- The escape by code point: two digits for ASCII, four up to U+FFFF, eight above. -/
def escapeCode (c : Char) : List Char :=
  let k := c.toNat
  if k < 0x80 then '\\' :: 'x' :: hexDigits 2 k
  else if k < 0x10000 then '\\' :: 'u' :: hexDigits 4 k
  else '\\' :: 'U' :: hexDigits 8 k

/-- How one character is written between the quotes. -/
def quotedChar (c : Char) : List Char :=
  match c with
  | '"' => ['\\', '"']
  | '\\' => ['\\', '\\']
  | '\x07' => ['\\', 'a']
  | '\x08' => ['\\', 'b']
  | '\x0c' => ['\\', 'f']
  | '\n' => ['\\', 'n']
  | '\r' => ['\\', 'r']
  | '\t' => ['\\', 't']
  | '\x0b' => ['\\', 'v']
  | c => if isPrintable c then [c] else escapeCode c

/-- The text between double quotes, with every character that needs it escaped. -/
def quoted (s : String) : String :=
  String.ofList ('"' :: s.toList.flatMap quotedChar ++ ['"'])

end ThreadAffinity.Text
