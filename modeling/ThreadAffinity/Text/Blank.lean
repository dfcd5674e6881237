/-
White space in directives, specifications and tags.

A blank is a character with the Unicode property White_Space; there are
twenty-five of them.  Trimming and word splitting are defined on character lists,
where they are compositions of `dropWhile` and `filter`, and are then carried over
to `String`.
-/
import ThreadAffinity.Text.Split

namespace ThreadAffinity.Text

/-- A character with the Unicode property White_Space. -/
def isBlank (c : Char) : Bool :=
  let k := c.toNat
  (0x09 ≤ k && k ≤ 0x0D) || k == 0x20 || k == 0x85 || k == 0xA0 || k == 0x1680 ||
    (0x2000 ≤ k && k ≤ 0x200A) || k == 0x2028 || k == 0x2029 || k == 0x202F ||
    k == 0x205F || k == 0x3000

/-- The text without the blanks in front of it. -/
def trimStart (text : List Char) : List Char :=
  text.dropWhile isBlank

/-- The text without the blanks behind it. -/
def trimEnd (text : List Char) : List Char :=
  (text.reverse.dropWhile isBlank).reverse

/-- The text without the blanks around it. -/
def trim (text : List Char) : List Char :=
  trimEnd (trimStart text)

/-- The words of a text: its maximal runs without a blank, in order. -/
def words (text : List Char) : List (List Char) :=
  (splitWhen isBlank text).filter (! ·.isEmpty)

/-- The string without the blanks around it. -/
def trimmed (s : String) : String :=
  String.ofList (trim s.toList)

/-! ### What trimming leaves -/

@[simp] theorem trimEnd_nil : trimEnd [] = [] := rfl

@[simp] theorem trim_nil : trim [] = [] := rfl

@[simp] theorem toList_trimmed (s : String) : (trimmed s).toList = trim s.toList :=
  String.toList_ofList

end ThreadAffinity.Text
