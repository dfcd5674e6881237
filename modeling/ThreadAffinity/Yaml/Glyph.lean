/-
Characters with their places.

Reading depends on lines and columns everywhere: indentation decides nesting, and a
key has to stand on one line with its colon.  So the text is laid out once as a list
of characters that know where they stand, and all reading is recursion on that list.
Every line end that counts as one is the single character `\n` here, except for the
two separators that keep their own character.
-/
namespace ThreadAffinity.Yaml

/-- A character of the document and where it stands; lines count from one, columns from zero. -/
structure Glyph where
  char : Char
  line : Nat
  column : Nat
deriving Repr, Inhabited

/-- A space or a tab. -/
def isSpace (c : Char) : Bool :=
  c == ' ' || c == '\t'

/-- A line end, once line ends are unified. -/
def isBreak (c : Char) : Bool :=
  c == '\n' || c == '\u2028' || c == '\u2029'

/-- A character that may stand in a document. -/
def isAllowed (c : Char) : Bool :=
  let k := c.toNat
  k == 0x09 || k == 0x0A || k == 0x0D || (0x20 ≤ k && k ≤ 0x7E) || k == 0x85 ||
    (0xA0 ≤ k && k ≤ 0xFFFD) || 0x10000 ≤ k

/-- Unifies the line ends of a text. -/
def unifyBreaks : List Char → List Char
  | [] => []
  | '\r' :: '\n' :: cs => '\n' :: unifyBreaks cs
  | c :: cs => (if c == '\r' || c == '\u0085' then '\n' else c) :: unifyBreaks cs

/-- Gives every character its place, from a given one on. -/
def placeFrom (line column : Nat) : List Char → List Glyph
  | [] => []
  | c :: cs =>
    { char := c, line, column } ::
      if isBreak c then placeFrom (line + 1) 0 cs else placeFrom line (column + 1) cs

/-- The characters of a text with their places; a byte order mark in front is dropped. -/
def glyphs (text : List Char) : List Glyph :=
  placeFrom 1 0 (unifyBreaks (match text with | '\ufeff' :: cs => cs | cs => cs))

/-- Whether the text ends here or goes on with a space, a tab or a line end. -/
def atGap : List Glyph → Bool
  | [] => true
  | g :: _ => isSpace g.char || isBreak g.char

/-- Whether a line that starts a new document, or ends this one, stands here. -/
def atDocumentMark : List Glyph → Bool
  | a :: b :: c :: rest =>
    a.column == 0 && a.char == b.char && b.char == c.char &&
      (a.char == '-' || a.char == '.') && atGap rest
  | _ => false

/-- Whether a given sign stands here with a gap behind it. -/
def atSign (sign : Char) : List Glyph → Bool
  | g :: rest => g.char == sign && atGap rest
  | [] => false

/-- Whether a given character stands here. -/
def atChar (c : Char) : List Glyph → Bool
  | g :: _ => g.char == c
  | [] => false

end ThreadAffinity.Yaml
