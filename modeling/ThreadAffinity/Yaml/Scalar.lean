/-
Scalars: plain, quoted and block text.

Plain and quoted scalars may run over several lines.  A line end inside them becomes
a space, and blank lines in between become line ends.  Block scalars keep their line
ends, or fold them, as their header says.  All readers take the text from the first
character of the scalar on and give back the text behind it; they fail on a document
that is malformed there.
-/
import ThreadAffinity.Yaml.Glyph

namespace ThreadAffinity.Yaml

/-! ### White space inside a scalar -/

/-- White space that has been passed inside a scalar and is not written yet. -/
structure Pause where
  /-- Spaces and tabs before any line end, last first. -/
  spaces : List Char := []
  /-- Whether the line has ended. -/
  broke : Bool := false
  /-- The line end that came first, unless it was escaped. -/
  first : Option Char := none
  /-- The line ends after the first one, last first. -/
  later : List Char := []
deriving Repr, Inhabited

namespace Pause

/-- Passes a space or a tab; on a new line it is indentation. -/
def space (p : Pause) (c : Char) : Pause :=
  if p.broke then p else { p with spaces := c :: p.spaces }

/-- Passes a line end. -/
def lineEnd (p : Pause) (c : Char) : Pause :=
  if p.broke then { p with later := c :: p.later }
  else { broke := true, first := some c }

/-- Whether anything has been passed. -/
def isEmpty (p : Pause) : Bool :=
  ! p.broke && p.spaces.isEmpty

/-- What is written for the white space: a lone line end is folded to a space. -/
def text (p : Pause) : List Char :=
  if p.broke then
    match p.first with
    | some '\n' => if p.later.isEmpty then [' '] else p.later.reverse
    | some c => c :: p.later.reverse
    | none => p.later.reverse
  else p.spaces.reverse

/-- Appends the white space to characters collected last first. -/
def onto (p : Pause) (collected : List Char) : List Char :=
  p.text.reverse ++ collected

end Pause

/-- A scalar that has been read, with what follows it. -/
structure Scanned where
  text : List Char
  rest : List Glyph
  /-- Whether a line end was passed behind the scalar. -/
  broke : Bool := false
deriving Repr, Inhabited

/-! ### Quoted scalars -/

/-- Reads a single-quoted scalar from behind its opening quote.  Two quotes stand for one. -/
def singleQuoted (collected : List Char) (pause : Pause) : List Glyph → Option Scanned
  | [] => none
  | g :: gs =>
    if isSpace g.char then singleQuoted collected (pause.space g.char) gs
    else if isBreak g.char then singleQuoted collected (pause.lineEnd g.char) gs
    else if atDocumentMark (g :: gs) then none
    else if g.char == '\x27' then
      match gs with
      | [] => some { text := (pause.onto collected).reverse, rest := gs }
      | q :: qs =>
        if q.char == '\x27' then singleQuoted ('\x27' :: pause.onto collected) {} qs
        else some { text := (pause.onto collected).reverse, rest := q :: qs }
    else singleQuoted (g.char :: pause.onto collected) {} gs

/-- How far an escape sequence has been read. -/
inductive Escape where
  /-- No escape is open. -/
  | closed
  /-- The backslash has been read. -/
  | opened
  /-- A code point with so many digits still to come, and its value so far. -/
  | code (left value : Nat)

/-- The character that a letter behind a backslash stands for. -/
def escaped? : Char → Option Char
  | '0' => some '\x00'
  | 'a' => some '\x07'
  | 'b' => some '\x08'
  | 't' => some '\t'
  | '\t' => some '\t'
  | 'n' => some '\n'
  | 'v' => some '\x0b'
  | 'f' => some '\x0c'
  | 'r' => some '\r'
  | 'e' => some '\x1b'
  | ' ' => some ' '
  | '"' => some '"'
  | '\x27' => some '\x27'
  | '\\' => some '\\'
  | 'N' => some '\u0085'
  | '_' => some '\u00a0'
  | 'L' => some '\u2028'
  | 'P' => some '\u2029'
  | _ => none

/-- The number of digits of the code point that a letter behind a backslash announces. -/
def codeLength? : Char → Option Nat
  | 'x' => some 2
  | 'u' => some 4
  | 'U' => some 8
  | _ => none

/-- The value of a hexadecimal digit. -/
def hexValue? (c : Char) : Option Nat :=
  if '0' ≤ c ∧ c ≤ '9' then some (c.toNat - '0'.toNat)
  else if 'a' ≤ c ∧ c ≤ 'f' then some (c.toNat - 'a'.toNat + 10)
  else if 'A' ≤ c ∧ c ≤ 'F' then some (c.toNat - 'A'.toNat + 10)
  else none

/-- The character with a code point, unless that is a surrogate or too large. -/
def charOfCode? (k : Nat) : Option Char :=
  if k.isValidChar then some (Char.ofNat k) else none

/-- Reads a double-quoted scalar from behind its opening quote. -/
def doubleQuoted (collected : List Char) (pause : Pause) (escape : Escape) :
    List Glyph → Option Scanned
  | [] => none
  | g :: gs =>
    match escape with
    | .closed =>
      if isSpace g.char then doubleQuoted collected (pause.space g.char) .closed gs
      else if isBreak g.char then doubleQuoted collected (pause.lineEnd g.char) .closed gs
      else if atDocumentMark (g :: gs) then none
      else if g.char == '"' then some { text := (pause.onto collected).reverse, rest := gs }
      else if g.char == '\\' then doubleQuoted (pause.onto collected) {} .opened gs
      else doubleQuoted (g.char :: pause.onto collected) {} .closed gs
    | .opened =>
      if isBreak g.char then doubleQuoted collected { broke := true } .closed gs
      else match escaped? g.char with
        | some c => doubleQuoted (c :: collected) {} .closed gs
        | none =>
          match codeLength? g.char with
          | some digits => doubleQuoted collected {} (.code digits 0) gs
          | none => none
    | .code left value =>
      match hexValue? g.char with
      | none => none
      | some d =>
        if 1 < left then doubleQuoted collected {} (.code (left - 1) (value * 16 + d)) gs
        else match charOfCode? (value * 16 + d) with
          | some c => doubleQuoted (c :: collected) {} .closed gs
          | none => none

/-! ### Plain scalars -/

/-- Whether a character shapes flow collections, so that it ends plain text inside one. -/
def isFlowSign (c : Char) : Bool :=
  c == ',' || c == '[' || c == ']' || c == '\x7b' || c == '\x7d'

/-- Whether plain text ends here: at a colon with a gap behind it or at a flow sign. -/
def endsPlain (flow : Bool) : List Glyph → Bool
  | [] => true
  | g :: gs =>
    (g.char == ':' && atGap gs) ||
      (flow && (isFlowSign g.char || (g.char == '?' && atGap gs)))

/-- A character that plain text cannot start with. -/
def isIndicator (c : Char) : Bool :=
  isFlowSign c || "-?:#&*!|>'\"%@\x60".toList.contains c

/-- Whether plain text can start here. -/
def startsPlain (flow : Bool) : List Glyph → Bool
  | [] => false
  | g :: gs =>
    (! isSpace g.char && ! isBreak g.char && ! isIndicator g.char) ||
      (g.char == '-' && ! atGap gs) ||
      (! flow && (g.char == '?' || g.char == ':') && ! atGap gs)

/--
Reads plain text.  In block context a line that starts left of `floor` is no longer
part of it, and neither is a comment or the start of another document.
-/
def plain (flow : Bool) (floor : Nat) (collected : List Char) (pause : Pause) :
    List Glyph → Option Scanned
  | [] => some { text := collected.reverse, rest := [], broke := pause.broke }
  | g :: gs =>
    if isSpace g.char then
      if pause.broke && g.char == '\t' && g.column < floor then none
      else plain flow floor collected (pause.space g.char) gs
    else if isBreak g.char then plain flow floor collected (pause.lineEnd g.char) gs
    else if (! pause.isEmpty &&
        ((! flow && g.column < floor) || g.char == '#' || atDocumentMark (g :: gs))) ||
        endsPlain flow (g :: gs) then
      some { text := collected.reverse, rest := g :: gs, broke := pause.broke }
    else plain flow floor (g.char :: pause.onto collected) {} gs

/-! ### Block scalars -/

/-- What becomes of the line ends behind a block scalar's last line. -/
inductive Chomping where
  | strip
  | clip
  | keep
deriving DecidableEq

/-- The header of a block scalar. -/
structure BlockHeader where
  literal : Bool
  chomping : Chomping := .clip
  /-- The indentation, counted from the surrounding block, where the header gives it. -/
  indent : Option Nat := none

/-- Reads the signs of a block scalar's header: how to chomp, and how deep to indent. -/
def blockSigns (header : BlockHeader) (chomped : Bool) :
    List Glyph → Option (BlockHeader × List Glyph)
  | [] => some (header, [])
  | g :: gs =>
    if ! chomped && g.char == '+' then blockSigns { header with chomping := .keep } true gs
    else if ! chomped && g.char == '-' then blockSigns { header with chomping := .strip } true gs
    else if header.indent.isNone && g.char.isDigit then
      if g.char == '0' then none
      else blockSigns { header with indent := some (g.char.toNat - '0'.toNat) } chomped gs
    else some (header, g :: gs)

/-- Passes what may follow the header on its line: blanks, and a comment. -/
def blockHeaderEnd (comment : Bool) : List Glyph → Option (List Glyph)
  | [] => some []
  | g :: gs =>
    if isBreak g.char then some gs
    else if comment then blockHeaderEnd true gs
    else if isSpace g.char then blockHeaderEnd false gs
    else if g.char == '#' then blockHeaderEnd true gs
    else none

/-- Blank lines in front of a line of a block scalar. -/
structure BlankLines where
  rest : List Glyph
  /-- The line ends, last first. -/
  breaks : List Char
  /-- The deepest indentation seen. -/
  deepest : Nat

/--
Passes indentation and blank lines.  A tab that stands where indentation is still to
come is refused; without a known depth that is every tab.
-/
def blankLines (indent : Option Nat) (breaks : List Char) (deepest : Nat) :
    List Glyph → Option BlankLines
  | [] => some { rest := [], breaks, deepest }
  | g :: gs =>
    let shallow := indent.all (g.column < ·)
    if g.char == ' ' && shallow then blankLines indent breaks (max deepest (g.column + 1)) gs
    else if g.char == '\t' && shallow then none
    else if isBreak g.char then blankLines indent (g.char :: breaks) deepest gs
    else some { rest := g :: gs, breaks, deepest }

/-- The lines of a block scalar that have been read. -/
structure BlockText where
  /-- The characters, last first. -/
  collected : List Char := []
  /-- The line end behind the last line. -/
  lineEnd : List Char := []
  /-- The blank lines behind that, last first. -/
  blankEnds : List Char := []
  /-- Whether the last line started with a blank. -/
  indented : Bool := false

/-- Writes what stands between the last line and a new one, which may start with a blank. -/
def BlockText.join (b : BlockText) (literal nextIndented : Bool) : List Char :=
  let joint :=
    if ! literal && ! b.indented && ! nextIndented && b.lineEnd == ['\n'] then
      if b.blankEnds.isEmpty then [' '] else []
    else b.lineEnd
  b.blankEnds ++ joint ++ b.collected

/-- Reads the lines of a block scalar at depth `indent`, at most `fuel` of them. -/
def blockLines (literal : Bool) (indent : Nat) :
    (fuel : Nat) → BlockText → List Glyph → Option (BlockText × List Glyph)
  | 0, b, gs => some (b, gs)
  | _ + 1, b, [] => some (b, [])
  | fuel + 1, b, g :: gs =>
    if g.column == indent then
      let nextIndented := isSpace g.char
      let line := (g :: gs).takeWhile (! isBreak ·.char)
      let behind := (g :: gs).dropWhile (! isBreak ·.char)
      let lineEnd := (behind.take 1).map (·.char)
      match blankLines (some indent) [] 0 (behind.drop 1) with
      | none => none
      | some blanks =>
        blockLines literal indent fuel {
          collected := (line.map (·.char)).reverse ++ b.join literal nextIndented
          lineEnd := lineEnd
          blankEnds := blanks.breaks
          indented := nextIndented } blanks.rest
    else some (b, g :: gs)

/-- The text of a block scalar, with the line ends behind its last line chomped. -/
def BlockText.finish (b : BlockText) (chomping : Chomping) : List Char :=
  (match chomping with
    | .strip => b.collected
    | .clip => b.lineEnd ++ b.collected
    | .keep => b.blankEnds ++ b.lineEnd ++ b.collected).reverse

/--
Reads a block scalar from behind its `|` or `>`.  Its lines stand at the depth that
the header gives, or else as deep as its first line, but at `floor` at least.
-/
def blockScalar (literal : Bool) (floor : Nat) (gs : List Glyph) : Option Scanned := do
  let (header, afterSigns) ← blockSigns { literal } false gs
  let body ← blockHeaderEnd false afterSigns
  let fixed := header.indent.map (floor - 1 + ·)
  let blanks ← blankLines fixed [] 0 body
  let indent := fixed.getD (max 1 (max floor blanks.deepest))
  let (b, rest) ← blockLines literal indent (gs.length + 1)
    { blankEnds := blanks.breaks } blanks.rest
  return { text := b.finish header.chomping, rest, broke := true }

end ThreadAffinity.Yaml
