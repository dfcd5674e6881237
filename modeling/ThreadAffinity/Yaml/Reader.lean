/-
Reading the first document of a text.

Block collections nest by indentation, flow collections by brackets.  A key is a
scalar or a flow collection on one line, with a colon behind it; whether a key may
stand at some place is decided by what was read before it on the same line, and the
cursor keeps track of that.  Readers fail, without saying why, on malformed text.

Readers carry a depth that falls with every call.  A pair of brackets costs three
calls, and any other nesting at most two for a character, so text that is well formed
never uses up a depth of twice its length.
-/
import ThreadAffinity.Yaml.Node
import ThreadAffinity.Yaml.Scalar

namespace ThreadAffinity.Yaml

/-- A place in the document, and whether a key may start there. -/
structure Cursor where
  rest : List Glyph
  keyAllowed : Bool

namespace Cursor

/-- The cursor behind a scalar. -/
def behind (s : Scanned) : Cursor :=
  { rest := s.rest, keyAllowed := s.broke }

/-- Whether the document ends here. -/
def atEnd (c : Cursor) : Bool :=
  c.rest.isEmpty || atDocumentMark c.rest

/-- The column of the next character. -/
def column (c : Cursor) : Nat :=
  (c.rest.head?.map (·.column)).getD 0

/-- The line of the next character. -/
def line (c : Cursor) : Nat :=
  (c.rest.head?.map (·.line)).getD 0

end Cursor

/-- Passes spaces, comments and line ends; see `Cursor.skip`. -/
def skipGap (flow keyAllowed comment : Bool) : List Glyph → Cursor
  | [] => { rest := [], keyAllowed }
  | g :: gs =>
    if isBreak g.char then skipGap flow (keyAllowed || ! flow) false gs
    else if comment then skipGap flow keyAllowed true gs
    else if g.char == ' ' || (g.char == '\t' && (flow || ! keyAllowed)) then
      skipGap flow keyAllowed false gs
    else if g.char == '#' then skipGap flow keyAllowed true gs
    else { rest := g :: gs, keyAllowed }

/--
Goes on to the next character that is neither white space nor in a comment.  In block
context a key may start on a new line, and a tab is refused where a key may start.
-/
def Cursor.skip (flow : Bool) (c : Cursor) : Cursor :=
  skipGap flow c.keyAllowed false c.rest

/-- A null value, which stands for one that is left out. -/
def absent (line : Nat) : Node :=
  .scalar line true ""

/-- How far apart a key's first character and its colon may be. -/
def keyReach : Nat := 1024

/-- Whether what was read from `start` to `colon` can be a key: on one line, not too long. -/
def isKeySpan (start colon : Cursor) : Bool :=
  start.keyAllowed && start.line == colon.line &&
    start.rest.length ≤ colon.rest.length + keyReach

/-- A quoted or plain scalar. -/
def readScalar (flow : Bool) (floor : Nat) (c : Cursor) : Option (Node × Cursor) :=
  match c.rest with
  | [] => none
  | g :: gs =>
    if g.char == '"' then
      (doubleQuoted [] {} .closed gs).map fun s =>
        (.scalar g.line false (String.ofList s.text), .behind s)
    else if g.char == '\x27' then
      (singleQuoted [] {} gs).map fun s =>
        (.scalar g.line false (String.ofList s.text), .behind s)
    else if startsPlain flow (g :: gs) then
      (plain flow floor [] {} (g :: gs)).map fun s =>
        (.scalar g.line true (String.ofList s.text), .behind s)
    else none

/-! ### Flow collections -/

mutual

/-- A scalar or a flow collection. -/
def readFlowNode (flow : Bool) (floor : Nat) : (fuel : Nat) → Cursor → Option (Node × Cursor)
  | 0, _ => none
  | fuel + 1, c =>
    if c.atEnd then none
    else if atChar '[' c.rest then do
      let (items, c') ← readItems floor fuel { rest := c.rest.drop 1, keyAllowed := true }
      return (.sequence c.line items, c')
    else if atChar '\x7b' c.rest then do
      let (entries, c') ← readPairs floor fuel { rest := c.rest.drop 1, keyAllowed := true }
      return (.mapping c.line entries, c')
    else readScalar flow floor c

/-- The value behind a colon in a flow collection, absent before a comma or closing bracket. -/
def readFlowValue (floor : Nat) : (fuel : Nat) → Cursor → Option (Node × Cursor)
  | 0, _ => none
  | fuel + 1, c =>
    let c := c.skip true
    if atChar ',' c.rest || atChar ']' c.rest || atChar '\x7d' c.rest then
      some (absent c.line, c)
    else readFlowNode true floor fuel c

/-- An entry of a flow collection: a value, and whether it is the key of another one. -/
def readFlowEntry (floor : Nat) :
    (fuel : Nat) → Cursor → Option (Node × Option Node × Cursor)
  | 0, _ => none
  | fuel + 1, c => do
    let (key, c') ← readFlowNode true floor fuel c
    let colon := c'.skip true
    if atChar ':' colon.rest then
      if isKeySpan c colon then
        let (value, c'') ← readFlowValue floor fuel
          { rest := colon.rest.drop 1, keyAllowed := false }
        return (key, some value, c'')
      else none
    else return (key, none, colon)

/-- The items of a flow sequence, from behind its bracket or a comma to its end. -/
def readItems (floor : Nat) : (fuel : Nat) → Cursor → Option (List Node × Cursor)
  | 0, _ => none
  | fuel + 1, c =>
    let c := c.skip true
    if atChar ']' c.rest then some ([], { rest := c.rest.drop 1, keyAllowed := false })
    else do
      let (key, value, c') ← readFlowEntry floor fuel c
      let item := match value with
        | none => key
        | some v => .mapping key.line [(key, v)]
      let c' := c'.skip true
      if atChar ',' c'.rest then
        let (items, c'') ← readItems floor fuel { rest := c'.rest.drop 1, keyAllowed := true }
        return (item :: items, c'')
      else if atChar ']' c'.rest then
        return ([item], { rest := c'.rest.drop 1, keyAllowed := false })
      else none

/-- The entries of a flow mapping, from behind its bracket or a comma to its end. -/
def readPairs (floor : Nat) : (fuel : Nat) → Cursor → Option (List (Node × Node) × Cursor)
  | 0, _ => none
  | fuel + 1, c =>
    let c := c.skip true
    if atChar '\x7d' c.rest then some ([], { rest := c.rest.drop 1, keyAllowed := false })
    else do
      let (key, value, c') ← readFlowEntry floor fuel c
      let pair := (key, value.getD (absent key.line))
      let c' := c'.skip true
      if atChar ',' c'.rest then
        let (pairs, c'') ← readPairs floor fuel { rest := c'.rest.drop 1, keyAllowed := true }
        return (pair :: pairs, c'')
      else if atChar '\x7d' c'.rest then
        return ([pair], { rest := c'.rest.drop 1, keyAllowed := false })
      else none

end

/-! ### Block collections -/

/-- A scalar or flow collection in block context, which may turn out to be a key. -/
def readAtom (floor fuel : Nat) (c : Cursor) : Option (Node × Cursor) :=
  (readFlowNode false floor fuel c).map fun (node, c') => (node, c'.skip false)

mutual

/-- A value in block context; its lines stand at `floor` or deeper. -/
def readBlockNode (floor : Nat) : (fuel : Nat) → Cursor → Option (Node × Cursor)
  | 0, _ => none
  | fuel + 1, c =>
    if atSign '-' c.rest then
      if c.keyAllowed then do
        let (items, c') ← readSequence c.column false fuel c
        return (.sequence c.line items, c')
      else none
    else if atChar '|' c.rest || atChar '>' c.rest then
      (blockScalar (atChar '|' c.rest) floor (c.rest.drop 1)).map fun s =>
        (.scalar c.line false (String.ofList s.text), .behind s)
    else do
      let (node, c') ← readAtom floor fuel c
      if atSign ':' c'.rest && (isKeySpan c c' || ! c'.keyAllowed) then
        if isKeySpan c c' then
          let (entries, c'') ← readEntries c.column node fuel c'
          return (.mapping c.line entries, c'')
        else none
      else return (node, c')

/-- The entries of a block mapping, from the colon behind its first or next key on. -/
def readEntries (column : Nat) (key : Node) :
    (fuel : Nat) → Cursor → Option (List (Node × Node) × Cursor)
  | 0, _ => none
  | fuel + 1, colon => do
    let c := Cursor.skip false { rest := colon.rest.drop 1, keyAllowed := false }
    let (value, c') ←
      if c.atEnd then some (absent c.line, c)
      else if column < c.column then readBlockNode (column + 1) fuel c
      else if c.column == column && atSign '-' c.rest then
        (readSequence column true fuel c).map fun (items, c') => (.sequence c.line items, c')
      else some (absent c.line, c)
    let c' := c'.skip false
    if c'.atEnd || c'.column < column then return ([(key, value)], c')
    else if c'.column == column then
      let (next, colon') ← readAtom (column + 1) fuel c'
      if atSign ':' colon'.rest && isKeySpan c' colon' then
        let (entries, c'') ← readEntries column next fuel colon'
        return ((key, value) :: entries, c'')
      else none
    else none

/--
The items of a block sequence, from a dash on.  A sequence that stands in the same
column as the key in front of it ends at the next key; any other ends where a line is
less indented.
-/
def readSequence (column : Nat) (underKey : Bool) :
    (fuel : Nat) → Cursor → Option (List Node × Cursor)
  | 0, _ => none
  | fuel + 1, dash => do
    let c := Cursor.skip false { rest := dash.rest.drop 1, keyAllowed := true }
    let (item, c') ←
      if ! c.atEnd && column < c.column then readBlockNode (column + 1) fuel c
      else some (absent c.line, c)
    let c' := c'.skip false
    if c'.atEnd || c'.column < column then return ([item], c')
    else if c'.column == column then
      if atSign '-' c'.rest then
        let (items, c'') ← readSequence column underKey fuel c'
        return (item :: items, c'')
      else if underKey then return ([item], c')
      else none
    else none

end

/-! ### Documents -/

/-- The cursor where the first document's value starts, behind the mark that may open it. -/
def documentStart (gs : List Glyph) : Cursor :=
  let c := Cursor.skip false { rest := gs, keyAllowed := true }
  if atChar '-' c.rest && atDocumentMark c.rest then
    Cursor.skip false { rest := c.rest.drop 3, keyAllowed := false }
  else c

/-- The value of the first document, `some none` for an empty one, `none` for malformed text. -/
def read (text : String) : Option (Option Node) :=
  if text.toList.all isAllowed then
    let gs := glyphs text.toList
    let c := documentStart gs
    if c.atEnd then some none
    else (readBlockNode 0 (2 * gs.length + 8) c).map fun (node, _) => some node
  else none

end ThreadAffinity.Yaml
