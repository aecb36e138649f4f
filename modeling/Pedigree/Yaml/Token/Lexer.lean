import Pedigree.Yaml.Token.Property
import Pedigree.Yaml.Token.Scalar

/-!
# The tokens of a YAML text

`Token.lex` gives the tokens of a text. `Lexer` is the state between two tokens. It knows the
indentation of the open block collections, and where a key without a question mark may have
started: once its colon follows on the same line, a key marker is put in front of it.
-/

namespace Pedigree.Yaml

/-- A place where a key may have started. -/
structure KeyStart where
  /-- Whether only a key can stand here. -/
  required : Bool
  /-- How many tokens precede it. -/
  position : Nat
  line : Nat
  column : Nat
  index : Nat

/-- Whether a key that started here would have to end before this cell: on its line, and within
1024 characters. -/
def KeyStart.isStale (key : KeyStart) (here : Cell) : Bool :=
  key.line < here.line || key.index + 1024 < here.index

/-- The state between two tokens. A margin is the least column that lies inside a block
collection; it is zero outside of all. -/
structure Lexer where
  cells : List Cell
  tokens : Array Token
  /-- The possible key of the innermost flow collection. -/
  key : Option KeyStart
  /-- Those of the enclosing ones, innermost first. -/
  outerKeys : List (Option KeyStart)
  /-- Whether a key may start here. -/
  keyAllowed : Bool
  /-- The margin of the innermost block collection. -/
  margin : Nat
  /-- Those of the enclosing ones, innermost first. -/
  outerMargins : List Nat

namespace Lexer

/-- The state before the first token. -/
def start (cells : List Cell) : Lexer := ⟨cells, #[], none, [], true, 0, []⟩

/-- Whether the innermost collection is a flow collection. -/
def inFlow (l : Lexer) : Bool := !l.outerKeys.isEmpty

/-- Appends a token. -/
def push (l : Lexer) (token : Token) : Lexer := { l with tokens := l.tokens.push token }

/-! ## Possible keys -/

/-- Forgets a possible key that is out of reach. A required key is not forgotten. -/
def refreshKey (here : Cell) : Option KeyStart → Option (Option KeyStart)
  | none => some none
  | some key =>
    if key.isStale here then if key.required then none else some none
    else some (some key)

/-- Forgets all possible keys that are out of reach. -/
def refreshKeys (l : Lexer) (here : Cell) : Option Lexer := do
  let key ← refreshKey here l.key
  let outerKeys ← l.outerKeys.mapM (refreshKey here)
  return { l with key, outerKeys }

/-- Forgets the possible key. -/
def dropKey (l : Lexer) : Option Lexer :=
  if l.key.any KeyStart.required then none else some { l with key := none }

/-- Remembers that a key may start at this cell. -/
def saveKey (l : Lexer) (here : Cell) : Option Lexer :=
  if l.keyAllowed then do
    let l ← l.dropKey
    let required := !l.inFlow && l.margin == here.column + 1
    return { l with key := some ⟨required, l.tokens.size, here.line, here.column, here.index⟩ }
  else some l

/-! ## Block collections -/

/-- Opens a block collection at a column, unless it is open already. Its token goes to the given
position. -/
def openBlock (l : Lexer) (column position : Nat) (token : Token) : Lexer :=
  if !l.inFlow && l.margin < column + 1 then
    { l with
      tokens := l.tokens.insertIdxIfInBounds position token
      margin := column + 1
      outerMargins := l.margin :: l.outerMargins }
  else l

/-- Closes the block collections, innermost first, while the margin is above the given one. -/
def closeAbove (margin : Nat) (tokens : Array Token) (current : Nat) :
    List Nat → Array Token × Nat × List Nat
  | [] => (tokens, current, [])
  | outer :: more =>
    if margin < current then closeAbove margin (tokens.push .blockEnd) outer more
    else (tokens, current, outer :: more)

/-- Closes the block collections whose entries stand to the right of the given margin. -/
def closeBlocks (l : Lexer) (margin : Nat) : Lexer :=
  if l.inFlow then l
  else
    let (tokens, margin, outerMargins) := closeAbove margin l.tokens l.margin l.outerMargins
    { l with tokens, margin, outerMargins }

/-! ## Gaps -/

/-- Skips blanks, comments and line breaks. A tab counts as a blank only where no key may start,
and a line break outside flow collections allows one. -/
def skipGap (inFlow : Bool) (keyAllowed : Bool) (comment : Bool) : List Cell → Bool × List Cell
  | [] => (keyAllowed, [])
  | c :: rest =>
    if isBreak c.char then skipGap inFlow (keyAllowed || !inFlow) false rest
    else if comment then skipGap inFlow keyAllowed true rest
    else if c.char = ' ' || (c.char = '\t' && (inFlow || !keyAllowed)) then
      skipGap inFlow keyAllowed false rest
    else if c.char = '#' then skipGap inFlow keyAllowed true rest
    else if c.char = '\ufeff' && c.index = 0 then skipGap inFlow keyAllowed false rest
    else (keyAllowed, c :: rest)

/-- Skips the gap before the next token. -/
def skip (l : Lexer) : Lexer :=
  let (keyAllowed, cells) := skipGap l.inFlow l.keyAllowed false l.cells
  { l with keyAllowed, cells }

/-! ## Tokens -/

/-- Reads a mark that stands between documents. -/
def readDocumentMark (l : Lexer) (token : Token) : Option Lexer := do
  let l ← (l.closeBlocks 0).dropKey
  return { l with keyAllowed := false, cells := l.cells.drop 3 }.push token

/-- Reads a directive. -/
def readDirective (l : Lexer) : Option Lexer := do
  let l ← (l.closeBlocks 0).dropKey
  let (token, cells) ← scanDirective (l.cells.drop 1)
  return { l with keyAllowed := false, cells }.push token

/-- Reads the opening bracket of a flow collection. -/
def readOpening (l : Lexer) (here : Cell) (token : Token) : Option Lexer := do
  let l ← l.saveKey here
  return { l with
    key := none
    outerKeys := l.key :: l.outerKeys
    keyAllowed := true
    cells := l.cells.drop 1 }.push token

/-- Reads the closing bracket of a flow collection. -/
def readClosing (l : Lexer) (token : Token) : Option Lexer := do
  let l ← l.dropKey
  let (key, outerKeys) := match l.outerKeys with
    | [] => (l.key, [])
    | key :: outerKeys => (key, outerKeys)
  return { l with key, outerKeys, keyAllowed := false, cells := l.cells.drop 1 }.push token

/-- Reads a comma. -/
def readComma (l : Lexer) : Option Lexer := do
  let l ← l.dropKey
  return { l with keyAllowed := true, cells := l.cells.drop 1 }.push .comma

/-- Opens a block collection at this cell where one may start. -/
def openHere (l : Lexer) (here : Cell) (token : Token) : Option Lexer :=
  if l.inFlow then some l
  else if l.keyAllowed then some (l.openBlock here.column l.tokens.size token)
  else none

/-- Reads the hyphen of an entry. -/
def readEntry (l : Lexer) (here : Cell) : Option Lexer := do
  let l ← l.openHere here .blockSequence
  let l ← l.dropKey
  return { l with keyAllowed := true, cells := l.cells.drop 1 }.push .entry

/-- Reads the question mark of a key. -/
def readKey (l : Lexer) (here : Cell) : Option Lexer := do
  let l ← l.openHere here .blockMapping
  let l ← l.dropKey
  return { l with keyAllowed := !l.inFlow, cells := l.cells.drop 1 }.push .key

/-- Reads the colon before a value. The possible key, if there is one, becomes a key. -/
def readValue (l : Lexer) (here : Cell) : Option Lexer :=
  match l.key with
  | some key =>
    let l := { l with tokens := l.tokens.insertIdxIfInBounds key.position .key }
    let l := l.openBlock key.column key.position .blockMapping
    some ({ l with key := none, keyAllowed := false, cells := l.cells.drop 1 }.push .value)
  | none => do
    let l ← l.openHere here .blockMapping
    return { l with keyAllowed := !l.inFlow, cells := l.cells.drop 1 }.push .value

/-- Reads an anchor, an alias or a tag, which may start a key. -/
def readProperty (l : Lexer) (here : Cell) (scan : List Cell → Option (Token × List Cell)) :
    Option Lexer := do
  let l ← l.saveKey here
  let (token, cells) ← scan l.cells
  return { l with keyAllowed := false, cells }.push token

/-- Reads a block scalar. -/
def readBlock (l : Lexer) (folded : Bool) : Option Lexer := do
  let l ← l.dropKey
  let (text, cells) ← scanBlock folded l.margin (l.cells.drop 1)
  return { l with keyAllowed := true, cells }.push (.scalar text .quoted)

/-- Reads a plain scalar. A key may follow if it ended with its line. -/
def readPlain (l : Lexer) (here : Cell) : Option Lexer := do
  let l ← l.saveKey here
  let (text, newLine, cells) ← scanPlain l.inFlow l.margin .empty l.cells
  return { l with keyAllowed := newLine, cells }.push (.scalar text .plain)

/-- A character that may start no plain scalar, whatever follows it. -/
def isIndicator (c : Char) : Bool :=
  isFlowMark c || c = '#' || c = '&' || c = '*' || c = '!' || c = '|' || c = '>' || c = '\'' ||
    c = '"' || c = '%' || c = '@' || c = '\x60'

/-- Whether a plain scalar starts with this cell. A hyphen, a question mark and a colon start one
only if more follows. -/
def startsPlain (inFlow : Bool) (here : Cell) (rest : List Cell) : Bool :=
  if here.char = '-' then !(rest.head?.any fun c => isSpace c.char)
  else if here.char = '?' || here.char = ':' then !inFlow && !Cell.ends rest
  else !(isSpace here.char || isBreak here.char || isIndicator here.char)

/-- Reads the token that starts with this cell. -/
def readToken (l : Lexer) (here : Cell) (rest : List Cell) : Option Lexer :=
  let c := here.char
  let leads := l.inFlow || Cell.ends rest
  if here.column = 0 && c = '%' then l.readDirective
  else if Cell.marksDocument '-' (here :: rest) then l.readDocumentMark .documentStart
  else if Cell.marksDocument '.' (here :: rest) then l.readDocumentMark .documentEnd
  else if c = '[' then l.readOpening here .beginSequence
  else if c = '{' then l.readOpening here .beginMapping
  else if c = ']' then l.readClosing .endSequence
  else if c = '}' then l.readClosing .endMapping
  else if c = ',' then l.readComma
  else if c = '-' && Cell.ends rest then l.readEntry here
  else if c = '?' && leads then l.readKey here
  else if c = ':' && leads then l.readValue here
  else if c = '*' then
    l.readProperty here fun cells => (scanAnchor (cells.drop 1)).map fun (n, r) => (.alias n, r)
  else if c = '&' then
    l.readProperty here fun cells => (scanAnchor (cells.drop 1)).map fun (n, r) => (.anchor n, r)
  else if c = '!' then
    l.readProperty here fun cells => (scanTag l.inFlow cells).map fun (n, r) => (.tag n, r)
  else if c = '|' && !l.inFlow then l.readBlock false
  else if c = '>' && !l.inFlow then l.readBlock true
  else if c = '\'' then
    l.readProperty here fun cells =>
      (scanSingle .empty (cells.drop 1)).map fun (s, r) => (.scalar s .quoted, r)
  else if c = '"' then
    l.readProperty here fun cells =>
      (scanDouble .text .empty (cells.drop 1)).map fun (s, r) => (.scalar s .quoted, r)
  else if startsPlain l.inFlow here rest then l.readPlain here
  else none

/-- Reads tokens up to the end of the text. Every token takes a cell, so as many steps as there
are cells are enough. -/
def run : Nat → Lexer → Option (Array Token)
  | 0, _ => none
  | steps + 1, l =>
    let l := l.skip
    match l.cells with
    | [] => (l.closeBlocks 0).dropKey.map Lexer.tokens
    | here :: rest => do
      let l ← l.refreshKeys here
      let l ← (l.closeBlocks (here.column + 1)).readToken here rest
      run steps l

end Lexer

/-- The tokens of a text, none if it is malformed. -/
def Token.lex (text : String) : Option (List Token) := do
  let cells ← Cell.layOut text
  let tokens ← Lexer.run (cells.length + 1) (Lexer.start cells)
  return tokens.toList

end Pedigree.Yaml
