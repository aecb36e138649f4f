import Pedigree.Yaml.Cell
import Pedigree.Yaml.Token

/-!
# Scanning scalars

Scanners of plain, quoted and block scalars. Each reads one cell at a time and gives the text
of the scalar and the cells after it, or none if the text is malformed.

A `Fold` collects a scalar that runs over several lines: a single line break becomes a space,
and of several the first is dropped.
-/

namespace Pedigree.Yaml

/-- A scalar that is being read. All texts are last character first. -/
structure Fold where
  /-- What has been settled. -/
  text : List Char
  /-- Blanks that count only if more text follows on the line. -/
  blanks : List Char
  /-- Whether the last characters were a line break and blanks after it. -/
  newLine : Bool
  /-- The first line break of a run, unless it was escaped. -/
  lead : List Char
  /-- The other line breaks of the run. -/
  breaks : List Char

namespace Fold

/-- Nothing read. -/
def empty : Fold := ⟨[], [], false, [], []⟩

/-- Reads a blank. At the start of a line it does not count. -/
def blank (f : Fold) (c : Char) : Fold :=
  if f.newLine then f else { f with blanks := c :: f.blanks }

/-- Reads a line break. Blanks before it do not count. -/
def lineBreak (f : Fold) (c : Char) : Fold :=
  if f.newLine then { f with breaks := c :: f.breaks }
  else { f with blanks := [], newLine := true, lead := [c] }

/-- Decides what pending blanks and line breaks amount to. -/
def settle (f : Fold) : Fold :=
  if f.newLine then
    let joined :=
      if f.lead = ['\n'] then if f.breaks.isEmpty then ' ' :: f.text else f.breaks ++ f.text
      else f.breaks ++ f.lead ++ f.text
    ⟨joined, [], false, [], []⟩
  else { f with text := f.blanks ++ f.text, blanks := [] }

/-- Reads a character of the text. -/
def push (f : Fold) (c : Char) : Fold :=
  let f := f.settle
  { f with text := c :: f.text }

/-- Reads a line break behind a backslash, which leaves no trace. -/
def continued (f : Fold) : Fold := { f.settle with newLine := true }

/-- The settled text. -/
def toString (f : Fold) : String := String.ofList f.text.reverse

/-- Whether a word starts with the next character. -/
def atWord (f : Fold) : Bool := f.newLine || !f.blanks.isEmpty

end Fold

/-! ## Plain scalars -/

/-- The brackets and the comma of flow collections. -/
def isFlowMark (c : Char) : Bool := c = ',' || c = '[' || c = ']' || c = '{' || c = '}'

/-- Whether a plain scalar ends before a word: at a mark between documents, at a comment, and
outside flow collections left of the margin. -/
def endsPlain (flow : Bool) (margin : Nat) (cells : List Cell) : Bool :=
  match cells with
  | [] => true
  | c :: _ => (!flow && c.column < margin) || Cell.isDocumentMark cells || c.char == '#'

/-- Reads a plain scalar. The flag tells whether it ended after a line break. -/
def scanPlain (flow : Bool) (margin : Nat) (fold : Fold) :
    List Cell → Option (String × Bool × List Cell)
  | [] => some (fold.toString, fold.newLine, [])
  | c :: rest =>
    if isSpace c.char then
      if fold.newLine && c.column < margin && c.char == '\t' then none
      else scanPlain flow margin (fold.blank c.char) rest
    else if isBreak c.char then scanPlain flow margin (fold.lineBreak c.char) rest
    else if fold.atWord && endsPlain flow margin (c :: rest) then
      some (fold.toString, fold.newLine, c :: rest)
    else if flow && c.char == ':' &&
        rest.head?.any fun next => isFlowMark next.char || next.char == '?' then none
    else if (c.char == ':' && Cell.ends rest) || (flow && isFlowMark c.char) then
      some (fold.toString, fold.newLine, c :: rest)
    else scanPlain flow margin (fold.push c.char) rest

/-! ## Quoted scalars -/

/-- The character that a letter behind a backslash stands for. -/
def namedEscape? (c : Char) : Option Char :=
  match c with
  | '0' => some '\x00'
  | 'a' => some '\x07'
  | 'b' => some '\x08'
  | 't' | '\t' => some '\t'
  | 'n' => some '\n'
  | 'v' => some '\x0b'
  | 'f' => some '\x0c'
  | 'r' => some '\r'
  | 'e' => some '\x1b'
  | ' ' => some ' '
  | '"' => some '"'
  | '/' => some '/'
  | '\\' => some '\\'
  | 'N' => some '\u0085'
  | '_' => some '\u00a0'
  | 'L' => some '\u2028'
  | 'P' => some '\u2029'
  | _ => none

/-- How many hexadecimal digits follow a letter behind a backslash. -/
def escapeWidth? (c : Char) : Option Nat :=
  match c with
  | 'x' => some 2
  | 'u' => some 4
  | 'U' => some 8
  | _ => none

/-- Where a double quoted scalar is being read. -/
inductive QuoteMode where
  | text
  /-- Behind a backslash. -/
  | escape
  /-- In the digits of a code point: how many are left, and the value of those read. -/
  | code (left value : Nat)

/-- Reads a double quoted scalar after its opening quote. -/
def scanDouble (mode : QuoteMode) (fold : Fold) : List Cell → Option (String × List Cell)
  | [] => none
  | c :: rest =>
    match mode with
    | .text =>
      if Cell.isDocumentMark (c :: rest) then none
      else if c.char = '"' then some (fold.settle.toString, rest)
      else if c.char = '\\' then scanDouble .escape fold rest
      else if isSpace c.char then scanDouble .text (fold.blank c.char) rest
      else if isBreak c.char then scanDouble .text (fold.lineBreak c.char) rest
      else scanDouble .text (fold.push c.char) rest
    | .escape =>
      if isBreak c.char then scanDouble .text fold.continued rest
      else match escapeWidth? c.char, namedEscape? c.char with
        | some width, _ => scanDouble (.code width 0) fold rest
        | none, some named => scanDouble .text (fold.push named) rest
        | none, none => none
    | .code left value =>
      match Text.hexValue? c.char with
      | none => none
      | some digit =>
        if 1 < left then scanDouble (.code (left - 1) (value * 16 + digit)) fold rest
        else match Text.scalar? (value * 16 + digit) with
          | some char => scanDouble .text (fold.push char) rest
          | none => none

/-- Reads a single quoted scalar after its opening quote. A quote written twice stands for
itself. -/
def scanSingle (fold : Fold) : List Cell → Option (String × List Cell)
  | [] => none
  | c :: rest =>
    if Cell.isDocumentMark (c :: rest) then none
    else if c.char = '\'' then
      match rest with
      | [] => some (fold.settle.toString, rest)
      | next :: after =>
        if next.char = '\'' then scanSingle (fold.push '\'') after
        else some (fold.settle.toString, rest)
    else if isSpace c.char then scanSingle (fold.blank c.char) rest
    else if isBreak c.char then scanSingle (fold.lineBreak c.char) rest
    else scanSingle (fold.push c.char) rest

/-! ## Block scalars -/

/-- What becomes of the line breaks at the end of a block scalar. -/
inductive Chomping where
  /-- All are dropped. -/
  | strip
  /-- The first is kept. -/
  | clip
  /-- All are kept. -/
  | keep

/-- A block scalar that is being read. All texts are last character first. -/
structure Block where
  text : List Char
  /-- The line break after the last line of text. -/
  lead : List Char
  /-- The line breaks of the empty lines after it. -/
  breaks : List Char
  /-- Whether the last line of text starts with a blank. -/
  indented : Bool

namespace Block

/-- Starts a line of text. A folded line break is a space between two lines that start with no
blank, unless empty lines stand between them. -/
def startLine (folded : Bool) (b : Block) (first : Char) : Block :=
  let indented := isSpace first
  let joined :=
    if folded && b.lead = ['\n'] && !b.indented && !indented then
      if b.breaks.isEmpty then ' ' :: b.text else b.text
    else b.lead ++ b.text
  ⟨first :: (b.breaks ++ joined), [], [], indented⟩

/-- The text of the scalar. -/
def finish (chomping : Chomping) (b : Block) : String :=
  let text := match chomping with
    | .strip => b.text
    | .clip => b.lead ++ b.text
    | .keep => b.breaks ++ b.lead ++ b.text
  String.ofList text.reverse

end Block

/-- Where a block scalar is being read. -/
inductive BlockMode where
  /-- Before the first line of text. The indent is that of the line with the most spaces so far. -/
  | search (most : Nat)
  /-- In the indentation of a line. -/
  | indentation (indent : Nat)
  /-- In a line of text. -/
  | line (indent : Nat)

/-- Reads the lines of a block scalar. The first line of text sets the indent unless it is given. -/
def scanLines (folded : Bool) (chomping : Chomping) (margin : Nat) (mode : BlockMode) (b : Block) :
    List Cell → Option (String × List Cell)
  | [] => some (b.finish chomping, [])
  | c :: rest =>
    match mode with
    | .search most =>
      if c.char = ' ' then scanLines folded chomping margin (.search most) b rest
      else if c.char = '\t' then none
      else
        let most := max most c.column
        if isBreak c.char then
          scanLines folded chomping margin (.search most)
            { b with breaks := c.char :: b.breaks } rest
        else
          let indent := max most (max margin 1)
          if c.column = indent then
            scanLines folded chomping margin (.line indent) (b.startLine folded c.char) rest
          else some (b.finish chomping, c :: rest)
    | .indentation indent =>
      if isBreak c.char then
        scanLines folded chomping margin (.indentation indent)
          { b with breaks := c.char :: b.breaks } rest
      else if c.column < indent then
        if c.char = ' ' then scanLines folded chomping margin (.indentation indent) b rest
        else if c.char = '\t' then none
        else some (b.finish chomping, c :: rest)
      else if c.column = indent then
        scanLines folded chomping margin (.line indent) (b.startLine folded c.char) rest
      else some (b.finish chomping, c :: rest)
    | .line indent =>
      if isBreak c.char then
        scanLines folded chomping margin (.indentation indent) { b with lead := [c.char] } rest
      else scanLines folded chomping margin (.line indent) { b with text := c.char :: b.text } rest

/-- The chomping that a sign asks for. -/
def chomping? (c : Char) : Option Chomping :=
  if c = '+' then some .keep else if c = '-' then some .strip else none

/-- Reads the sign and the indent behind the indicator of a block scalar, in either order. -/
def scanBlockHeader (cells : List Cell) : Option (Chomping × Nat × List Cell) :=
  let sign (cells : List Cell) : Option Chomping × List Cell :=
    match cells with
    | c :: rest => match chomping? c.char with
      | some chomping => (some chomping, rest)
      | none => (none, cells)
    | [] => (none, [])
  let (first, cells) := sign cells
  let (indent, cells) := match cells with
    | c :: rest => if c.char.isDigit then (some (Text.digitValue c.char), rest) else (none, cells)
    | [] => (none, [])
  let (second, cells) := if first.isNone && indent.isSome then sign cells else (none, cells)
  if indent = some 0 then none
  else some ((first.or second).getD .clip, indent.getD 0, cells)

/-- Reads a block scalar behind its indicator. -/
def scanBlock (folded : Bool) (margin : Nat) (cells : List Cell) :
    Option (String × List Cell) := do
  let (chomping, increment, cells) ← scanBlockHeader cells
  let cells := Cell.skipComment (Cell.skip isSpace cells)
  guard (Cell.endsLine cells)
  let mode := if increment = 0 then .search 0 else .indentation (margin - 1 + increment)
  scanLines folded chomping margin mode ⟨[], [], [], false⟩ (cells.drop 1)

end Pedigree.Yaml
