import Pedigree.Text.Digit

/-!
# Cells of a YAML text

A cell is a character with its place: line, column, and its index in the text. `Cell.layOut`
gives the cells of a text, refuses the characters that no YAML text may hold, and turns
every line break except the line and paragraph separators into a line feed. Scanners work on
lists of cells; the empty list is the end of the text.
-/

namespace Pedigree.Yaml

/-- A character and where it stands. -/
structure Cell where
  char : Char
  line : Nat
  column : Nat
  index : Nat

/-- Whether a YAML text may hold a character. -/
def isAllowed (c : Char) : Bool :=
  let n := c.toNat
  n == 9 || n == 10 || n == 13 || (0x20 ≤ n && n ≤ 0x7E) || n == 0x85 ||
    (0xA0 ≤ n && n ≤ 0xD7FF) || (0xE000 ≤ n && n ≤ 0xFFFD) || 0x10000 ≤ n

/-- A line break, after the layout. -/
def isBreak (c : Char) : Bool := c = '\n' || c = '\u2028' || c = '\u2029'

/-- A space or a tab. -/
def isSpace (c : Char) : Bool := c = ' ' || c = '\t'

/-- A letter, a digit, a hyphen or an underscore, all of ASCII. -/
def isWord (c : Char) : Bool := c.isAlphanum || c = '-' || c = '_'

namespace Cell

/-- The cells of a text, with the place of its first character. -/
def layOutFrom (line column index : Nat) : List Char → Option (List Cell)
  | [] => some []
  | '\r' :: '\n' :: rest =>
    (layOutFrom (line + 1) 0 (index + 2) rest).map (⟨'\n', line, column, index⟩ :: ·)
  | c :: rest =>
    if !isAllowed c then none
    else if c = '\r' || c = '\u0085' then
      (layOutFrom (line + 1) 0 (index + 1) rest).map (⟨'\n', line, column, index⟩ :: ·)
    else if isBreak c then
      (layOutFrom (line + 1) 0 (index + 1) rest).map (⟨c, line, column, index⟩ :: ·)
    else
      (layOutFrom line (column + 1) (index + 1) rest).map (⟨c, line, column, index⟩ :: ·)

/-- The cells of a text, none if it holds a character that is not allowed. -/
def layOut (text : String) : Option (List Cell) := layOutFrom 0 0 0 text.toList

/-- Whether a word ends here: at a blank, at a line break, or at the end. -/
def ends : List Cell → Bool
  | [] => true
  | c :: _ => isSpace c.char || isBreak c.char

/-- Whether a line ends here. -/
def endsLine : List Cell → Bool
  | [] => true
  | c :: _ => isBreak c.char

/-- Whether the first cell holds this character. -/
def startsWith (char : Char) : List Cell → Bool
  | [] => false
  | c :: _ => c.char == char

/-- Three hyphens or three dots at the start of a line, as a word of their own. -/
def marksDocument (mark : Char) : List Cell → Bool
  | a :: b :: c :: rest =>
    a.column == 0 && a.char == mark && b.char == mark && c.char == mark && ends rest
  | _ => false

/-- A mark of either kind between documents. -/
def isDocumentMark (cells : List Cell) : Bool :=
  marksDocument '-' cells || marksDocument '.' cells

/-- The cells after a leading run of a class. -/
def skip (member : Char → Bool) (cells : List Cell) : List Cell :=
  cells.dropWhile fun c => member c.char

/-- The characters of a leading run of a class. -/
def run (member : Char → Bool) (cells : List Cell) : List Char :=
  (cells.takeWhile fun c => member c.char).map Cell.char

/-- The cells after a comment, at the end of its line, if a comment starts here. -/
def skipComment (cells : List Cell) : List Cell :=
  if startsWith '#' cells then skip (fun c => !isBreak c) cells else cells

end Cell

end Pedigree.Yaml
