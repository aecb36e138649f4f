import Pedigree.Value

/-!
# Printing values as JSON

A `Layout` says what stands before each member and after each key. `Layout.compact`
puts nothing there, `Layout.indented n` a line break with `n` spaces for each level.
Empty containers have no inner line in either layout. In strings the quote, the
backslash and the characters below U+0020 are escaped, all others stand for
themselves.
-/

namespace Pedigree

namespace Json

/-- The white space of a printed text. -/
structure Layout where
  /-- What stands before a member, or before the closing bracket, at a depth. -/
  line : Nat → List Char
  /-- What stands between a key and its value. -/
  colon : List Char

namespace Layout

/-- No white space at all. -/
def compact : Layout := ⟨fun _ => [], [':']⟩

/-- One member a line, each level indented by `indent` spaces more. -/
def indented (indent : Nat) : Layout :=
  ⟨fun depth => '\n' :: List.replicate (indent * depth) ' ', [':', ' ']⟩

end Layout

/-- The hexadecimal digit of a number below 16, in lower case. -/
def hexDigit (n : Nat) : Char := if n < 10 then Char.ofNat (48 + n) else Char.ofNat (87 + n)

/-- A character as it stands between the quotes. -/
def escapeChar (c : Char) : List Char :=
  if c = '"' then ['\\', '"']
  else if c = '\\' then ['\\', '\\']
  else if c = '\n' then ['\\', 'n']
  else if c = '\r' then ['\\', 'r']
  else if c = '\t' then ['\\', 't']
  else if c = '\x08' then ['\\', 'b']
  else if c = '\x0c' then ['\\', 'f']
  else if c.toNat < 32 then ['\\', 'u', '0', '0', hexDigit (c.toNat / 16), hexDigit (c.toNat % 16)]
  else [c]

/-- A string with its quotes. -/
def quote (s : String) : List Char := '"' :: (s.toList.flatMap escapeChar ++ ['"'])

mutual

/-- A value in a layout, where its own members stand one level below `depth`. -/
def write (layout : Layout) (depth : Nat) : Value → List Char
  | .null => ['n', 'u', 'l', 'l']
  | .bool true => ['t', 'r', 'u', 'e']
  | .bool false => ['f', 'a', 'l', 's', 'e']
  | .number n => n.text.toList
  | .string s => quote s
  | .sequence [] => ['[', ']']
  | .sequence (item :: rest) =>
    '[' :: (layout.line (depth + 1) ++ write layout (depth + 1) item ++
      writeItems layout (depth + 1) rest ++ layout.line depth ++ [']'])
  | .mapping [] => ['{', '}']
  | .mapping ((key, value) :: rest) =>
    '{' :: (layout.line (depth + 1) ++ quote key ++ layout.colon ++
      write layout (depth + 1) value ++ writeEntries layout (depth + 1) rest ++
      layout.line depth ++ ['}'])

/-- The items after the first one. -/
def writeItems (layout : Layout) (depth : Nat) : List Value → List Char
  | [] => []
  | item :: rest =>
    ',' :: (layout.line depth ++ write layout depth item ++ writeItems layout depth rest)

/-- The entries after the first one. -/
def writeEntries (layout : Layout) (depth : Nat) : List (String × Value) → List Char
  | [] => []
  | (key, value) :: rest =>
    ',' :: (layout.line depth ++ quote key ++ layout.colon ++ write layout depth value ++
      writeEntries layout depth rest)

end

/-- The text without white space. -/
def compact (value : Value) : String := String.ofList (write .compact 0 value)

/-- The text with one member a line. -/
def pretty (indent : Nat) (value : Value) : String :=
  String.ofList (write (.indented indent) 0 value)

end Json

end Pedigree
