import Pedigree.Number.Reading
import Pedigree.Toml.Date
import Pedigree.Toml.Item
import Pedigree.Toml.Text

/-!
# Reading TOML

`Document.read?` gives the entries of a document. The text is a list of statements, each on a
line of its own: the header of a table, the header of a table in an array, or a key with its
value. Values may be nested less than 80 deep, and so many parts may a key have.
-/

namespace Pedigree.Toml

open Text

/-- The number that neither the parts of a key nor nested values reach. -/
def nestingLimit : Nat := 80

/-! ## Keys -/

/-- Reads one part of a key. -/
def readKeyPart : Reader String
  | '"' :: rest => readBasic .text [] rest
  | '\'' :: rest => readLiteral rest
  | chars =>
    let name := chars.takeWhile isBare
    if name.isEmpty then none else some (String.ofList name, chars.dropWhile isBare)

/-- Reads a key of at most `count` parts, with blanks around each. -/
def readKey (count : Nat) (chars : List Char) : Option (List String × List Char) :=
  match count with
  | 0 => none
  | count + 1 => do
    let (part, rest) ← readKeyPart (skipBlank chars)
    match skipBlank rest with
    | '.' :: rest =>
      let (parts, rest) ← readKey count rest
      return (part :: parts, rest)
    | rest => return ([part], rest)

/-- Reads a key and splits off its last part. -/
def readPath (chars : List Char) : Option ((List String × String) × List Char) := do
  let (parts, rest) ← readKey (nestingLimit - 1) chars
  return ((parts.dropLast, ← parts.getLast?), rest)

/-! ## Numbers -/

/-- The digits of a number whose underscores each stand between two digits. -/
def joinDigits (isDigit : Char → Bool) : List Char → Option (List Char)
  | [] => none
  | [c] => if isDigit c then some [c] else none
  | c :: '_' :: rest => if isDigit c then (joinDigits isDigit rest).map (c :: ·) else none
  | c :: rest => if isDigit c then (joinDigits isDigit rest).map (c :: ·) else none

/-- A number in 64 bits with sign. -/
def bounded? (n : Int) : Option Item :=
  if -(Nat.pow 2 63 : Int) ≤ n ∧ n < (Nat.pow 2 63 : Int) then some (.integer n) else none

/-- An integer in base 16, 8 or 2. -/
def radixInteger? (base : Nat) (digits : List Char) : Option Item := do
  let digits ← joinDigits (fun c => (digitIn? base c).isSome) digits
  bounded? ((← naturalIn? base digits) : Nat)

/-- The digits of the integral part of a number, which do not start with zero. -/
def integral? (text : List Char) : Option (List Char) :=
  match joinDigits Char.isDigit text with
  | some ('0' :: _ :: _) => none
  | digits => digits

/-- The exponent of a float with its mark, underscores dropped. -/
def exponent? : List Char → Option (List Char)
  | [] => some []
  | mark :: '-' :: rest => (joinDigits Char.isDigit rest).map fun ds => mark :: '-' :: ds
  | mark :: '+' :: rest => (joinDigits Char.isDigit rest).map fun ds => mark :: '+' :: ds
  | mark :: rest => (joinDigits Char.isDigit rest).map fun ds => mark :: ds

/-- Whether a character starts an exponent. -/
def isExponentMark (c : Char) : Bool := c = 'e' || c = 'E'

/-- A decimal integer or float without sign. A float beyond the range is refused only if it is
positive. -/
def decimal? (negative : Bool) (text : List Char) : Option Item :=
  let isMark (c : Char) : Bool := c = '.' || isExponentMark c
  let whole := text.takeWhile fun c => !isMark c
  let rest := text.dropWhile fun c => !isMark c
  match rest with
  | [] => do
    let n ← naturalIn? 10 (← integral? whole)
    bounded? (if negative then -(n : Int) else (n : Int))
  | _ => do
    let whole ← integral? whole
    let (fraction, tail) ← match rest with
      | '.' :: rest => do
        let digits ← joinDigits Char.isDigit (rest.takeWhile fun c => !isExponentMark c)
        some ('.' :: digits, rest.dropWhile fun c => !isExponentMark c)
      | rest => some ([], rest)
    let d ← Decimal.read? (whole ++ fraction ++ (← exponent? tail))
    let x := d.nearest negative
    if x = Binary64.infinity false then none else some (.float x)

/-- The value of a word: a truth value, a number, or a date. -/
def word? (word : List Char) : Option Item :=
  if word = "true".toList then some (.bool true)
  else if word = "false".toList then some (.bool false)
  else if isDateOrTime word then some (.date (String.ofList word))
  else
    let (sign, rest) := match word with
      | '-' :: rest => (some true, rest)
      | '+' :: rest => (some false, rest)
      | rest => (none, rest)
    let negative := sign.getD false
    match sign, rest with
    | _, ['i', 'n', 'f'] => some (.float (.infinity negative))
    | _, ['n', 'a', 'n'] => some (.float .nan)
    | none, '0' :: 'x' :: digits => radixInteger? 16 digits
    | none, '0' :: 'o' :: digits => radixInteger? 8 digits
    | none, '0' :: 'b' :: digits => radixInteger? 2 digits
    | _, rest => decimal? negative rest

/-- A character of a word. -/
def isWordChar (c : Char) : Bool :=
  c.isAlphanum || c = '+' || c = '-' || c = '_' || c = '.' || c = ':'

/-- Reads a word. A date takes a time of day with it that follows behind one space. -/
def readWord (chars : List Char) : Option (Item × List Char) :=
  let word := chars.takeWhile isWordChar
  let rest := chars.dropWhile isWordChar
  match rest with
  | ' ' :: after =>
    let time := after.takeWhile isWordChar
    if isDate word && isZonedTime time then
      some (.date (String.ofList (word ++ ' ' :: time)), after.dropWhile isWordChar)
    else (word? word).map fun item => (item, rest)
  | rest => (word? word).map fun item => (item, rest)

/-! ## Values -/

/-- Reads a value that is not nested. -/
def readScalar (chars : List Char) : Option (Item × List Char) :=
  match chars.head? with
  | some '"' | some '\'' => (readString chars).map fun (s, rest) => (.string s, rest)
  | _ => readWord chars

/-- Reads the items of an array behind its bracket, at most `count` of them. -/
def readItems (read : Reader Item) (count : Nat) (items : List Item) (chars : List Char) :
    Option (List Item × List Char) :=
  match count with
  | 0 => none
  | count + 1 => do
    match ← skipGap false chars with
    | ']' :: rest => return (items.reverse, rest)
    | chars =>
      let (item, rest) ← read chars
      match ← skipGap false rest with
      | ',' :: rest => readItems read count (item :: items) rest
      | ']' :: rest => return ((item :: items).reverse, rest)
      | _ => none

/-- Reads an entry: a key, an equals sign, and a value with blanks around it. -/
def readEntry (read : Reader Item) (chars : List Char) :
    Option ((List String × String × Item) × List Char) := do
  let ((path, key), rest) ← readPath chars
  let (item, rest) ← read (skipBlank (← readMark '=' rest))
  return ((path, key, item), skipBlank rest)

/-- Reads the entries of a table in braces behind a comma or behind the opening brace, at most
`count` of them. -/
def readEntries (read : Reader Item) (count : Nat) (entries : Entries) (chars : List Char) :
    Option (Entries × List Char) :=
  match count with
  | 0 => none
  | count + 1 => do
    let ((path, key, item), rest) ← readEntry read chars
    let entries ← Table.assign path key item .braces entries
    match rest with
    | ',' :: rest => readEntries read count entries rest
    | '}' :: rest => return (entries, rest)
    | _ => none

/-- Reads a value in which arrays and tables are nested at most `depth` deep. -/
def readValue : Nat → List Char → Option (Item × List Char)
  | depth + 1, '[' :: rest =>
    (readItems (readValue depth) (rest.length + 1) [] rest).map fun (items, rest) =>
      (.array items, rest)
  | depth + 1, '{' :: rest =>
    match skipBlank rest with
    | '}' :: rest => some (.table .braces [], rest)
    | rest =>
      (readEntries (readValue depth) (rest.length + 1) [] rest).map fun (entries, rest) =>
        (.table .braces entries, rest)
  | _, chars => readScalar chars

/-! ## Documents -/

/-- A statement of a document. -/
inductive Statement where
  | header (path : List String) (key : String)
  | nextHeader (path : List String) (key : String)
  | assign (path : List String) (key : String) (value : Item)

/-- Reads a statement and the end of its line. -/
def readStatement (chars : List Char) : Option (Statement × List Char) := do
  match chars with
  | '[' :: '[' :: rest =>
    let ((path, key), rest) ← readPath rest
    let rest ← readMark ']' (← readMark ']' rest)
    return (.nextHeader path key, ← endLine rest)
  | '[' :: rest =>
    let ((path, key), rest) ← readPath rest
    return (.header path key, ← endLine (← readMark ']' rest))
  | chars =>
    let ((path, key, item), rest) ← readEntry (readValue (nestingLimit - 1)) chars
    return (.assign path key item, ← endLine rest)

/-- Reads statements up to the end, at most `count` of them. -/
def readStatements (count : Nat) (chars : List Char) : Option (List Statement) :=
  match count with
  | 0 => none
  | count + 1 => do
    match ← skipGap false chars with
    | [] => return []
    | chars =>
      let (statement, rest) ← readStatement chars
      return statement :: (← readStatements count rest)

namespace Document

/-- Carries out a statement. Keys go to the table of the last header. -/
def step (state : Entries × List String) : Statement → Option (Entries × List String)
  | .header path key =>
    (Table.extend false (fun _ entries => Table.open? key entries) path .header state.1).map
      fun entries => (entries, path ++ [key])
  | .nextHeader path key =>
    (Table.extend false (fun _ entries => Table.openNext? key entries) path .header state.1).map
      fun entries => (entries, path ++ [key])
  | .assign path key value =>
    (Table.extend false (Table.assign path key value) state.2 .header state.1).map
      fun entries => (entries, state.2)

/-- The entries of a document. A byte order mark before it is dropped. -/
def read? (text : String) : Option Entries := do
  let chars := match text.toList with
    | '\ufeff' :: rest => rest
    | chars => chars
  let chars ← joinLines chars
  let statements ← readStatements (chars.length + 1) chars
  let (entries, _) ← statements.foldlM step ([], [])
  return entries

end Document

end Pedigree.Toml
