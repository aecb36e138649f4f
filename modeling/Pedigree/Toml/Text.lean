import Pedigree.Text.Digit

/-!
# Strings and gaps of a TOML text

Readers of strings, comments and white space. A reader takes the characters that are left and
gives a result with those after it, or none if the text is malformed. Line breaks are single
line feeds by the time they are read.
-/

namespace Pedigree.Toml

/-- A reader of the characters that are left. -/
abbrev Reader (α : Type) := List Char → Option (α × List Char)

/-- A space or a tab. -/
def isBlank (c : Char) : Bool := c = ' ' || c = '\t'

/-- A character that may stand in a string or a comment. Line breaks and controls may not. -/
def isText (c : Char) : Bool := c = '\t' || (32 ≤ c.toNat && c.toNat ≠ 127)

/-- A character of a key without quotes. -/
def isBare (c : Char) : Bool := c.isAlphanum || c = '_' || c = '-'

/-- Drops blanks. -/
def skipBlank (chars : List Char) : List Char := chars.dropWhile isBlank

/-- Turns pairs of carriage return and line feed into line feeds. A carriage return alone is
malformed. -/
def joinLines : List Char → Option (List Char)
  | [] => some []
  | '\r' :: '\n' :: rest => (joinLines rest).map ('\n' :: ·)
  | c :: rest => if c = '\r' then none else (joinLines rest).map (c :: ·)

/-- Drops a comment up to the end of its line. -/
def skipComment (chars : List Char) : Option (List Char) :=
  match chars with
  | '#' :: rest =>
    let after := rest.dropWhile isText
    match after with
    | [] => some []
    | '\n' :: _ => some after
    | _ => none
  | chars => some chars

/-- Drops blanks, line breaks and comments. -/
def skipGap (comment : Bool) : List Char → Option (List Char)
  | [] => some []
  | c :: rest =>
    if c = '\n' then skipGap false rest
    else if comment then if isText c then skipGap true rest else none
    else if isBlank c then skipGap false rest
    else if c = '#' then skipGap true rest
    else some (c :: rest)

/-- Drops what may follow at the end of a line, and the line break. -/
def endLine (chars : List Char) : Option (List Char) :=
  match skipComment (skipBlank chars) with
  | some [] => some []
  | some ('\n' :: rest) => some rest
  | _ => none

/-! ## Strings -/

/-- The character that a letter behind a backslash stands for. -/
def namedEscape? (c : Char) : Option Char :=
  match c with
  | 'b' => some '\x08'
  | 't' => some '\t'
  | 'n' => some '\n'
  | 'f' => some '\x0c'
  | 'r' => some '\r'
  | '"' => some '"'
  | '\\' => some '\\'
  | _ => none

/-- How many hexadecimal digits follow a letter behind a backslash. -/
def escapeWidth? (c : Char) : Option Nat :=
  match c with
  | 'u' => some 4
  | 'U' => some 8
  | _ => none

/-- Where a string between double quotes is being read. -/
inductive StringMode where
  | text
  /-- Behind a backslash. -/
  | escape
  /-- In the digits of a code point: how many are left, and the value of those read. -/
  | code (left value : Nat)
  /-- Behind a backslash and blanks, where the line has to end. -/
  | lineEnd
  /-- Behind such a line end, where blanks and line breaks do not count. -/
  | margin
  /-- Behind some quotes in a row. -/
  | quotes (count : Nat)

/-- The mode behind a letter that follows a backslash, and the character it stands for. -/
def readEscape (read : List Char) (c : Char) : Option (StringMode × List Char) :=
  match escapeWidth? c, namedEscape? c with
  | some width, _ => some (.code width 0, read)
  | none, some named => some (.text, named :: read)
  | none, none => none

/-- The mode behind a digit of a code point, and the character if it was the last digit. -/
def readCode (read : List Char) (left value : Nat) (c : Char) : Option (StringMode × List Char) :=
  (Text.hexValue? c).bind fun digit =>
    let value := value * 16 + digit
    if 1 < left then some (.code (left - 1) value, read)
    else (Text.scalar? value).map fun char => (.text, char :: read)

/-- Reads a string on one line behind its opening quote. Characters read are last first. -/
def readBasic (mode : StringMode) (read : List Char) : Reader String
  | [] => none
  | c :: rest =>
    match mode with
    | .escape => match readEscape read c with
      | some (mode, read) => readBasic mode read rest
      | none => none
    | .code left value => match readCode read left value c with
      | some (mode, read) => readBasic mode read rest
      | none => none
    | _ =>
      if c = '"' then some (String.ofList read.reverse, rest)
      else if c = '\\' then readBasic .escape read rest
      else if isText c then readBasic .text (c :: read) rest
      else none

/-- Reads one character of the text of a string over several lines. -/
def readTextChar (read : List Char) (c : Char) : Option (StringMode × List Char) :=
  if c = '"' then some (.quotes 1, read)
  else if c = '\\' then some (.escape, read)
  else if c = '\n' || isText c then some (.text, c :: read)
  else none

/-- Reads a string over several lines behind its opening quotes. It ends with three quotes, and up
to two more before them belong to it. -/
def readBasicLines (mode : StringMode) (read : List Char) : Reader String
  | [] => match mode with
    | .quotes count =>
      if 3 ≤ count then some (String.ofList (List.replicate (count - 3) '"' ++ read).reverse, [])
      else none
    | _ => none
  | c :: rest =>
    let next := match mode with
      | .escape =>
        if isBlank c then some (.lineEnd, read)
        else if c = '\n' then some (.margin, read)
        else readEscape read c
      | .code left value => readCode read left value c
      | .lineEnd =>
        if isBlank c then some (.lineEnd, read)
        else if c = '\n' then some (.margin, read)
        else none
      | .margin => if isBlank c || c = '\n' then some (.margin, read) else readTextChar read c
      | .quotes count =>
        if c = '"' then some (.quotes (count + 1), read)
        else readTextChar (List.replicate count '"' ++ read) c
      | .text => readTextChar read c
    match mode with
    | .quotes count =>
      if count = 5 || (3 ≤ count && c ≠ '"') then
        some (String.ofList (List.replicate (count - 3) '"' ++ read).reverse, c :: rest)
      else match next with
        | some (mode, read) => readBasicLines mode read rest
        | none => none
    | _ => match next with
      | some (mode, read) => readBasicLines mode read rest
      | none => none

/-- Reads a string between single quotes behind the first of them. -/
def readLiteral (chars : List Char) : Option (String × List Char) :=
  let isContent (c : Char) : Bool := isText c && c ≠ '\''
  match chars.dropWhile isContent with
  | '\'' :: rest => some (String.ofList (chars.takeWhile isContent), rest)
  | _ => none

/-- Reads a string between triple single quotes behind the first three. `count` quotes precede. -/
def readLiteralLines (count : Nat) (read : List Char) : Reader String
  | [] =>
    if 3 ≤ count then some (String.ofList (List.replicate (count - 3) '\'' ++ read).reverse, [])
    else none
  | c :: rest =>
    if count = 5 || (3 ≤ count && c ≠ '\'') then
      some (String.ofList (List.replicate (count - 3) '\'' ++ read).reverse, c :: rest)
    else if c = '\'' then readLiteralLines (count + 1) read rest
    else if c = '\n' || isText c then
      readLiteralLines 0 (c :: (List.replicate count '\'' ++ read)) rest
    else none

/-- Drops a line break that directly follows the opening quotes. -/
def skipFirstBreak : List Char → List Char
  | '\n' :: rest => rest
  | chars => chars

/-- Reads a string of any kind. -/
def readString : Reader String
  | '"' :: '"' :: '"' :: rest => readBasicLines .text [] (skipFirstBreak rest)
  | '"' :: rest => readBasic .text [] rest
  | '\'' :: '\'' :: '\'' :: rest => readLiteralLines 0 [] (skipFirstBreak rest)
  | '\'' :: rest => readLiteral rest
  | _ => none

end Pedigree.Toml
