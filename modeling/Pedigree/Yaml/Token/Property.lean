import Pedigree.Yaml.Cell
import Pedigree.Yaml.Token

/-!
# Scanning properties and directives

Scanners of anchors, tags and directives. A tag may spell bytes by percent escapes, which
have to be shaped like UTF-8; what follows a zero byte is lost.
-/

namespace Pedigree.Yaml

/-! ## Anchors -/

/-- Whether the name of an anchor may end before these cells. -/
def endsAnchor (cells : List Cell) : Bool :=
  Cell.ends cells || cells.head?.any fun c =>
    c.char == '?' || c.char == ':' || c.char == ',' || c.char == ']' || c.char == '}' ||
      c.char == '%' || c.char == '@' || c.char == '\x60'

/-- Reads the name of an anchor or an alias. -/
def scanAnchor (cells : List Cell) : Option (List Char × List Cell) :=
  let name := Cell.run isWord cells
  let rest := Cell.skip isWord cells
  if name.isEmpty || !endsAnchor rest then none else some (name, rest)

/-! ## Tags -/

/-- The bytes of characters in UTF-8. -/
def bytesOf (text : List Char) : List UInt8 := (String.ofList text).toUTF8.toList

/-- The bytes before the first zero byte. -/
def beforeZero (bytes : List UInt8) : List UInt8 := bytes.takeWhile (· != 0)

/-- A character that stands for itself in a tag. The brackets and the comma do so only between
angle brackets and in directives. -/
def isTagChar (verbatim : Bool) (c : Char) : Bool :=
  isWord c || c = ';' || c = '/' || c = '?' || c = ':' || c = '@' || c = '&' || c = '=' ||
    c = '+' || c = '$' || c = '.' || c = '!' || c = '~' || c = '*' || c = '\'' || c = '(' ||
    c = ')' || (verbatim && (c = ',' || c = '[' || c = ']'))

/-- How many bytes follow the first byte of a character. -/
def followers? (byte : Nat) : Option Nat :=
  if byte < 0x80 then some 0
  else if 0xC0 ≤ byte ∧ byte < 0xE0 then some 1
  else if 0xE0 ≤ byte ∧ byte < 0xF0 then some 2
  else if 0xF0 ≤ byte ∧ byte < 0xF8 then some 3
  else none

/-- Where the text of a tag is being read. -/
inductive TagMode where
  /-- In the text, or among the escapes of a character that lacks some bytes. -/
  | text (missing : Nat)
  /-- Behind a percent sign. -/
  | high (missing : Nat)
  /-- Behind its first digit. -/
  | low (missing digit : Nat)

/-- Reads the text of a tag. The bytes read are last first. -/
def scanTagText (verbatim : Bool) (mode : TagMode) (read : List UInt8) :
    List Cell → Option (List UInt8 × List Cell)
  | [] => match mode with
    | .text 0 => some (read.reverse, [])
    | _ => none
  | c :: rest =>
    match mode with
    | .text missing =>
      if c.char = '%' then scanTagText verbatim (.high missing) read rest
      else if missing ≠ 0 then none
      else if isTagChar verbatim c.char then
        scanTagText verbatim (.text 0) (c.char.toNat.toUInt8 :: read) rest
      else some (read.reverse, c :: rest)
    | .high missing =>
      match Text.hexValue? c.char with
      | some digit => scanTagText verbatim (.low missing digit) read rest
      | none => none
    | .low missing digit =>
      match Text.hexValue? c.char with
      | none => none
      | some low =>
        let byte := digit * 16 + low
        if missing = 0 then
          match followers? byte with
          | some missing => scanTagText verbatim (.text missing) (byte.toUInt8 :: read) rest
          | none => none
        else if 0x80 ≤ byte ∧ byte < 0xC0 then
          scanTagText verbatim (.text (missing - 1)) (byte.toUInt8 :: read) rest
        else none

/-- Reads the text of a tag that may not be empty. -/
def scanTagTail (verbatim : Bool) (cells : List Cell) : Option (List UInt8 × List Cell) := do
  let (text, rest) ← scanTagText verbatim (.text 0) [] cells
  guard !text.isEmpty
  return (beforeZero text, rest)

/-- Reads an exclamation mark, a word, and a second exclamation mark if there is one. -/
def scanHandle : List Cell → Option (List Char × List Cell)
  | [] => none
  | c :: rest =>
    if c.char = '!' then
      let word := Cell.run isWord rest
      let rest := Cell.skip isWord rest
      if Cell.startsWith '!' rest then some ('!' :: word ++ ['!'], rest.drop 1)
      else some ('!' :: word, rest)
    else none

/-- The handle of the language's own tags. -/
def ownHandle : List Char := ['!', '!']

/-- The handle of local tags. -/
def localHandle : List Char := ['!']

/-- Reads a tag: a text between angle brackets, a handle with a suffix, or a local name. An
exclamation mark alone is a suffix without handle. -/
def scanTagName (cells : List Cell) : Option (TagName × List Cell) :=
  match cells with
  | mark :: next :: rest =>
    if mark.char = '!' ∧ next.char = '<' then do
      let (suffix, rest) ← scanTagTail true rest
      guard (Cell.startsWith '>' rest)
      return (⟨[], suffix⟩, rest.drop 1)
    else scanShortTag (mark :: next :: rest)
  | cells => scanShortTag cells
where
  /-- A tag without angle brackets. -/
  scanShortTag (cells : List Cell) : Option (TagName × List Cell) := do
    let (handle, rest) ← scanHandle cells
    if handle != localHandle && handle.getLast? == some '!' then
      let (suffix, rest) ← scanTagTail false rest
      return (⟨bytesOf handle, suffix⟩, rest)
    else
      let (tail, rest) ← scanTagText false (.text 0) [] rest
      let suffix := beforeZero (bytesOf (handle.drop 1) ++ tail)
      if suffix.isEmpty then return (⟨[], bytesOf localHandle⟩, rest)
      else return (⟨bytesOf localHandle, suffix⟩, rest)

/-- Reads a tag up to the blank that has to follow it. In a flow collection a comma may follow. -/
def scanTag (flow : Bool) (cells : List Cell) : Option (TagName × List Cell) := do
  let (name, rest) ← scanTagName cells
  guard (Cell.ends rest || (flow && Cell.startsWith ',' rest))
  return (name, rest)

/-! ## Directives -/

/-- Reads a number of a version, of at most nine digits. -/
def scanVersionNumber (cells : List Cell) : Option (Nat × List Cell) :=
  let digits := Cell.run Char.isDigit cells
  if digits.isEmpty || 9 < digits.length then none
  else some (Text.ofDigits 10 (digits.map Text.digitValue), Cell.skip Char.isDigit cells)

/-- Reads a directive behind its percent sign, up to the end of its line. -/
def scanDirective (cells : List Cell) : Option (Token × List Cell) := do
  let name := Cell.run isWord cells
  let rest := Cell.skip isWord cells
  guard (!name.isEmpty && Cell.ends rest)
  let rest := Cell.skip isSpace rest
  let (token, rest) ←
    if name = ['Y', 'A', 'M', 'L'] then do
      let (major, rest) ← scanVersionNumber rest
      guard (Cell.startsWith '.' rest)
      let (minor, rest) ← scanVersionNumber (rest.drop 1)
      some (Token.version major minor, rest)
    else if name = ['T', 'A', 'G'] then do
      let (handle, rest) ← scanHandle rest
      guard (handle.getLast? == some '!')
      guard (rest.head?.any fun c => isSpace c.char)
      let (start, rest) ← scanTagTail true (Cell.skip isSpace rest)
      guard (Cell.ends rest)
      some (Token.tagHandle (bytesOf handle) start, rest)
    else none
  let rest := Cell.skipComment (Cell.skip isSpace rest)
  guard (Cell.endsLine rest)
  return (token, rest.drop 1)

end Pedigree.Yaml
