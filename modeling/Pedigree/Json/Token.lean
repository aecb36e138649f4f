import Pedigree.Text.Digit
import Pedigree.Value

/-!
# The tokens of a JSON text

`Token.lex` splits a text into brackets, commas, colons and scalars. It reads one
character at a time: `Scan` is what has been read of the current token, and
`Scan.step` moves it by one character. White space between tokens is dropped.

JSON says how a number is written, but not what a reader has to make of it, so the
numbers of a text are read by a parameter. Ours is `number?`.
-/

namespace Pedigree.Json

open Text

/-- A token of a JSON text. -/
inductive Token where
  | beginSequence
  | endSequence
  | beginMapping
  | endMapping
  | comma
  | colon
  | null
  | bool (b : Bool)
  | number (n : Number)
  | string (s : String)
deriving DecidableEq

/-- The part of the current token that has been read. Characters are kept last first. -/
inductive Scan.Mode where
  /-- Between tokens. -/
  | between
  /-- In a word or a number. -/
  | bare (read : List Char)
  /-- Between quotes. -/
  | quoted (read : List Char)
  /-- After a backslash. -/
  | escape (read : List Char)
  /-- In the four digits of a code unit. The unit before it is a leading surrogate, if any. -/
  | unit (read : List Char) (lead : Option Nat) (left : Nat) (value : Nat)
  /-- After a leading surrogate, where a second code unit has to follow. -/
  | trail (read : List Char) (lead : Nat)
  /-- After a leading surrogate and a backslash. -/
  | trailEscape (read : List Char) (lead : Nat)

/-- A run of the tokenizer: the tokens so far, last first, and the current one. -/
structure Scan where
  mode : Scan.Mode
  tokens : List Token

/-- The digits of an exponent with its mark. -/
def exponent? : List Char → Option (Option (Bool × List Nat))
  | [] => some none
  | mark :: rest =>
    if mark = 'e' ∨ mark = 'E' then
      let (negative, digits) := match rest with
        | '-' :: digits => (true, digits)
        | '+' :: digits => (false, digits)
        | digits => (false, digits)
      if digits.isEmpty || !digits.all Char.isDigit then none
      else some (some (negative, digits.map digitValue))
    else none

/-- A number by its text. A leading zero stands alone. -/
def number? (text : List Char) : Option Number :=
  let (negative, unsigned) := match text with
    | '-' :: rest => (true, rest)
    | rest => (false, rest)
  let whole := unsigned.takeWhile Char.isDigit
  let rest := unsigned.dropWhile Char.isDigit
  if whole.isEmpty || (whole.head? == some '0' && whole.length != 1) then none
  else match rest with
    | '.' :: rest =>
      let fraction := rest.takeWhile Char.isDigit
      if fraction.isEmpty then none
      else (exponent? (rest.dropWhile Char.isDigit)).bind fun exponent =>
        Number.ofLiteral? ⟨negative, whole.map digitValue, some (fraction.map digitValue), exponent⟩
    | rest => (exponent? rest).bind fun exponent =>
        Number.ofLiteral? ⟨negative, whole.map digitValue, none, exponent⟩

/-- A word or a number by its text. -/
def bare? (numbers : List Char → Option Number) (text : List Char) : Option Token :=
  if text = ['n', 'u', 'l', 'l'] then some .null
  else if text = ['t', 'r', 'u', 'e'] then some (.bool true)
  else if text = ['f', 'a', 'l', 's', 'e'] then some (.bool false)
  else (numbers text).map .number

/-- The token of a single character. -/
def punctuation? (c : Char) : Option Token :=
  if c = '[' then some .beginSequence
  else if c = ']' then some .endSequence
  else if c = '{' then some .beginMapping
  else if c = '}' then some .endMapping
  else if c = ',' then some .comma
  else if c = ':' then some .colon
  else none

/-- Space, tab, line feed and carriage return. -/
def isSpace (c : Char) : Bool := c = ' ' || c = '\t' || c = '\n' || c = '\r'

/-- The character after a backslash, code units apart. -/
def simpleEscape? (c : Char) : Option Char :=
  if c = '"' then some '"'
  else if c = '\\' then some '\\'
  else if c = '/' then some '/'
  else if c = 'b' then some '\x08'
  else if c = 'f' then some '\x0c'
  else if c = 'n' then some '\n'
  else if c = 'r' then some '\r'
  else if c = 't' then some '\t'
  else none

namespace Scan

/-- Starts a token with this character, between tokens. -/
def start (tokens : List Token) (c : Char) : Option Scan :=
  match punctuation? c with
  | some token => some ⟨.between, token :: tokens⟩
  | none =>
    if isSpace c then some ⟨.between, tokens⟩
    else if c = '"' then some ⟨.quoted [], tokens⟩
    else some ⟨.bare [c], tokens⟩

/-- Ends a code unit. A leading surrogate waits for a trailing one. -/
def endUnit (tokens : List Token) (read : List Char) (lead : Option Nat) (value : Nat) :
    Option Scan :=
  match lead with
  | none =>
    if 0xD800 ≤ value ∧ value < 0xDC00 then some ⟨.trail read value, tokens⟩
    else if 0xDC00 ≤ value ∧ value < 0xE000 then none
    else some ⟨.quoted (Char.ofNat value :: read), tokens⟩
  | some lead =>
    if 0xDC00 ≤ value ∧ value < 0xE000 then
      let joined := 0x10000 + (lead - 0xD800) * 0x400 + (value - 0xDC00)
      some ⟨.quoted (Char.ofNat joined :: read), tokens⟩
    else none

/-- Reads one character. -/
def step (numbers : List Char → Option Number) (scan : Scan) (c : Char) : Option Scan :=
  match scan.mode with
  | .between => start scan.tokens c
  | .bare read =>
    if (punctuation? c).isSome || isSpace c || c = '"' then
      (bare? numbers read.reverse).bind fun token => start (token :: scan.tokens) c
    else some ⟨.bare (c :: read), scan.tokens⟩
  | .quoted read =>
    if c = '"' then some ⟨.between, .string (String.ofList read.reverse) :: scan.tokens⟩
    else if c = '\\' then some ⟨.escape read, scan.tokens⟩
    else if c.toNat < 32 then none
    else some ⟨.quoted (c :: read), scan.tokens⟩
  | .escape read =>
    if c = 'u' then some ⟨.unit read none 4 0, scan.tokens⟩
    else (simpleEscape? c).map fun escaped => ⟨.quoted (escaped :: read), scan.tokens⟩
  | .unit read lead left value =>
    (hexValue? c).bind fun digit =>
      let value := value * 16 + digit
      if left ≤ 1 then endUnit scan.tokens read lead value
      else some ⟨.unit read lead (left - 1) value, scan.tokens⟩
  | .trail read lead => if c = '\\' then some ⟨.trailEscape read lead, scan.tokens⟩ else none
  | .trailEscape read lead =>
    if c = 'u' then some ⟨.unit read (some lead) 4 0, scan.tokens⟩ else none

/-- The tokens at the end of the text. -/
def finish (numbers : List Char → Option Number) (scan : Scan) : Option (List Token) :=
  match scan.mode with
  | .between => some scan.tokens.reverse
  | .bare read => (bare? numbers read.reverse).map fun token => (token :: scan.tokens).reverse
  | _ => none

end Scan

/-- The tokens of a text. -/
def Token.lex (numbers : List Char → Option Number) (text : List Char) : Option (List Token) :=
  (text.foldlM (Scan.step numbers) ⟨.between, []⟩).bind (Scan.finish numbers)

end Pedigree.Json
