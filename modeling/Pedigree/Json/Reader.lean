import Pedigree.Json.Token

/-!
# Reading JSON

`read?` gives the value of a JSON text and keeps the order of the keys. It runs over
the tokens with the stack of the containers that are still open (`Frame`), so it needs
no look-ahead. A key that occurs again replaces the value and keeps its place.
-/

namespace Pedigree.Json

/-- A container that is still open. -/
inductive Frame where
  /-- A sequence and its items, last first. -/
  | sequence (items : List Value)
  /-- A mapping and its entries. -/
  | mapping (entries : List (String × Value))
  /-- A mapping whose last key waits for its value. -/
  | entry (entries : List (String × Value)) (key : String)

/-- What may come next. -/
inductive Expect where
  /-- A value. -/
  | value
  /-- The first member of a container, or its end. -/
  | first
  /-- A comma, or the end of the container. -/
  | next
  /-- A key after a comma. -/
  | key
  /-- The colon after a key. -/
  | colon
  /-- Nothing: the text held this value. -/
  | done (value : Value)

/-- The open containers, innermost first, and what may come next. -/
structure Reading where
  frames : List Frame
  expect : Expect

namespace Reading

/-- Hands a complete value to the innermost container. -/
def deliver (value : Value) : List Frame → Option Reading
  | [] => some ⟨[], .done value⟩
  | .sequence items :: frames => some ⟨.sequence (value :: items) :: frames, .next⟩
  | .entry entries key :: frames =>
    some ⟨.mapping (Entries.insert key value entries) :: frames, .next⟩
  | .mapping _ :: _ => none

/-- Starts a value. -/
def startValue (frames : List Frame) : Token → Option Reading
  | .null => deliver .null frames
  | .bool b => deliver (.bool b) frames
  | .number n => deliver (.number n) frames
  | .string s => deliver (.string s) frames
  | .beginSequence => some ⟨.sequence [] :: frames, .first⟩
  | .beginMapping => some ⟨.mapping [] :: frames, .first⟩
  | _ => none

/-- Reads one token. -/
def step (reading : Reading) (token : Token) : Option Reading :=
  match reading.expect, reading.frames, token with
  | .value, frames, token => startValue frames token
  | .first, .sequence items :: frames, .endSequence => deliver (.sequence items.reverse) frames
  | .first, .sequence items :: frames, token => startValue (.sequence items :: frames) token
  | .next, .sequence items :: frames, .endSequence => deliver (.sequence items.reverse) frames
  | .next, .sequence items :: frames, .comma => some ⟨.sequence items :: frames, .value⟩
  | .first, .mapping entries :: frames, .endMapping => deliver (.mapping entries) frames
  | .first, .mapping entries :: frames, .string key => some ⟨.entry entries key :: frames, .colon⟩
  | .next, .mapping entries :: frames, .endMapping => deliver (.mapping entries) frames
  | .next, .mapping entries :: frames, .comma => some ⟨.mapping entries :: frames, .key⟩
  | .key, .mapping entries :: frames, .string key => some ⟨.entry entries key :: frames, .colon⟩
  | .colon, frames, .colon => some ⟨frames, .value⟩
  | _, _, _ => none

/-- The value, if the text was complete. -/
def result? (reading : Reading) : Option Value :=
  match reading.expect with
  | .done value => some value
  | _ => none

end Reading

/-- The value of a list of tokens. -/
def ofTokens? (tokens : List Token) : Option Value :=
  (tokens.foldlM Reading.step ⟨[], .value⟩).bind Reading.result?

/-- The value of a JSON text whose numbers are read by `numbers`. -/
def readWith (numbers : List Char → Option Number) (text : String) : Option Value :=
  (Token.lex numbers text.toList).bind ofTokens?

/-- The value of a JSON text. -/
def read? (text : String) : Option Value := readWith number? text

end Pedigree.Json
