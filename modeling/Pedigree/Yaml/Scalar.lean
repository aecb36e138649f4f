import Pedigree.Number.Reading
import Pedigree.Yaml.Node
import Pedigree.Yaml.Token.Property
import Pedigree.Yaml.Tree

/-!
# Scalars

What the text of a scalar means. A plain scalar is null, a truth value, an integer, a float, or
else a string; a quoted one is a string. A tag of the language forces its type. An integer
beyond 64 bits is refused as long as it fits 128 bits, and a larger one is a float.
-/

namespace Pedigree.Yaml.Scalar

open Text

/-- The spellings of null, the empty text apart. -/
def isNull (text : String) : Bool :=
  text == "~" || text == "null" || text == "Null" || text == "NULL"

/-- The spellings of truth values. -/
def bool? (text : String) : Option Bool :=
  if text == "true" || text == "True" || text == "TRUE" then some true
  else if text == "false" || text == "False" || text == "FALSE" then some false
  else none

/-- A sign and what follows it. -/
def splitSign : List Char → Bool × List Char
  | '-' :: rest => (true, rest)
  | '+' :: rest => (false, rest)
  | rest => (false, rest)

/-- More than one digit, the first of them zero. Such a text is no number. -/
def hasLeadingZero (digits : List Char) : Bool :=
  digits.head? == some '0' && 1 < digits.length && digits.all Char.isDigit

/-- An integer in base 16, 8, 2 or 10. -/
def magnitude? : List Char → Option Nat
  | '0' :: 'x' :: digits => naturalIn? 16 digits
  | '0' :: 'o' :: digits => naturalIn? 8 digits
  | '0' :: 'b' :: digits => naturalIn? 2 digits
  | digits => if hasLeadingZero digits then none else naturalIn? 10 digits

/-- The integer of a text, if it fits 128 bits. -/
def integer? (text : String) : Option Int :=
  let (negative, body) := splitSign text.toList
  (magnitude? body).bind fun n =>
    if negative then if n ≤ Nat.pow 2 127 then some (-(n : Int)) else none
    else if n < Nat.pow 2 128 then some (n : Int) else none

/-- The spellings of infinity without sign. -/
def isInfinity (text : List Char) : Bool :=
  text == ".inf".toList || text == ".Inf".toList || text == ".INF".toList

/-- The spellings of NaN. -/
def isNaN (text : List Char) : Bool :=
  text == ".nan".toList || text == ".NaN".toList || text == ".NAN".toList

/-- The float of a text. A decimal beyond the range is none. -/
def float? (text : String) : Option Binary64 :=
  let (negative, body) := splitSign text.toList
  if isInfinity body then some (.infinity negative)
  else if isNaN text.toList then some .nan
  else ((Decimal.read? body).map (Decimal.nearest negative)).filter Binary64.isFinite

/-- The meaning of a plain scalar without tag. -/
def resolve (text : String) : Option Tree :=
  if text.isEmpty || isNull text then some .null
  else match bool? text with
    | some b => some (.bool b)
    | none =>
      match integer? text with
      | some n => (Integer64.ofInt? n).map fun n => .number (.integer n)
      | none =>
        if hasLeadingZero (splitSign text.toList).2 then some (.string text)
        else match float? text with
          | some x => some (.number (.float x))
          | none => some (.string text)

/-- The tag of a type of the language. -/
def ownTag (name : String) : Tag := bytesOf ("tag:yaml.org,2002:" ++ name).toList

/-- The name of a local tag, if its bytes are text. -/
def localName? : Tag → Option String
  | [] => none
  | mark :: name =>
    if mark = 33 then
      String.fromUTF8? ⟨(if name.isEmpty then [mark] else name).toArray⟩
    else none

/-- The meaning of a scalar without tag. -/
def untagged (text : String) (style : Style) : Option Tree :=
  match style with
  | .plain => resolve text
  | .quoted => some (.string text)

/-- The meaning of a scalar with a tag that is not its local name. -/
def tagged (tag : Tag) (text : String) (style : Style) : Option Tree :=
  if tag = ownTag "bool" then (bool? text).map .bool
  else if tag = ownTag "int" then
    ((integer? text).bind Integer64.ofInt?).map fun n => .number (.integer n)
  else if tag = ownTag "float" then (float? text).map fun x => .number (.float x)
  else if tag = ownTag "null" then if isNull text then some .null else none
  else if tag.head? = some 33 then untagged text style
  else some (.string text)

end Pedigree.Yaml.Scalar
