import Pedigree.Number
import Pedigree.OrderedMap

/-!
# YAML trees

The tree of a document once aliases are replaced and scalars resolved. Unlike a `Value`
it has numbers that no document can hold, keys of any shape, and tags. `Tree.same` says
which trees are the same key.
-/

namespace Pedigree.Yaml

/-- A number of a YAML text. -/
inductive Numeral where
  | integer (n : Integer64)
  | float (x : Binary64)
deriving DecidableEq

namespace Numeral

/-- Equality of numbers. Integers differ from floats, and every NaN is the same. -/
def same : Numeral → Numeral → Bool
  | .integer a, .integer b => a == b
  | .float a, .float b => a.same b
  | _, _ => false

/-- In keys an exponent has no plus sign. -/
def keySpelling : Spelling := ⟨-5, 16, "e"⟩

/-- The text of a number as a key. -/
def text : Numeral → String
  | .integer n => toString n.toInt
  | .float x =>
    if x.isNaN then ".nan"
    else if x.isFinite then keySpelling.write x
    else if x.negative then "-.inf" else ".inf"

/-- The number as documents hold it, none if it is infinite or NaN. -/
def toNumber? : Numeral → Option Number
  | .integer n => some (.integer n)
  | .float x => Number.ofBinary64? x

end Numeral

/-- A tree of a YAML document. -/
inductive Tree where
  | null
  | bool (b : Bool)
  | number (n : Numeral)
  | string (s : String)
  | sequence (items : List Tree)
  | mapping (entries : List (Tree × Tree))
  | tagged (tag : String) (tree : Tree)
deriving Inhabited

namespace Tree

/-- A tag without the exclamation mark before it. The mark alone stays. -/
def bareTag (tag : String) : List Char :=
  match tag.toList with
  | '!' :: c :: rest => c :: rest
  | chars => chars

mutual

/-- Equality of trees. The order of a mapping does not count. -/
def same : Tree → Tree → Bool
  | .null, .null => true
  | .bool a, .bool b => a == b
  | .number a, .number b => a.same b
  | .string a, .string b => a == b
  | .sequence a, .sequence b => sameItems a b
  | .mapping a, .mapping b => a.length == b.length && entriesIn a b
  | .tagged s a, .tagged t b => bareTag s == bareTag t && same a b
  | _, _ => false

/-- Equality of sequences. -/
def sameItems : List Tree → List Tree → Bool
  | [], [] => true
  | a :: as, b :: bs => same a b && sameItems as bs
  | _, _ => false

/-- Whether each entry has an equal one among the others. -/
def entriesIn : List (Tree × Tree) → List (Tree × Tree) → Bool
  | [], _ => true
  | (key, value) :: rest, others =>
    others.any (fun other => same key other.1 && same value other.2) && entriesIn rest others

end

end Tree

end Pedigree.Yaml
