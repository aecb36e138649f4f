import Pedigree.Number
import Pedigree.OrderedMap

/-!
# Values

The tree a definition is made of. A mapping lists its entries in order, and that
order is part of the value. `Value.Kind` is the outermost constructor, as error
texts name it.
-/

namespace Pedigree

/-- A tree of scalars, sequences and mappings. -/
inductive Value where
  | null
  | bool (b : Bool)
  | number (n : Number)
  | string (s : String)
  | sequence (items : List Value)
  | mapping (entries : List (String × Value))
deriving Inhabited

namespace Value

/-- What a value is, without its content. -/
inductive Kind where
  | null
  | boolean
  | number
  | string
  | sequence
  | mapping
deriving DecidableEq, Repr

/-- The kind of a value. -/
def kind : Value → Kind
  | .null => .null
  | .bool _ => .boolean
  | .number _ => .number
  | .string _ => .string
  | .sequence _ => .sequence
  | .mapping _ => .mapping

/-- The kind with its article. -/
def Kind.text : Kind → String
  | .null => "null"
  | .boolean => "a boolean"
  | .number => "a number"
  | .string => "a string"
  | .sequence => "a sequence"
  | .mapping => "a mapping"

/-- Neither a sequence nor a mapping. -/
def isScalar : Value → Bool
  | .sequence _ | .mapping _ => false
  | _ => true

/-- A natural number as a value, null if it exceeds 64 bits. -/
def ofNat (n : Nat) : Value := ((Number.ofNat? n).map .number).getD .null

end Value

/-- A definition: the entries of one file, in order. -/
abbrev Definition := List (String × Value)

/-- Definitions by name, in source order. -/
abbrev Collection := OrderedMap String Definition

end Pedigree
