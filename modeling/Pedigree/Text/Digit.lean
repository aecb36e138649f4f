/-!
# Digits

Values of digits in the bases 2 to 16, and the natural numbers they spell.
-/

namespace Pedigree.Text

/-- The value of a decimal digit. -/
def digitValue (c : Char) : Nat := c.toNat - 48

/-- The value of a hexadecimal digit of either case. -/
def hexValue? (c : Char) : Option Nat :=
  if '0' ≤ c ∧ c ≤ '9' then some (c.toNat - 48)
  else if 'a' ≤ c ∧ c ≤ 'f' then some (c.toNat - 87)
  else if 'A' ≤ c ∧ c ≤ 'F' then some (c.toNat - 55)
  else none

/-- The value of a digit that is below the base. -/
def digitIn? (base : Nat) (c : Char) : Option Nat :=
  (hexValue? c).filter fun digit => digit < base

/-- The number that digits spell, the highest first. -/
def ofDigits (base : Nat) (digits : List Nat) : Nat :=
  digits.foldl (fun n d => n * base + d) 0

/-- The number that a text of digits spells. The empty text spells none. -/
def naturalIn? (base : Nat) (text : List Char) : Option Nat :=
  if text.isEmpty then none else (text.mapM (digitIn? base)).map (ofDigits base)

/-- The character of a code point, surrogates excluded. -/
def scalar? (n : Nat) : Option Char :=
  if n.isValidChar then some (Char.ofNat n) else none

end Pedigree.Text
