import Pedigree.Number.Shortest
import Pedigree.Text.Digit

/-!
# Reading decimals

`Decimal.read?` reads digits with an optional point and an optional exponent. At least
one digit stands before or after the point. `Decimal.nearest` rounds the exact value
once to binary64.
-/

namespace Pedigree.Decimal

open Text

/-- The exponent at the end of a decimal: nothing, or a mark with a signed number. -/
def exponent? : List Char → Option Int
  | [] => some 0
  | mark :: rest =>
    if mark = 'e' ∨ mark = 'E' then
      match rest with
      | '-' :: digits => (naturalIn? 10 digits).map fun n => -(n : Int)
      | '+' :: digits => (naturalIn? 10 digits).map fun n => (n : Int)
      | digits => (naturalIn? 10 digits).map fun n => (n : Int)
    else none

/-- The exact value of a decimal text without sign. -/
def read? (text : List Char) : Option Decimal :=
  let whole := text.takeWhile Char.isDigit
  let rest := text.dropWhile Char.isDigit
  let (fraction, rest) := match rest with
    | '.' :: rest => (rest.takeWhile Char.isDigit, rest.dropWhile Char.isDigit)
    | rest => ([], rest)
  if whole.isEmpty && fraction.isEmpty then none
  else (exponent? rest).map fun exponent =>
    ⟨ofDigits 10 ((whole ++ fraction).map digitValue), exponent - (fraction.length : Int)⟩

/-- The binary64 nearest to a decimal with a sign. -/
def nearest (negative : Bool) (d : Decimal) : Binary64 :=
  Binary64.ofDecimal negative d.coefficient d.exponent

end Pedigree.Decimal
