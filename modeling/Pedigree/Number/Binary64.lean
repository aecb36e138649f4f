/-!
# Binary floating point numbers of 64 bits

A `Binary64` is a sign, a biased exponent and a fraction. Every finite one is
`scaled / 2 ^ 1074` for an integer `scaled`, so values are compared and combined
by integer arithmetic alone. `ofRatio` rounds an exact quotient to the nearest
binary64, a tie to the even significand, and overflows to infinity.
-/

namespace Pedigree

/-- A binary floating point number with 11 exponent bits and 52 fraction bits. -/
structure Binary64 where
  /-- The sign bit. -/
  negative : Bool
  /-- The biased exponent. Zero marks the subnormal numbers, 2047 infinity and NaN. -/
  exponent : Fin 2048
  /-- The significand without its leading bit. -/
  fraction : Fin (Nat.pow 2 52)
deriving DecidableEq, Repr

namespace Binary64

/-- Neither infinite nor NaN. -/
def isFinite (x : Binary64) : Bool := x.exponent.val != 2047

/-- Not a number: the largest exponent with a fraction. -/
def isNaN (x : Binary64) : Bool := x.exponent.val == 2047 && x.fraction.val != 0

/-- The zero of a sign. -/
def zero (negative : Bool) : Binary64 := ⟨negative, 0, 0⟩

/-- The infinity of a sign. -/
def infinity (negative : Bool) : Binary64 := ⟨negative, 2047, 0⟩

/-- The NaN without sign whose highest fraction bit is set. -/
def nan : Binary64 := ⟨false, 2047, ⟨Nat.pow 2 51, by decide⟩⟩

/-- The same number with the other sign. -/
def neg (x : Binary64) : Binary64 := { x with negative := !x.negative }

/-- The significand, its leading bit included. -/
def significand (x : Binary64) : Nat :=
  if x.exponent.val = 0 then x.fraction.val else Nat.pow 2 52 + x.fraction.val

/-- The distance to the next larger magnitude, in units of `2 ^ -1074`. -/
def unit (x : Binary64) : Nat := Nat.pow 2 (x.exponent.val - 1)

/-- The absolute value of a finite number, in units of `2 ^ -1074`. -/
def magnitude (x : Binary64) : Nat := x.significand * x.unit

/-- A finite number in units of `2 ^ -1074`. Both zeros give zero. -/
def scaled (x : Binary64) : Int :=
  if x.negative then -(x.magnitude : Int) else (x.magnitude : Int)

/-- The integer nearest to `num / den`, a tie to the even one. -/
def roundHalfEven (num den : Nat) : Nat :=
  let q := num / den
  let r := num % den
  if 2 * r < den then q
  else if den < 2 * r then q + 1
  else if q % 2 = 0 then q else q + 1

/-- The number with a significand below `2 ^ 53` in units of `2 ^ (shift - 1074)`. A full
significand is moved up by one exponent, and an exponent out of range gives infinity. -/
def ofSignificand (negative : Bool) (significand shift : Nat) : Binary64 :=
  if significand < Nat.pow 2 52 then
    ⟨negative, 0, Fin.ofNat (Nat.pow 2 52) significand⟩
  else
    let carried := significand = Nat.pow 2 53
    let exponent := if carried then shift + 2 else shift + 1
    if h : exponent < 2047 then
      ⟨negative, ⟨exponent, by omega⟩,
        Fin.ofNat (Nat.pow 2 52) (if carried then 0 else significand)⟩
    else infinity negative

/-- The binary64 nearest to `num / den`, a tie to the even significand. -/
def ofRatio (negative : Bool) (num den : Nat) : Binary64 :=
  let exact := num * Nat.pow 2 1074
  let shift := Nat.log2 (exact / den) - 52
  ofSignificand negative (roundHalfEven exact (den * Nat.pow 2 shift)) shift

/-- The binary64 nearest to an integer. -/
def ofInt (n : Int) : Binary64 := ofRatio (decide (n < 0)) n.natAbs 1

/-- The product of two finite numbers, rounded once. -/
def mul (x y : Binary64) : Binary64 :=
  ofRatio (x.negative != y.negative) (x.magnitude * y.magnitude) (Nat.pow 2 2148)

/-- The quotient of two finite numbers, rounded once. The divisor is not zero. -/
def div (x y : Binary64) : Binary64 :=
  ofRatio (x.negative != y.negative) x.magnitude y.magnitude

/-- The binary64 nearest to `coefficient * 10 ^ exponent`. Exponents so large or so small that
the digits cannot matter give infinity or zero at once. -/
def ofDecimal (negative : Bool) (coefficient : Nat) (exponent : Int) : Binary64 :=
  if coefficient = 0 then zero negative
  else if 400 < exponent then infinity negative
  else if exponent + (Nat.log2 coefficient : Int) < -1200 then zero negative
  else if 0 ≤ exponent then ofRatio negative (coefficient * Nat.pow 10 exponent.toNat) 1
  else ofRatio negative coefficient (Nat.pow 10 (-exponent).toNat)

/-- Equality as numbers: the two zeros are equal, and so are any two NaNs. -/
def same (x y : Binary64) : Bool :=
  if x.isNaN then y.isNaN
  else if x.isFinite && y.isFinite then x.scaled == y.scaled
  else x == y

end Binary64

end Pedigree
