import Pedigree.Number.Shortest

/-!
# Numbers of a definition

A `Number` is an integer of 64 bits, signed or unsigned, or a finite binary64. The
two kinds stay apart: `1` and `1.0` are different numbers. `Number.text` is the
spelling used in documents.

`Number.ofLiteral?` reads a decimal literal. The digits are cut to a significand of
64 bits, which is then scaled by a power of ten with one binary64 multiplication
or division.
-/

namespace Pedigree

/-- An integer that fits 64 bits, signed or unsigned. -/
structure Integer64 where
  toInt : Int
  inRange : -(Nat.pow 2 63 : Int) ≤ toInt ∧ toInt < (Nat.pow 2 64 : Int)
deriving DecidableEq

namespace Integer64

/-- The integer, if it fits. -/
def ofInt? (n : Int) : Option Integer64 :=
  if h : -(Nat.pow 2 63 : Int) ≤ n ∧ n < (Nat.pow 2 64 : Int) then some ⟨n, h⟩ else none

end Integer64

/-- A number as documents hold it. -/
inductive Number where
  | integer (n : Integer64)
  | float (x : Binary64) (finite : x.isFinite = true)
deriving DecidableEq

namespace Number

/-- A float, unless it is infinite or NaN. -/
def ofBinary64? (x : Binary64) : Option Number :=
  if h : x.isFinite = true then some (.float x h) else none

/-- An integer, if it fits 64 bits. -/
def ofInt? (n : Int) : Option Number := (Integer64.ofInt? n).map .integer

/-- A natural number, if it fits 64 bits. -/
def ofNat? (n : Nat) : Option Number := ofInt? n

/-- The nearest binary64. -/
def toBinary64 : Number → Binary64
  | .integer n => Binary64.ofInt n.toInt
  | .float x _ => x

/-- Documents write an exponent above zero with its sign. -/
def documentSpelling : Spelling := ⟨-5, 16, "e+"⟩

/-- The text of a number in a document. -/
def text : Number → String
  | .integer n => toString n.toInt
  | .float x _ => documentSpelling.write x

/-! ## Reading decimal literals -/

/-- Appends digits to a significand as long as it fits 64 bits, and gives the digits left. -/
def absorb (significand : Nat) : List Nat → Nat × List Nat
  | [] => (significand, [])
  | d :: rest =>
    if significand * 10 + d < Nat.pow 2 64 then absorb (significand * 10 + d) rest
    else (significand, d :: rest)

/-- The power of ten that is nearest in binary64. -/
def powerOfTen (k : Nat) : Binary64 := Binary64.ofRatio false (Nat.pow 10 k) 1

/-- Multiplies by a power of ten in binary64. A power beyond the range is applied in steps
of `10 ^ 308`, at most `steps` of them, and a result beyond the range is none. -/
def scaleTen (steps : Nat) (x : Binary64) (exponent : Int) : Option Binary64 :=
  if exponent.natAbs ≤ 308 then
    if 0 ≤ exponent then
      let y := x.mul (powerOfTen exponent.toNat)
      if y.isFinite then some y else none
    else some (x.div (powerOfTen exponent.natAbs))
  else if x.magnitude = 0 then some x
  else if 0 ≤ exponent then none
  else match steps with
    | 0 => some (Binary64.zero x.negative)
    | steps + 1 => scaleTen steps (x.div (powerOfTen 308)) (exponent + 308)

/-- The float of a significand and a power of ten. -/
def ofSignificand? (negative : Bool) (significand : Nat) (exponent : Int) : Option Number :=
  match scaleTen 4 (Binary64.ofRatio false significand 1) exponent with
  | some x => ofBinary64? (if negative then x.neg else x)
  | none => none

/-- A decimal literal: sign, digits before the point, digits after it, signed exponent. -/
structure Literal where
  negative : Bool
  whole : List Nat
  fraction : Option (List Nat)
  exponent : Option (Bool × List Nat)

/-- The number of a decimal literal, none if it is out of range. A literal without fraction and
exponent is an integer when it fits, except for negative zero. -/
def ofLiteral? (l : Literal) : Option Number :=
  let (significand, beyond) := absorb 0 l.whole
  match l.fraction, l.exponent, beyond with
  | none, none, [] =>
    if l.negative then
      if significand = 0 ∨ Nat.pow 2 63 < significand then ofSignificand? true significand 0
      else ofInt? (-(significand : Int))
    else ofNat? significand
  | fraction, exponent, beyond =>
    let (significand, point) := match fraction with
      | none => (significand, (beyond.length : Int))
      | some digits =>
        let (s, unused) := absorb significand digits
        (s, (beyond.length : Int) - (digits.length - unused.length : Nat))
    match exponent with
    | none => ofSignificand? l.negative significand point
    | some (negativeExponent, digits) =>
      let size : Nat := digits.foldl (fun n d => n * 10 + d) 0
      if Nat.pow 2 31 ≤ size then
        if significand = 0 ∨ negativeExponent then ofBinary64? (Binary64.zero l.negative)
        else none
      else
        let size : Int := if negativeExponent then -size else size
        ofSignificand? l.negative significand (point + size)

end Number

end Pedigree
