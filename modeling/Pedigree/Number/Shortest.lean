import Pedigree.Number.Binary64

/-!
# The shortest decimal of a binary64

Between a finite binary64 and its neighbours lies an interval of reals that round
to it, ends included when the significand is even. `Binary64.shortest` looks for a
decimal with as few digits as possible in that interval, and among those for the
nearest to the number. It suffices to try, for one digit, two digits and so on, the
two points of the decimal grid next to the number.

`Spelling` holds the choices a text format makes beyond the digits, and
`Spelling.write` applies them.
-/

namespace Pedigree

/-- The number `coefficient * 10 ^ exponent`. -/
structure Decimal where
  coefficient : Nat
  exponent : Int
deriving DecidableEq, Repr

namespace Binary64

/-- The grid `10 ^ power`, scaled so that the number, its interval and the unit are integers. -/
structure Grid where
  /-- Lower end of the interval. -/
  low : Nat
  /-- The number. -/
  value : Nat
  /-- Upper end of the interval. -/
  high : Nat
  /-- One step of the grid. -/
  step : Nat
  /-- Whether the ends round to the number. -/
  closed : Bool

/-- The interval of a finite number on the grid `10 ^ power`. -/
def grid (x : Binary64) (power : Int) : Grid :=
  let below := if x.fraction.val = 0 ∧ 1 < x.exponent.val then x.unit else 2 * x.unit
  let value := 4 * x.magnitude
  let scale := Nat.pow 10 (-power).toNat
  { low := (value - below) * scale
    value := value * scale
    high := (value + 2 * x.unit) * scale
    step := Nat.pow 2 1076 * Nat.pow 10 power.toNat
    closed := x.significand % 2 == 0 }

/-- Whether the grid point `c` rounds to the number. -/
def Grid.hits (g : Grid) (c : Nat) : Bool :=
  c != 0 && if g.closed then g.low ≤ c * g.step && c * g.step ≤ g.high
    else g.low < c * g.step && c * g.step < g.high

/-- The grid point next to the number that rounds to it, the nearer of two, the even one of a
tie. -/
def Grid.nearest? (g : Grid) : Option Nat :=
  let c := g.value / g.step
  match g.hits c, g.hits (c + 1) with
  | false, false => none
  | true, false => some c
  | false, true => some (c + 1)
  | true, true =>
    let below := g.value - c * g.step
    let above := (c + 1) * g.step - g.value
    if below < above then some c
    else if above < below then some (c + 1)
    else if c % 2 = 0 then some c else some (c + 1)

/-- The exponent of the leading decimal digit of a finite number that is not zero. -/
def decimalExponent (x : Binary64) : Int :=
  let estimate := ((Nat.log2 x.magnitude : Int) - 1074) * 30103 / 100000
  let reaches (k : Int) : Bool := decide ((x.grid k).step ≤ (x.grid k).value)
  if reaches (estimate + 1) then estimate + 1
  else if reaches estimate then estimate
  else estimate - 1

/-- Moves trailing zeros of the coefficient into the exponent, at most `fuel` of them. -/
def stripZeros (fuel : Nat) (d : Decimal) : Decimal :=
  match fuel with
  | 0 => d
  | fuel + 1 =>
    if d.coefficient % 10 = 0 then stripZeros fuel ⟨d.coefficient / 10, d.exponent + 1⟩ else d

/-- The decimal with the fewest digits that rounds to a finite number, the nearest of those. -/
def shortest (x : Binary64) : Decimal :=
  if x.magnitude = 0 then ⟨0, 0⟩
  else
    let top := x.decimalExponent
    let found := (List.range 17).findSome? fun (n : Nat) =>
      let power := top - n
      (x.grid power).nearest?.map fun c => stripZeros 18 ⟨c, power⟩
    found.getD ⟨(x.grid (top - 16)).value / (x.grid (top - 16)).step, top - 16⟩

end Binary64

/-- The choices of a text format for floating point numbers. -/
structure Spelling where
  /-- The least exponent written in positional notation. -/
  positionalFrom : Int
  /-- The first exponent above zero that is not. -/
  positionalBelow : Int
  /-- The text between the digits and an exponent above or at zero. -/
  exponentMark : String

namespace Spelling

/-- The digits of a decimal in this spelling. Positional notation always shows a fraction. -/
def writeDecimal (spelling : Spelling) (d : Decimal) : String :=
  let digits := Nat.toDigits 10 d.coefficient
  let lead := d.exponent + digits.length - 1
  if spelling.positionalFrom ≤ lead ∧ lead < spelling.positionalBelow then
    if 0 ≤ d.exponent then
      String.ofList (digits ++ List.replicate d.exponent.toNat '0') ++ ".0"
    else if 0 ≤ lead then
      let whole := (lead + 1).toNat
      String.ofList (digits.take whole) ++ "." ++ String.ofList (digits.drop whole)
    else
      "0." ++ String.ofList (List.replicate (-lead - 1).toNat '0' ++ digits)
  else
    let fraction := if digits.length = 1 then "" else "." ++ String.ofList (digits.drop 1)
    let mark := if lead < 0 then "e" else spelling.exponentMark
    String.ofList (digits.take 1) ++ fraction ++ mark ++ toString lead

/-- A finite number in this spelling. A zero keeps its sign. -/
def write (spelling : Spelling) (x : Binary64) : String :=
  let sign := if x.negative then "-" else ""
  if x.magnitude = 0 then sign ++ "0.0" else sign ++ spelling.writeDecimal x.shortest

end Spelling

end Pedigree
