/-
The fewest decimal digits that name a double.

The reals that round to a given double form an interval around it: half a step
to either side, the ends included when the last binary digit is even. A
decimal names the double when it lies in that interval. Decimals with a given
number of digits form a grid, and if a grid has any point in the interval then
one of the two grid points next to the value is in it; so it is enough to look
at those two, for one digit, two digits, and so on up to seventeen, which
always suffice.

Where both neighbours are in the interval the nearer one is taken, and of two
equally near ones the larger. All comparisons are between whole numbers.
-/
import SimdLowering.Number.Dyadic

set_option autoImplicit false

namespace SimdLowering

/-- A decimal: `digits · 10^exponent`. -/
structure Decimal where
  digits : Nat
  exponent : Int
  deriving DecidableEq, Repr, Inhabited

/-- A positive rational as a quotient of whole numbers. -/
structure Quotient where
  num : Nat
  den : Nat
  deriving DecidableEq, Repr, Inhabited

namespace Quotient

/-- The quotient `m · 2^e`. -/
def ofDyadic (m : Nat) (e : Int) : Quotient :=
  if 0 ≤ e then ⟨m * twoPow e.toNat, 1⟩ else ⟨m, twoPow (-e).toNat⟩

/-- The quotient of a decimal. -/
def ofDecimal (d : Decimal) : Quotient :=
  if 0 ≤ d.exponent then ⟨d.digits * tenPow d.exponent.toNat, 1⟩
  else ⟨d.digits, tenPow (-d.exponent).toNat⟩

/-- Whether one quotient is below another. -/
def below (a b : Quotient) : Bool := decide (a.num * b.den < b.num * a.den)

/-- The whole part of the quotient divided by `10^exponent`. -/
def gridFloor (q : Quotient) (exponent : Int) : Nat :=
  if 0 ≤ exponent then q.num / (q.den * tenPow exponent.toNat)
  else q.num * tenPow (-exponent).toNat / q.den

end Quotient

/-- The number of decimal digits of a positive whole number. -/
def decimalLength (n : Nat) : Nat := (Nat.toDigits 10 n).length

/-- The place of the leading digit, as the `k` with
`10^(k-1) ≤ q < 10^k`. -/
def leadingPlace (q : Quotient) : Int :=
  if q.den ≤ q.num then decimalLength (q.num / q.den)
  else
    let d := decimalLength (q.den / q.num)
    if q.num * tenPow (d - 1) = q.den then 2 - (d : Int) else 1 - (d : Int)

/-- The interval of reals that round to a double. -/
structure RoundingInterval where
  value : Quotient
  low : Quotient
  high : Quotient
  closed : Bool
  deriving Repr, Inhabited

namespace RoundingInterval

/-- The interval of the double `m · 2^e`. The step below a power of two is half
as wide as the step above it, except at the bottom of the range. -/
def ofDyadic (m : Nat) (e : Int) : RoundingInterval :=
  let down := if m = twoPow 52 ∧ -1074 < e then 1 else 2
  ⟨.ofDyadic (4 * m) (e - 2), .ofDyadic (4 * m - down) (e - 2), .ofDyadic (4 * m + 2) (e - 2),
    decide (m % 2 = 0)⟩

/-- Whether a quotient rounds to the double. -/
def contains (i : RoundingInterval) (q : Quotient) : Bool :=
  if i.closed then !(q.below i.low) && !(i.high.below q)
  else i.low.below q && q.below i.high

/-- The point `n` of a grid; ten units of a grid are one of the next. -/
def gridPoint (n : Nat) (exponent : Int) : Decimal :=
  if n = 10 then ⟨1, exponent + 1⟩ else ⟨n, exponent⟩

/-- The decimal of one grid that names the double, if the grid has one: the
nearer of the two neighbours of the value, the upper one if they are equally
near. -/
def onGrid? (i : RoundingInterval) (exponent : Int) : Option Decimal :=
  let n := i.value.gridFloor exponent
  let lower := gridPoint n exponent
  let upper := gridPoint (n + 1) exponent
  match i.contains (.ofDecimal lower), i.contains (.ofDecimal upper) with
  | true, true =>
    if i.value.below (.ofDecimal ⟨10 * n + 5, exponent - 1⟩) then some lower else some upper
  | true, false => some lower
  | false, true => some upper
  | false, false => none

/-- The shortest decimal in the interval. -/
def shortest (i : RoundingInterval) : Decimal :=
  let place := leadingPlace i.value
  ((List.range 17).findSome? fun (n : Nat) => i.onGrid? (place - (n + 1 : Nat))).getD
    ⟨i.value.gridFloor (place - 17), place - 17⟩

end RoundingInterval

namespace Decimal

/-- Digits without exponent: zeros after them, or a point inside or before
them. -/
def positional (d : Decimal) : String :=
  let text := toString d.digits
  if 0 ≤ d.exponent then text ++ String.ofList (List.replicate d.exponent.toNat '0')
  else
    let places := (-d.exponent).toNat
    let padded := List.replicate (places + 1 - text.length) '0' ++ text.toList
    let whole := padded.take (padded.length - places)
    let fraction := padded.drop (padded.length - places)
    String.ofList whole ++ "." ++ String.ofList fraction

end Decimal

/-- The text of a float attribute: the shortest digits, never with an
exponent, and a point and a zero after a whole number. Zero keeps its sign. -/
def floatText (x : Float) : String :=
  match FloatParts.ofFloat x with
  | .nan => "NaN"
  | .infinite negative => if negative then "-inf" else "inf"
  | .finite negative m e =>
    let digits := if m = 0 then "0" else (RoundingInterval.ofDyadic m e).shortest.positional
    let text := if digits.contains '.' then digits else digits ++ ".0"
    if negative then "-" ++ text else text

end SimdLowering
