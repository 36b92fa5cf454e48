/-
Floats as sign, whole number and power of two.

A finite double is a sign, a whole number `m` and an exponent `e`, and stands
for `m · 2^e`. Rounding to a narrower format and cutting off a fraction are
whole-number arithmetic on that triple, so both are written on it and not in
terms of narrower machine floats. The double itself is taken apart and put
together through its bits.

Rounding is to the nearest multiple of a power of two, and a value halfway
between two goes to the even one. A format is given by how many binary digits
it keeps, by the exponent below which it has no finer steps, and by the power
of two where it ends.
-/
import SimdLowering.Number.Power

set_option autoImplicit false

namespace SimdLowering

/-- A double, taken apart. -/
inductive FloatParts where
  | nan
  | infinite (negative : Bool)
  | finite (negative : Bool) (m : Nat) (e : Int)
  deriving DecidableEq, Repr, Inhabited

namespace FloatParts

/-- Take a double apart. The bits are one for the sign, eleven for the
exponent and fifty-two for the digits after the leading one. -/
def ofFloat (x : Float) : FloatParts :=
  let bits := x.toBits.toNat
  let negative := decide (twoPow 63 ≤ bits)
  let exponent : Nat := bits / twoPow 52 % twoPow 11
  let fraction : Nat := bits % twoPow 52
  if exponent = twoPow 11 - 1 then
    if fraction = 0 then .infinite negative else .nan
  else if exponent = 0 then .finite negative fraction (-1074)
  else .finite negative (twoPow 52 + fraction) ((exponent : Int) - 1075)

/-- The sign bit in place. -/
def signBits (negative : Bool) : Nat := if negative then twoPow 63 else 0

/-- Put a double together. A finite triple must be one that a normal double
can hold exactly: its digits fit in fifty-three bits, and its leading digit
lies above the subnormal range. -/
def toFloat : FloatParts → Float
  | nan => Float.ofBits 0x7ff8000000000000
  | infinite negative => Float.ofBits (UInt64.ofNat (signBits negative + 0x7ff0000000000000))
  | finite negative m e =>
    if m = 0 then Float.ofBits (UInt64.ofNat (signBits negative))
    else
      let exponent := (e + m.log2 + 1023).toNat
      let fraction := m * twoPow (52 - m.log2) - twoPow 52
      Float.ofBits (UInt64.ofNat (signBits negative + exponent * twoPow 52 + fraction))

end FloatParts

/-- The quotient `m / 2^k`, rounded to the nearest whole number and to the even
one of two that are equally near. -/
def roundShift (m k : Nat) : Nat :=
  let q : Nat := m / twoPow k
  let r : Nat := m % twoPow k
  if twoPow k < 2 * r ∨ (2 * r = twoPow k ∧ q % 2 = 1) then q + 1 else q

/-- A binary float format. -/
structure BinaryFormat where
  /-- Binary digits kept. -/
  digits : Nat
  /-- Exponent of the finest step. -/
  finest : Int
  /-- Exponent of the first power of two that is out of range. -/
  limit : Int
  deriving DecidableEq, Repr

namespace BinaryFormat

/-- Single precision. -/
def single : BinaryFormat := ⟨24, -149, 128⟩

/-- The upper half of single precision. -/
def brain : BinaryFormat := ⟨8, -133, 128⟩

/-- Round a triple into the format; what reaches the limit becomes infinite. -/
def roundFinite (f : BinaryFormat) (negative : Bool) (m : Nat) (e : Int) : FloatParts :=
  let last := max e (max f.finest (e + m.log2 + 1 - f.digits))
  let n := roundShift m (last - e).toNat
  if n ≠ 0 ∧ f.limit ≤ last + n.log2 then .infinite negative else .finite negative n last

/-- Round a double into the format. -/
def round (f : BinaryFormat) (x : Float) : Float :=
  match FloatParts.ofFloat x with
  | .nan => FloatParts.nan.toFloat
  | .infinite negative => (FloatParts.infinite negative).toFloat
  | .finite negative m e => (f.roundFinite negative m e).toFloat

end BinaryFormat

/-- The whole part of `m · 2^e`. -/
def wholePart (m : Nat) (e : Int) : Nat :=
  if 0 ≤ e then m * twoPow e.toNat else m / twoPow (-e).toNat

/-- The least and the greatest integer of 128 bits. -/
def int128Range : Int × Int := (-(twoPow 127 : Int), (twoPow 127 : Int) - 1)

/-- The integer a double stands for: the fraction is cut off, what is out of
range of 128 bits goes to the nearer end, and what is no number is zero. -/
def truncateToInt (x : Float) : Int :=
  match FloatParts.ofFloat x with
  | .nan => 0
  | .infinite negative => if negative then int128Range.1 else int128Range.2
  | .finite negative m e =>
    let n : Int := wholePart m e
    max int128Range.1 (min int128Range.2 (if negative then -n else n))

end SimdLowering
