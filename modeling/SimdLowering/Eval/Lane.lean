/-
Lanes and what the instructions do to them.

A lane holds an integer or a float. Integer lanes are computed in 128 bits and
then brought into the range of their type; the two steps are kept apart, since
most of what can be said about a sequence of instructions rests on when a
result is brought into range. Wrapping to a width keeps the value modulo two
to the width; saturating keeps the nearest value in range.

Float lanes are doubles, rounded to the precision of their type after each
instruction. Sixteen-bit floats of the first kind are kept in single
precision.
-/
import SimdLowering.Number.Dyadic
import SimdLowering.Ty
import SimdLowering.Predicate

set_option autoImplicit false

namespace SimdLowering

/-- One lane of a vector, or a scalar. -/
inductive Lane where
  | int (value : Int)
  | float (value : Float)
  deriving Repr, Inhabited

/-- What the lanes of a type hold. -/
inductive ElemKind where
  | int (bits : Nat) (sign : Signedness)
  | float (format : FloatFormat)
  | index
  deriving DecidableEq, Repr, Inhabited

namespace ElemKind

/-- What the lanes of a type hold; whatever is neither integer nor float holds
indices. -/
def ofTy (ty : Ty) : ElemKind :=
  match ty.elementType with
  | .int width sign => .int width sign
  | .float format => .float format
  | _ => .index

/-- Width of a lane in bits; indices have sixty-four. -/
def bits : ElemKind → Nat
  | int bits _ => bits
  | float format => format.width
  | index => 64

/-- Whether lanes can be read without a sign. The mask of an integer width is a power of two
less one, and that of a hundred and twenty-seven bits overflows on the way. -/
def views : ElemKind → Bool
  | int bits _ => bits != 127
  | _ => true

/-- Whether lanes can be brought into range. Besides the mask this takes the highest bit, which
an integer without bits does not have; it is not looked at where there is no sign. -/
def wraps : ElemKind → Bool
  | int bits sign => bits != 127 && (bits != 0 || sign == .unsigned)
  | _ => true

/-- Whether lanes can be ordered. Only unsigned ones are read without a sign for it. -/
def orders : ElemKind → Bool
  | int bits .unsigned => bits != 127
  | _ => true

end ElemKind

/-! ## Integers -/

/-- An integer in 128 bits. -/
def wrap128 (v : Int) : Int := Int.bmod v (twoPow 128)

/-- Whether an integer needs no more than 128 bits. -/
def fits128 (v : Int) : Bool := decide (-(twoPow 127 : Int) ≤ v ∧ v < twoPow 127)

/-- Bring an integer into the range of a width by dropping its high bits. One
bit is read without a sign. The widths for which there is no such number are those
that `ElemKind.wraps` and `ElemKind.views` rule out; whoever asks looks there first. -/
def wrapInt (v : Int) (bits : Nat) (sign : Signedness) : Int :=
  if 128 ≤ bits then v
  else
    let m := v % twoPow bits
    if sign = .unsigned ∨ bits = 1 ∨ m < twoPow (bits - 1) then m else m - twoPow bits

/-- Bring an integer into the range of a width by taking the nearest value in
range. -/
def saturateInt (v : Int) (bits : Nat) (sign : Signedness) : Int :=
  if 127 ≤ bits then v
  else if sign = .unsigned then max 0 (min ((twoPow bits : Int) - 1) v)
  else max (-(twoPow (bits - 1) : Int)) (min ((twoPow (bits - 1) : Int) - 1) v)

/-- The amount a shift unit shifts by: shifts wrap at the width of a lane. -/
def laneShift (shift : Int) (bits : Nat) : Nat :=
  (shift % (max 1 (min 127 bits) : Nat)).toNat

/-- Shift right with rounding to the nearest, a half going up. -/
def shiftRounded (v : Int) (shift : Nat) : Int :=
  if shift = 0 then v else (v + twoPow (shift - 1)) / twoPow shift

/-- Whether the half step that rounding adds leaves the number in 128 bits. -/
def roundingFits (v : Int) (shift : Nat) : Bool :=
  shift == 0 || fits128 (v + twoPow (shift - 1))

/-- An integer as an unsigned word of sixty-four bits, the form in which lane
numbers are taken. -/
def asWord (v : Int) : Nat := (v % twoPow 64).toNat

/-! ## Floats -/

/-- Round a float to the precision its lanes are kept in. -/
def roundFloat (v : Float) : FloatFormat → Float
  | .f32 | .f16 => BinaryFormat.single.round v
  | .bf16 => BinaryFormat.brain.round (BinaryFormat.single.round v)

/-! ## Lanes -/

namespace Lane

/-- The lane as an integer; a float loses its fraction. -/
def asInt : Lane → Int
  | int v => v
  | float v => truncateToInt v

/-- The lane as a float. -/
def asFloat : Lane → Float
  | int v => Float.ofInt v
  | float v => v

/-- The integer lane one or zero. -/
def ofBool (b : Bool) : Lane := int (if b then 1 else 0)

/-- Bring a lane into the range of its type. -/
def normalize (kind : ElemKind) (lane : Lane) : Lane :=
  match kind with
  | .int bits sign => int (wrapInt lane.asInt bits sign)
  | .float format => float (roundFloat lane.asFloat format)
  | .index => int lane.asInt

/-- The integer of a lane, read without a sign. -/
def unsignedView (lane : Lane) (kind : ElemKind) : Int :=
  match kind with
  | .int bits _ => wrapInt lane.asInt bits .unsigned
  | _ => lane.asInt

/-- The sum of two lanes. -/
def add : Lane → Lane → Lane
  | int x, int y => int (wrap128 (x + y))
  | a, b => float (a.asFloat + b.asFloat)

/-- The difference of two lanes. -/
def sub : Lane → Lane → Lane
  | int x, int y => int (wrap128 (x - y))
  | a, b => float (a.asFloat - b.asFloat)

/-- The product of two lanes. -/
def mul : Lane → Lane → Lane
  | int x, int y => int (wrap128 (x * y))
  | a, b => float (a.asFloat * b.asFloat)

/-- Whether one lane is below another, as lanes of the given kind. -/
def lessThan (a b : Lane) : ElemKind → Bool
  | .float _ => a.asFloat < b.asFloat
  | .int bits .unsigned =>
    decide (a.unsignedView (.int bits .unsigned) < b.unsignedView (.int bits .unsigned))
  | _ => decide (a.asInt < b.asInt)

/-- The lane that a lanewise minimum keeps. The second lane is kept of two that
are equal. -/
def minimum (kind : ElemKind) (a b : Lane) : Lane := if a.lessThan b kind then a else b

/-- The lane that a lanewise maximum keeps. The first lane is kept of two that
are equal. -/
def maximum (kind : ElemKind) (a b : Lane) : Lane := if a.lessThan b kind then b else a

/-- Fold one more lane into the result of a reduction. -/
def combine (combining : CombiningKind) (kind : ElemKind) (acc lane : Lane) : Lane :=
  match combining with
  | .add => acc.add lane
  | .mul => acc.mul lane
  | .minsi | .minf => if lane.lessThan acc kind then lane else acc
  | .maxsi | .maxf => if acc.lessThan lane kind then lane else acc
  | .minui => if lane.unsignedView kind < acc.unsignedView kind then lane else acc
  | .maxui => if acc.unsignedView kind < lane.unsignedView kind then lane else acc

end Lane

/-- Whether lanes of the kind can be folded this way. -/
def CombiningKind.folds (combining : CombiningKind) (kind : ElemKind) : Bool :=
  match combining with
  | .add | .mul => true
  | .minui | .maxui => kind.views
  | _ => kind.orders

/-! ## Comparison -/

namespace IntPredicate

/-- Whether two lanes of the given kind satisfy the predicate. -/
def holds (p : IntPredicate) (a b : Lane) (kind : ElemKind) : Bool :=
  match p with
  | eq => decide (a.asInt = b.asInt)
  | ne => decide (a.asInt ≠ b.asInt)
  | slt => decide (a.asInt < b.asInt)
  | sle => decide (a.asInt ≤ b.asInt)
  | sgt => decide (b.asInt < a.asInt)
  | sge => decide (b.asInt ≤ a.asInt)
  | ult => decide (a.unsignedView kind < b.unsignedView kind)
  | ule => decide (a.unsignedView kind ≤ b.unsignedView kind)
  | ugt => decide (b.unsignedView kind < a.unsignedView kind)
  | uge => decide (b.unsignedView kind ≤ a.unsignedView kind)

/-- How the target reads the predicate on float lanes: the signed family as
the ordered one, the unsigned family as the unordered one. -/
def floatTwin : IntPredicate → FloatPredicate
  | eq => .oeq
  | ne => .une
  | slt => .olt
  | sle => .ole
  | sgt => .ogt
  | sge => .oge
  | ult => .ult
  | ule => .ule
  | ugt => .ugt
  | uge => .uge

end IntPredicate

namespace FloatPredicate

/-- Whether two floats satisfy the predicate. -/
def holds (p : FloatPredicate) (a b : Float) : Bool :=
  let unordered := a.isNaN || b.isNaN
  match p with
  | alwaysFalse => false
  | alwaysTrue => true
  | ord => !unordered
  | uno => unordered
  | oeq => !unordered && a == b
  | ogt => !unordered && decide (b < a)
  | oge => !unordered && decide (b ≤ a)
  | olt => !unordered && decide (a < b)
  | ole => !unordered && decide (a ≤ b)
  | one => !unordered && a != b
  | ueq => unordered || a == b
  | ugt => unordered || decide (b < a)
  | uge => unordered || decide (b ≤ a)
  | ult => unordered || decide (a < b)
  | ule => unordered || decide (a ≤ b)
  | une => unordered || a != b

end FloatPredicate

end SimdLowering
