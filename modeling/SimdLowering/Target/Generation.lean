/-
The hardware generations and their tables.

Two generations of one vector processor. The first has 256-bit registers and
shuffled arithmetic, the second 512-bit registers and lanewise arithmetic on a
fixed set of lane counts and widths. Both multiply into accumulators that are
wider than the lanes; how much wider depends on the generation.
-/
import SimdLowering.Ty

set_option autoImplicit false

namespace SimdLowering

/-- A hardware generation. -/
inductive Generation where
  | aie
  | aieml
  deriving DecidableEq, Repr, Inhabited

namespace Generation

/-- The name a generation is selected by. -/
def selector : Generation → String
  | aie => "aie"
  | aieml => "aieml"

/-- The generation of the given name. -/
def ofSelector? (s : String) : Option Generation := [aie, aieml].find? fun g => g.selector == s

/-- Width of a vector register in bits. -/
def nativeBits : Generation → Nat
  | aie => 256
  | aieml => 512

/-- The most bits that one load may contribute: two registers. -/
def maxLoadBits (g : Generation) : Nat := 2 * g.nativeBits

/-- The element type of the accumulator for lanes of the given type. Only
integers, and on the second generation sixteen-bit floats, get wider. -/
def accumulatorElem : Generation → Ty → Ty
  | aieml, .int width _ => .i (if width ≤ 16 then 32 else 64)
  | aie, .int width _ => .i (if width ≤ 16 then 48 else 80)
  | aieml, .float format => if format.width = 16 then .float .f32 else .float format
  | _, ty => ty

/-- The accumulator type for a vector type, lane by lane. Nothing else has
one. -/
def accumulator? (g : Generation) (ty : Ty) : Option Ty :=
  ty.vectorShape.map fun shape => .vector shape.lanes (g.accumulatorElem shape.elem)

end Generation

/-- The second generation's accumulator for a type; a type that has none stays
as it is. -/
def accumulatorOf (ty : Ty) : Ty := (Generation.aieml.accumulator? ty).getD ty

/-- Lane counts and widths of the second generation's lanewise add, subtract
and integer sum. -/
def elementwiseShapes : List (Nat × Nat) := [(64, 8), (32, 16), (16, 32), (32, 32)]

/-- Lane widths of the second generation's minimum, maximum, compare and
select. -/
def fullRegisterWidths : List Nat := [8, 16, 32]

/-- Size of the register that minimum, maximum, compare and select work on. -/
def fullRegisterBits : Nat := 512

namespace VectorShape

/-- Whether there is a lanewise add for the shape. -/
def isElementwise (s : VectorShape) : Bool := elementwiseShapes.contains s.pair

/-- Whether the shape is exactly one register of lanes of a listed width. -/
def isFullRegister (s : VectorShape) : Bool :=
  fullRegisterWidths.contains s.elemBits && s.bits == fullRegisterBits

/-- The same, as it is decided: the size is computed once the width is listed. -/
def fillsRegister (s : VectorShape) : Except Fault Bool := do
  if fullRegisterWidths.contains s.elemBits then return (← s.bits32) == fullRegisterBits
  else return false

end VectorShape

end SimdLowering
