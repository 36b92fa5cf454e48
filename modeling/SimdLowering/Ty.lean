/-
Types of values.

A type is a scalar, a one-dimensional vector of an element type, or a
row-major memory buffer of an element type. Types are compared by structure:
two types are the same exactly when they are built the same way, so no table
is needed to tell them apart. The table that numbers types in order of first
appearance is a separate matter (`TypeTable`).

Most of what the rewrite rules ask of a type is its lane layout: how many
lanes, how wide, and whether the lanes are floats. That is `VectorShape`, and
it exists exactly for vectors whose element is an integer or a float.
-/
import SimdLowering.Number.Machine

set_option autoImplicit false

namespace SimdLowering

/-- How the bits of an integer are read. -/
inductive Signedness where
  | signless
  | signed
  | unsigned
  deriving DecidableEq, Repr, Inhabited

/-- The float formats a lane can have. -/
inductive FloatFormat where
  | f16
  | bf16
  | f32
  deriving DecidableEq, Repr, Inhabited

namespace FloatFormat

/-- Storage width in bits. -/
def width : FloatFormat → Nat
  | f16 => 16
  | bf16 => 16
  | f32 => 32

/-- The name of the format in type text. -/
def render : FloatFormat → String
  | f16 => "f16"
  | bf16 => "bf16"
  | f32 => "f32"

end FloatFormat

/-- The type of a value. Elements of vectors and memory are types themselves;
nothing forbids a vector of vectors, it only has no lane layout. -/
inductive Ty where
  | int (width : Nat) (sign : Signedness)
  | float (format : FloatFormat)
  | index
  | vector (lanes : Nat) (elem : Ty)
  | memory (shape : List Nat) (elem : Ty)
  deriving DecidableEq, Repr, Inhabited

/-- Lane layout of a vector with integer or float lanes. -/
structure VectorShape where
  lanes : Nat
  elem : Ty
  elemBits : Nat
  isFloat : Bool
  deriving DecidableEq, Repr, Inhabited

namespace VectorShape

/-- Size of the whole vector in bits, as a whole number. -/
def bits (s : VectorShape) : Nat := s.lanes * s.elemBits

/-- Size of the whole vector in bits, as it is computed: in 32 bits. -/
def bits32 (s : VectorShape) : Except Fault Nat := fitU32 s.bits

/-- Lane count and lane width, the key of the instruction tables. -/
def pair (s : VectorShape) : Nat × Nat := (s.lanes, s.elemBits)

end VectorShape

namespace Ty

/-- The signless integer of the given width. -/
abbrev i (width : Nat) : Ty := .int width .signless

/-- The unsigned integer of the given width. -/
abbrev ui (width : Nat) : Ty := .int width .unsigned

/-- Whether the type is a vector, of whatever element. -/
def isVector : Ty → Bool
  | vector _ _ => true
  | _ => false

/-- Whether the type is a float scalar. -/
def isFloat : Ty → Bool
  | float _ => true
  | _ => false

/-- Width of an integer or float scalar; nothing else has one. -/
def scalarBits : Ty → Option Nat
  | int width _ => some width
  | float format => some format.width
  | _ => none

/-- Element of a vector or of memory; any other type is its own element. -/
def elementType : Ty → Ty
  | vector _ elem => elem
  | memory _ elem => elem
  | t => t

/-- Lane layout of the type, if it is a vector of integers or floats. -/
def vectorShape : Ty → Option VectorShape
  | vector lanes elem =>
    elem.scalarBits.map fun bits => ⟨lanes, elem, bits, elem.isFloat⟩
  | _ => none

/-- Number of indices that address the memory; zero for anything else. -/
def memoryRank : Ty → Nat
  | memory shape _ => shape.length
  | _ => 0

/-- The letters before an integer's width. -/
def signText : Signedness → String
  | .signless => "i"
  | .signed => "si"
  | .unsigned => "ui"

/-- The text of a type, such as `vector<4xi8>`. Dimensions are written before
the element, each followed by an `x`. -/
def render : Ty → String
  | int width sign => signText sign ++ toString width
  | float format => format.render
  | index => "index"
  | vector lanes elem => "vector<" ++ toString lanes ++ "x" ++ elem.render ++ ">"
  | memory shape elem =>
    "memref<" ++ String.join (shape.map fun d => toString d ++ "x") ++ elem.render ++ ">"

instance : ToString Ty := ⟨render⟩

end Ty

end SimdLowering
