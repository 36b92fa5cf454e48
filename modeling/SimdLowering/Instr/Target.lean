/-
The target's instructions, as drafts.

Products and sums with products live in a wider accumulator form. Values enter
it through `ups`, leave it through `srs`, which shifts, rounds and saturates,
and are moved between the two views of the same lanes by `cast`.
-/
import SimdLowering.Instr.Shuffle

set_option autoImplicit false

namespace SimdLowering

namespace Instr

variable {α : Type}

/-! ## Memory and data movement -/

/-- Load a vector, written from bit `offset` on; the lanes before it come from
the carried vector. -/
def upd (ty : Ty) (source : α) (indices : List α) (offset index : Int) (carry : Option α) :
    Draft α :=
  ((Draft.pureOp .upd (source :: indices ++ carry.toList) ty).withAttr AttrName.offset
    (.int offset)).withAttr AttrName.index (.int index)

/-- Shift lanes up into accumulator form. -/
def ups (ty : Ty) (v : α) (shift : Int) : Draft α :=
  (Draft.pureOp .ups [v] ty).withAttr AttrName.shift (.int shift)

/-- Shift an accumulator down, round and saturate. -/
def srs (ty : Ty) (v : α) (shift : Int) : Draft α :=
  (Draft.pureOp .srs [v] ty).withAttr AttrName.shift (.int shift)

/-- Move lanes between register and accumulator form. -/
def cast (ty : Ty) (v : α) (isResAcc : Bool) : Draft α :=
  (Draft.pureOp .cast [v] ty).withAttr AttrName.isResAcc (.bool isResAcc)

/-- Put vectors one after the other. -/
def concat (ty : Ty) (sources : List α) : Draft α := .pureOp .concat sources ty

/-- Take the slice of the given number out of a vector. -/
def ext (ty : Ty) (v : α) (index : Int) : Draft α :=
  (Draft.pureOp .ext [v] ty).withAttr AttrName.index (.int index)

/-- Take a window that starts so many bytes into two joined vectors. -/
def shift (ty : Ty) (lhs rhs bytes : α) (isAcc : Bool) : Draft α :=
  (Draft.pureOp .shift [lhs, rhs, bytes] ty).withAttr AttrName.isAcc (.bool isAcc)

/-- Read the lane of the given number. -/
def extElem (ty : Ty) (v lane : α) : Draft α := .pureOp .extElem [v, lane] ty

/-- Copy one lane to every lane. -/
def broadcastLane (ty : Ty) (v : α) (idx : Int) : Draft α :=
  (Draft.pureOp .broadcastLane [v] ty).withAttr AttrName.idx (.int idx)

/-- Copy a scalar to every lane. -/
def broadcastScalar (ty : Ty) (scalar : α) : Draft α :=
  .pureOp .broadcastScalar [scalar] ty

/-! ## Arithmetic of the first generation -/

/-- Add over selected lanes. -/
def add (ty : Ty) (lhs rhs : α) (s : Shuffle) : Draft α :=
  s.applyTo false (.pureOp .add [lhs, rhs] ty)

/-- Subtract over selected lanes. -/
def sub (ty : Ty) (lhs rhs : α) (s : Shuffle) : Draft α :=
  s.applyTo false (.pureOp .sub [lhs, rhs] ty)

/-- Multiply over selected lanes. -/
def mul (ty : Ty) (lhs rhs : α) (s : Shuffle) : Draft α :=
  s.applyTo true (.pureOp .mul [lhs, rhs] ty)

/-- Add a product over selected lanes to an accumulator, or take it off. -/
def fma (ty : Ty) (lhs rhs acc : α) (s : Shuffle) (fmsub : Bool) : Draft α :=
  s.applyTo true ((Draft.pureOp .fma [lhs, rhs, acc] ty).withAttr AttrName.fmsub (.bool fmsub))

/-! ## Lanewise arithmetic of the second generation -/

/-- Add lane by lane. -/
def addElem (lhs : Operand α) (rhs : α) : Draft α := .pureOp .addElem [lhs.ref, rhs] lhs.ty

/-- Subtract lane by lane. -/
def subElem (lhs : Operand α) (rhs : α) : Draft α := .pureOp .subElem [lhs.ref, rhs] lhs.ty

/-- Keep the smaller of two lanes. -/
def minElem (lhs : Operand α) (rhs : α) : Draft α := .pureOp .min [lhs.ref, rhs] lhs.ty

/-- Keep the larger of two lanes. -/
def maxElem (lhs : Operand α) (rhs : α) : Draft α := .pureOp .max [lhs.ref, rhs] lhs.ty

/-- Multiply lane by lane into an accumulator. -/
def mulElem (ty : Ty) (lhs rhs : α) : Draft α := .pureOp .mulElem [lhs, rhs] ty

/-- Add a lanewise product to an accumulator, or take it off. -/
def fmaElem (lhs rhs : α) (acc : Operand α) (fmsub : Bool) : Draft α :=
  (Draft.pureOp .fmaElem [lhs, rhs, acc.ref] acc.ty).withAttr AttrName.fmsub (.bool fmsub)

/-- Compare lane by lane into one bit for each lane. -/
def cmp (ty : Ty) (lhs rhs : α) (pred : String) : Draft α :=
  (Draft.pureOp .cmp [lhs, rhs] ty).withAttr AttrName.pred (.str pred)

/-- Take lanes from the first value where the mask bit is set, from the second
elsewhere. -/
def sel (onTrue : Operand α) (onFalse mask : α) : Draft α :=
  .pureOp .sel [onTrue.ref, onFalse, mask] onTrue.ty

end Instr

end SimdLowering
