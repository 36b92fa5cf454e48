/-
Rules for products on the second generation.

A product goes into an accumulator and comes back down with a shift, or is
only moved back where the lanes were extended from narrower ones and the
accumulator already has the width of the result. The eight-bit multiplier and
the sixteen-bit float multiplier read a full register, so half-register
operands are padded with zeros first.

A product that only feeds one add is left alone; the add takes it with it.
-/
import SimdLowering.Instr.Target
import SimdLowering.Rules.Match
import SimdLowering.Target.Generation

set_option autoImplicit false

namespace SimdLowering

namespace Rules

/-- The product of two half registers, in accumulator form. -/
def paddedProduct (lhs rhs : Source) (srcTy : Ty) (elemBits : Nat) :
    Plan (Operand Source) := do
  let elem := srcTy.elementType
  let wideTy := Ty.vector (512 / elemBits) elem
  let zero ← Plan.emit (Instr.constantZero elem)
  let splat ← Plan.emit (Instr.broadcastScalar wideTy zero.ref)
  let half ← Plan.emit (Instr.ext srcTy splat.ref 0)
  let l ← Plan.emit (Instr.concat wideTy [lhs, half.ref])
  let r ← Plan.emit (Instr.concat wideTy [rhs, half.ref])
  Plan.emit (Instr.mulElem (accumulatorOf srcTy) l.ref r.ref)

/-- The product of two full registers, in accumulator form. -/
def plainProduct (lhs rhs : Source) (srcTy : Ty) : Plan (Operand Source) :=
  Plan.emit (Instr.mulElem (accumulatorOf srcTy) lhs rhs)

/-- Bring a product back down with a shift. -/
def shiftedDown (ty : Ty) (shift : Int) (product : Plan (Operand Source)) : Plan Step := do
  return Instr.srs ty (← product).ref shift

/-- Move a product back as it is. -/
def movedBack (ty : Ty) (product : Plan (Operand Source)) : Plan Step := do
  return Instr.cast ty (← product).ref false

/-- What two extended values are extended from, if the lanes of both had the
same width, and that width. -/
def extendedPair? (g : Graph) (lhs rhs : ValueId) (kind : OpKind) :
    Except Fault (Option (ValueId × ValueId × Nat)) := do
  match ← g.extensionSource? lhs kind with
  | none => return none
  | some l =>
    match ← g.extensionSource? rhs kind with
    | none => return none
    | some r =>
      match ← g.valueShape? l with
      | none => return none
      | some ls =>
        return (← g.valueShape? r).bind fun rs =>
          if ls.elemBits = rs.elemBits then some (l, r, ls.elemBits) else none

/-- Shapes of integer products with narrow lanes. -/
def isNarrowProduct (s : VectorShape) : Bool :=
  s.lanes == 32 && (s.elemBits == 16 || s.elemBits == 8)

/-- Shapes of integer products with lanes of thirty-two bits. -/
def isWideProduct (s : VectorShape) : Bool :=
  (s.lanes == 16 || s.lanes == 32) && s.elemBits == 32

/-- How an integer product of a lowered shape is planned. -/
def intProductPlan (g : Graph) (shape : VectorShape) (lhs rhs : ValueId) (ty : Ty) (shift : Int) :
    Except Fault (Plan Step) := do
  let full := shiftedDown ty shift (plainProduct (.value lhs) (.value rhs) ty)
  if shape.pair = (32, 32) then
    match ← extendedPair? g lhs rhs .extsi with
    | some (l, r, 8) =>
      return movedBack ty (paddedProduct (.value l) (.value r) (← g.valueTy l) 8)
    | some (l, r, 16) =>
      return movedBack ty (plainProduct (.value l) (.value r) (← g.valueTy l))
    | _ => return full
  else if shape.pair = (32, 8) then
    return shiftedDown ty shift (paddedProduct (.value lhs) (.value rhs) ty 8)
  else return full

/-- Integer products become lanewise products. -/
def mulIToMulElem (shift : Int) : Rule :=
  .ofDecision "MulIToMulElem" [.muli] fun g op =>
    match g.resultShape? op with
    | none => .ok .decline
    | some shape =>
      if g.hasSingleUseBy op .addi || !(isNarrowProduct shape || isWideProduct shape) then
        .ok .decline
      else do
        let (lhs, rhs) ← g.binaryOperands op
        let ty ← g.firstResultType op
        return .follow (← intProductPlan g shape lhs rhs ty shift)

/-- Shapes of float products. -/
def isFloatProduct (s : VectorShape) : Bool :=
  s.lanes == 16 && (s.elemBits == 16 || s.elemBits == 32)

/-- Float products become lanewise products, of the sixteen-bit values they are
made of. -/
def mulFToMulElem (shift : Int) : Rule :=
  .ofDecision "MulFToMulElem" [.mulf] fun g op =>
    match g.resultShape? op with
    | none => .ok .decline
    | some shape =>
      if g.hasSingleUseBy op .addf || !isFloatProduct shape then .ok .decline
      else do
        let (lhs, rhs) ← g.binaryOperands op
        let ty ← g.firstResultType op
        if shape.elemBits = 16 then
          return .follow
            (shiftedDown ty shift (paddedProduct (.value lhs) (.value rhs) ty 16))
        else
          match ← extendedPair? g lhs rhs .extf with
          | some (l, r, 16) =>
            return .follow
              (movedBack ty (paddedProduct (.value l) (.value r) (← g.valueTy l) 16))
          | _ => return .decline

end Rules

end SimdLowering
