/-
What may stay on each generation.

The target's instructions, arithmetic and functions may stay, with exceptions
that are decided operation by operation. On the first generation these are the
adds and subtracts of vectors, loads that contribute too much, and multiply-
adds into which a splat can still be folded. On the second they are the
shapes that its instruction tables cover. A product that only feeds one add
may stay, because the add takes it with it.
-/
import SimdLowering.Rewrite.Legality
import SimdLowering.Target.Generation

set_option autoImplicit false

namespace SimdLowering

namespace FinalForm

/-! ## Both generations -/

/-- The first result has no lanes. -/
def scalarResult (g : Graph) (op : OpId) : Bool := (g.resultShape? op).isNone

/-- The load contributes no more than one load may. -/
def loadFits (gen : Generation) : LegalityCheck := fun g op sizes => do
  let (n, sizes) ← sizes.query g op
  return (decide (n ≤ gen.maxLoadBits), sizes)

/-! ## First generation -/

/-- The splat that feeds a multiply-add, either as the first part of its left
operand or as its right operand. The left operand must be a concatenation. -/
def pendingSplat? (g : Graph) (op : OpId) : Except Fault (Option OpId) := do
  match ← g.definedBy? (← g.operandAt op 0) .concat with
  | none => return none
  | some concat =>
    match ← g.definedBy? (← g.operandAt concat 0) .broadcast with
    | some splat => return some splat
    | none => g.definedBy? (← g.operandAt op 1) .broadcast

/-- No splat of an extracted lane feeds the multiply-add. -/
def noPendingSplat (g : Graph) (op : OpId) : Except Fault Bool := do
  match ← pendingSplat? g op with
  | none => return true
  | some splat => return (← g.definedBy? (← g.operandAt splat 0) .extract).isNone

/-! ## Second generation -/

/-- The result is not of a shape that `p` picks out. -/
def resultAvoids (p : VectorShape → Bool) (g : Graph) (op : OpId) : Bool :=
  !(g.resultShape? op).any p

/-- The first operand is not of a shape that `p` picks out. -/
def operandAvoids (p : VectorShape → Bool) (g : Graph) (op : OpId) : Except Fault Bool := do
  return !(← g.operandShape? op 0).any p

/-- The result is no full register. -/
def resultNoRegister (g : Graph) (op : OpId) : Except Fault Bool :=
  match g.resultShape? op with
  | none => .ok true
  | some shape => return !(← shape.fillsRegister)

/-- The first operand is no full register. -/
def operandNoRegister (g : Graph) (op : OpId) : Except Fault Bool := do
  match ← g.operandShape? op 0 with
  | none => return true
  | some shape => return !(← shape.fillsRegister)

/-- Shapes of integer products that are lowered: thirty-two narrow lanes, or
sixteen or thirty-two lanes of thirty-two bits. -/
def isIntProductShape (s : VectorShape) : Bool :=
  (s.lanes == 32 && (s.elemBits == 8 || s.elemBits == 16)) ||
    ((s.lanes == 16 || s.lanes == 32) && s.elemBits == 32)

/-- Shapes of float products that are lowered. -/
def isFloatProductShape (s : VectorShape) : Bool :=
  s.lanes == 16 && (s.elemBits == 16 || s.elemBits == 32)

/-- A product may stay if it feeds a single add, or is of no lowered shape. -/
def productStays (reader : OpKind) (p : VectorShape → Bool) (g : Graph) (op : OpId) : Bool :=
  g.hasSingleUseBy op reader || resultAvoids p g op

/-- A reduction may stay if it has no combining function or multiplies, or is
of a shape that no reduction is lowered from. -/
def reductionStays (g : Graph) (op : OpId) : Except Fault Bool :=
  match (g.attrs op).combiningKind? with
  | none => .ok true
  | some .mul => .ok true
  | some _ =>
    operandAvoids (fun s => if s.isFloat then s.lanes == 16 || s.lanes == 32 else s.isElementwise)
      g op

/-- A splat may stay unless it copies an extracted lane. -/
def splatStays (g : Graph) (op : OpId) : Except Fault Bool := do
  return (← g.definedBy? (← g.operandAt op 0) .extract).isNone

/-! ## The two targets -/

/-- What holds on both generations. -/
def commonSettings : List TargetSetting :=
  [.legalDialect .aievec, .legalDialect .arith, .legalDialect .func, .illegalKind .transferRead,
    .check .addi (.ofPredicate scalarResult), .check .addf (.ofPredicate scalarResult),
    .check .subi (.ofPredicate scalarResult), .check .subf (.ofPredicate scalarResult)]

/-- What holds on the first generation besides. -/
def aieSettings : List TargetSetting :=
  [.check .upd (loadFits .aie), .check .fma (.ofTest noPendingSplat)]

/-- What holds on the second generation besides. -/
def aiemlSettings : List TargetSetting :=
  [TargetSetting.legalKind .unrealizedCast, .check .upd (loadFits .aieml)] ++
    [OpKind.addi, .subi].map
      (fun k => TargetSetting.check k (.ofPredicate (resultAvoids VectorShape.isElementwise))) ++
    [OpKind.addf, .subf].map
      (fun k => TargetSetting.check k (.ofPredicate (resultAvoids fun s => s.lanes == 16))) ++
    [TargetSetting.check .muli (.ofPredicate (productStays .addi isIntProductShape)),
      .check .mulf (.ofPredicate (productStays .addf isFloatProductShape))] ++
    [OpKind.minsi, .maxsi, .minf, .maxf, .select].map
      (fun k => TargetSetting.check k (.ofTest resultNoRegister)) ++
    [OpKind.cmpi, .cmpf].map
      (fun k => TargetSetting.check k (.ofTest operandNoRegister)) ++
    [TargetSetting.check .reduction (.ofTest reductionStays),
      .check .broadcast (.ofTest splatStays)]

end FinalForm

namespace Generation

/-- The settings of a generation, in order. -/
def settings : Generation → List TargetSetting
  | aie => FinalForm.commonSettings ++ FinalForm.aieSettings
  | aieml => FinalForm.commonSettings ++ FinalForm.aiemlSettings

/-- The conversion target of a generation. -/
def conversionTarget (gen : Generation) : ConversionTarget := .ofSettings gen.settings

end Generation

end SimdLowering
