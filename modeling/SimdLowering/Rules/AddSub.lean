/-
Rules for sums and differences.

On the first generation a sum or difference of vectors becomes the shuffled
instruction that reads its lanes in order. On the second it becomes the
lanewise instruction, directly where the operands fill a register, and through
the accumulator where they are narrower than one or were extended from
narrower lanes: then the extension and the move into the accumulator are one
step.

A sum with a product is left alone, since another rule makes a multiply-add of
it.
-/
import SimdLowering.Instr.Target
import SimdLowering.Rules.Match
import SimdLowering.Target.Generation

set_option autoImplicit false

namespace SimdLowering

namespace Rules

/-- The kinds that the lanewise arithmetic rules can be made for. -/
def lanewiseKinds : List OpKind := [.addi, .addf, .subi, .subf, .minsi, .maxsi, .minf, .maxf]

/-- A rule made for a kind is tried on that kind, if it is one of those above. -/
def lanewiseRoots (kind : OpKind) : List OpKind :=
  if lanewiseKinds.contains kind then [kind] else []

/-- Whether the rule for a kind adds; it subtracts otherwise. -/
def isSum (kind : OpKind) : Bool := kind == .addi || kind == .addf

/-! ## First generation -/

/-- The name of the first generation's rule for a kind. -/
def shuffledName : OpKind → String
  | .addi => "AddIToAdd"
  | .addf => "AddFToAdd"
  | .subi => "SubIToSub"
  | _ => "SubFToSub"

/-- Sums and differences of vectors become shuffled instructions. -/
def shuffledAddSub (kind : OpKind) : Rule :=
  .ofDecision (shuffledName kind) (lanewiseRoots kind) fun g op =>
    match g.resultShape? op with
    | none => .ok .decline
    | some _ => do
      let (lhs, rhs) ← g.binaryOperands op
      let fuses ← if kind = .addi then (Option.isSome <$> g.macOperands? lhs rhs) else pure false
      if fuses then return .decline
      else
        let ty ← g.firstResultType op
        let build := if isSum kind then Instr.add else Instr.sub
        return .follow (pure (build ty (.value lhs) (.value rhs) .standard))

/-! ## Second generation -/

/-- The lanewise sum or difference. -/
def elemStep (sum : Bool) (lhs : Operand Source) (rhs : Source) : Step :=
  if sum then Instr.addElem lhs rhs else Instr.subElem lhs rhs

/-- A value moved into accumulator form, as a step. -/
def intoAcc (accTy : Ty) (v : Source) : Plan (Operand Source) :=
  Plan.emit (Instr.ups accTy v 0)

/-- A value viewed in accumulator form, as a step. -/
def viewAcc (ty : Ty) (v : Source) : Plan (Operand Source) :=
  Plan.emit (Instr.cast ty v true)

/-- A sum or difference computed in the accumulator and moved back. -/
def combineAndCast (sum : Bool) (ty : Ty) (lhs rhs : Operand Source) : Plan Step := do
  return Instr.cast ty (← Plan.emit (elemStep sum lhs rhs.ref)).ref false

/-- A sum or difference computed in the accumulator and brought down. -/
def combineAndNarrow (sum : Bool) (ty : Ty) (lhs rhs : Operand Source) : Plan Step := do
  return Instr.srs ty (← Plan.emit (elemStep sum lhs rhs.ref)).ref 0

/-- A sum or difference of accumulator views. -/
def throughViews (sum : Bool) (ty : Ty) (lhs rhs : Source) : Plan Step := do
  let l ← viewAcc ty lhs
  let r ← viewAcc ty rhs
  combineAndCast sum ty l r

/-- A sum or difference of operands that fill a register or do not. The shape is one of the four
that have an instruction, so its bits need no check. -/
def directOrViews (sum : Bool) (shape : VectorShape) (ty : Ty) (lhs rhs : Operand Source) :
    Plan Step :=
  if shape.bits = 512 then pure (elemStep sum lhs rhs.ref)
  else throughViews sum ty lhs.ref rhs.ref

/-- A sum or difference of two values that both move into the accumulator. -/
def bothInto (sum : Bool) (ty accTy : Ty) (lhs rhs : Source) : Plan Step := do
  let l ← intoAcc accTy lhs
  let r ← intoAcc accTy rhs
  combineAndCast sum ty l r

/-- Two operands, the first of them on the side that it came from. -/
def ordered {α : Type} (onLeft : Bool) (widened other : α) : α × α :=
  if onLeft then (widened, other) else (other, widened)

/-- One operand moves into the accumulator, the other is viewed in it. -/
def oneInto (sum : Bool) (ty accTy : Ty) (onLeft : Bool) (source other : Source) :
    Plan Step := do
  let widened ← intoAcc accTy source
  let other ← viewAcc ty other
  let (l, r) := ordered onLeft widened other
  combineAndCast sum ty l r

/-- Both operands move into the accumulator and the result comes down. -/
def oneNarrow (sum : Bool) (ty accTy : Ty) (onLeft : Bool) (source other : Source) :
    Plan Step := do
  let widened ← intoAcc accTy source
  let other ← intoAcc accTy other
  let (l, r) := ordered onLeft widened other
  combineAndNarrow sum ty l r

/-- Width of the lanes of a value; zero if it has no lane layout. -/
def laneBits (g : Graph) (v : ValueId) : Except Fault Nat := do
  return ((← g.valueShape? v).map VectorShape.elemBits).getD 0

/-- Widths that an integer operand can be extended from within the
accumulator. -/
def isNarrowWidth (bits : Nat) : Bool := bits == 8 || bits == 16

/-- How an integer sum or difference with one extended operand is planned. -/
def oneExtendedPlan (g : Graph) (sum : Bool) (shape : VectorShape) (ty : Ty) (lhs rhs : ValueId)
    (onLeft : Bool) (source : ValueId) : Except Fault (Plan Step) := do
  let bits ← laneBits g source
  let other := if onLeft then rhs else lhs
  if !isNarrowWidth bits || bits * shape.lanes != 256 then
    return throughViews sum ty (.value lhs) (.value rhs)
  else if bits = 8 then
    let accTy := accumulatorOf (← g.valueTy source)
    return oneInto sum ty accTy onLeft (.value source) (.value other)
  else return oneNarrow sum ty (accumulatorOf ty) onLeft (.value source) (.value other)

/-- How an integer sum or difference is planned, if its shape has an
instruction. -/
def intSumPlan? (g : Graph) (sum : Bool) (shape : VectorShape) (ty : Ty) (lhs rhs : ValueId) :
    Except Fault (Option (Plan Step)) := do
  if !shape.isElementwise then return none
  let l ← g.source lhs
  let r ← g.source rhs
  if (← g.definingOp? lhs).isNone && (← g.definingOp? rhs).isNone then
    return some (directOrViews sum shape ty l r)
  if shape.elemBits ≠ 32 then return some (pure (elemStep sum l r.ref))
  match ← g.extensionSource? lhs .extsi, ← g.extensionSource? rhs .extsi with
  | none, none => return some (directOrViews sum shape ty l r)
  | some ls, some rs =>
    let width ← laneBits g ls
    if width ≠ (← laneBits g rs) ∨ isNarrowWidth width = false then
      return some (throughViews sum ty l.ref r.ref)
    else
      let accTy := accumulatorOf (← g.valueTy ls)
      return some (bothInto sum ty accTy (.value ls) (.value rs))
  | some ls, none => return some (← oneExtendedPlan g sum shape ty lhs rhs true ls)
  | none, some rs => return some (← oneExtendedPlan g sum shape ty lhs rhs false rs)

/-- How a float sum or difference is planned, if its shape has an
instruction. -/
def floatSumPlan? (g : Graph) (sum : Bool) (shape : VectorShape) (ty : Ty) (lhs rhs : ValueId) :
    Except Fault (Option (Plan Step)) := do
  let l := Source.value lhs
  let r := Source.value rhs
  if shape.lanes ≠ 16 then return none
  else if shape.elemBits = 32 then
    match ← g.extensionSource? lhs .extf, ← g.extensionSource? rhs .extf with
    | none, none => return some (throughViews sum ty l r)
    | some ls, some rs =>
      let accTy := accumulatorOf (← g.valueTy ls)
      return some (bothInto sum ty accTy (.value ls) (.value rs))
    | some ls, none =>
      let accTy := accumulatorOf (← g.valueTy ls)
      return some (oneInto sum ty accTy true (.value ls) r)
    | none, some rs =>
      let accTy := accumulatorOf (← g.valueTy rs)
      return some (oneInto sum ty accTy false (.value rs) l)
  else if shape.elemBits = 16 then
    return some (oneNarrow sum ty (accumulatorOf ty) true l r)
  else return none

/-- The name of the second generation's rule for a kind. -/
def elemName : OpKind → String
  | .addi => "AddIToAddElem"
  | .addf => "AddFToAddElem"
  | .subi => "SubIToSubElem"
  | _ => "SubFToSubElem"

/-- Whether a sum or difference is left for the multiply-add rules. -/
def leftForFusion (g : Graph) (lhs rhs : ValueId) : Except Fault Bool := do
  let mac ← g.macOperands? lhs rhs
  let left ← g.definedBy? lhs .mulf
  let right ← g.definedBy? rhs .mulf
  return mac.isSome || left.isSome || right.isSome

/-- Sums and differences of vectors become lanewise instructions. -/
def addSubToElem (kind : OpKind) : Rule :=
  .ofDecision (elemName kind) (lanewiseRoots kind) fun g op =>
    match g.resultShape? op with
    | none => .ok .decline
    | some shape => do
      let (lhs, rhs) ← g.binaryOperands op
      if ← leftForFusion g lhs rhs then return .decline
      else
        let ty ← g.firstResultType op
        let plan? ←
          if shape.isFloat then floatSumPlan? g (isSum kind) shape ty lhs rhs
          else intSumPlan? g (isSum kind) shape ty lhs rhs
        match plan? with
        | some plan => return .follow plan
        | none => return .decline

end Rules

end SimdLowering
