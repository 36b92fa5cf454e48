/-
Rules that turn a sum with a product into a multiply-add.

On the second generation the summand goes up into the accumulator, the
lanewise multiply-add runs there, and the result comes back down. On the first
the left factor is doubled besides, because the multiply-add selects its lanes
from twice a register.

A multiply-add of the first generation can also pick one lane of its right
operand for all lanes. Where one factor is a splat of an extracted lane, the
splat is folded into that selection, and the other factor, padded with zeros,
becomes the left operand.
-/
import SimdLowering.Instr.Target
import SimdLowering.Rules.Match
import SimdLowering.Target.Generation

set_option autoImplicit false

namespace SimdLowering

namespace Rules

/-- A multiply-add in the second generation's accumulator. -/
def fmaElemPlan (ty : Ty) (lhs rhs : Source) (acc : Operand Source) (shift : Int) :
    Plan Step := do
  let up ← Plan.emit (Instr.ups (accumulatorOf acc.ty) acc.ref shift)
  let sum ← Plan.emit (Instr.fmaElem lhs rhs up false)
  return Instr.srs ty sum.ref shift

/-- Integer sums with one product become lanewise multiply-adds. -/
def mulAddToFmaElem (shift : Int) : Rule :=
  .ofDecision "MulAddToFmaElem" [.addi] fun g op =>
    match g.resultShape? op with
    | none => .ok .decline
    | some shape => do
      let (lhs, rhs) ← g.binaryOperands op
      match ← g.macOperands? lhs rhs with
      | none => return .decline
      | some mac =>
        if shape.pair = (32, 16) ∨ shape.pair = (16, 32) then
          let ty ← g.firstResultType op
          let acc ← g.source mac.acc
          return .follow (fmaElemPlan ty (.value mac.lhs) (.value mac.rhs) acc shift)
        else return .decline

/-- A multiply-add in the first generation's accumulator. -/
def fmaPlan (ty doubledTy accTy : Ty) (lhs rhs acc : Source) : Plan Step := do
  let doubled ← Plan.emit (Instr.concat doubledTy [lhs, lhs])
  let up ← Plan.emit (Instr.ups accTy acc 0)
  let sum ← Plan.emit (Instr.fma accTy doubled.ref rhs up.ref .standard false)
  return Instr.srs ty sum.ref 0

/-- Integer sums with one product become shuffled multiply-adds. -/
def mulAddToFma : Rule :=
  .ofDecision "MulAddToFma" [.addi] fun g op =>
    match g.resultShape? op with
    | none => .ok .decline
    | some shape => do
      let (lhs, rhs) ← g.binaryOperands op
      match ← g.macOperands? lhs rhs with
      | none => return .decline
      | some mac =>
        match Generation.aie.accumulator? (← g.valueTy mac.acc) with
        | none => return .decline
        | some accTy =>
          let ty ← g.firstResultType op
          let lanes ← fitU32 (shape.lanes * 2)
          return .follow (fmaPlan ty (.vector lanes shape.elem) accTy
            (.value mac.lhs) (.value mac.rhs) (.value mac.acc))

/-! ## Folding a splat -/

/-- The selection that reads the left operand in order and one lane of the
right operand for all, by lane width. -/
def splatShuffle? (width : Nat) (position : Int) (s : Shuffle) : Option Shuffle :=
  match width with
  | 16 => some
    ⟨⟨"0", "0x73727170", "0x77767574", s.x.step, "0x3120"⟩,
      ⟨toString position, "0", "0", "1", s.z.square⟩⟩
  | 32 => some
    ⟨⟨"0", "0x76543210", s.x.offsetsHi, s.x.step, s.x.square⟩,
      ⟨toString position, "0x00000000", s.z.offsetsHi, s.z.step, s.z.square⟩⟩
  | _ => none

/-- Width of an integer type. -/
def intWidth? : Ty → Option Nat
  | .int width _ => some width
  | _ => none

/-- The splat that feeds a multiply-add and the factor opposite to it. -/
def splatAndFactor? (g : Graph) (first rhs : ValueId) :
    Except Fault (Option (OpId × ValueId)) := do
  match ← g.definedBy? first .broadcast with
  | some splat => return some (splat, rhs)
  | none => return (← g.definedBy? rhs .broadcast).map fun splat => (splat, first)

/-- A multiply-add with a padded left operand. -/
def foldedFmaPlan (ty concatTy : Ty) (lhs : Operand Source) (rhs acc : Source)
    (shuffle : Shuffle) (fmsub : Bool) : Plan Step := do
  let zero ← Plan.emit (Instr.constantZero lhs.ty)
  let padded ← Plan.emit (Instr.concat concatTy [lhs.ref, zero.ref])
  return Instr.fma ty padded.ref rhs acc shuffle fmsub

/-- A splat of an extracted lane is folded into the multiply-add it feeds. -/
def foldBroadcastToFma : Rule :=
  .ofDecision "FoldBroadcastToFma" [.fma] fun g op => do
    let lhs ← g.operandAt op 0
    let rhs ← g.operandAt op 1
    let acc ← g.operandAt op 2
    match ← g.definedBy? lhs .concat with
    | none => return .decline
    | some concat =>
      match ← splatAndFactor? g (← g.operandAt concat 0) rhs with
      | none => return .decline
      | some (splat, factor) =>
        match ← g.definedBy? (← g.operandAt splat 0) .extract with
        | none => return .decline
        | some extract =>
          let newRhs ← g.operandAt extract 0
          match g.extractPosition? extract with
          | none => return .decline
          | some position =>
            let concatTy ← g.firstResultType concat
            let shuffle? := (intWidth? (← g.valueTy lhs).elementType).bind fun width =>
              splatShuffle? width position (.ofAttrs (g.attrs op))
            match shuffle? with
            | none => return .decline
            | some shuffle =>
              let fmsub := ((g.attrs op).bool? AttrName.fmsub).getD false
              let ty ← g.firstResultType op
              let factor ← g.source factor
              return .follow
                (foldedFmaPlan ty concatTy factor (.value newRhs) (.value acc) shuffle fmsub)

end Rules

end SimdLowering
