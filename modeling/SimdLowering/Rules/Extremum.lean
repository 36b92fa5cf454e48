/-
Rules for minima, maxima, comparisons and selects on the second generation.

These instructions work on exactly one register of eight-, sixteen- or
thirty-two-bit lanes. A comparison gives one bit for each lane in a scalar
word, and a select reads such a word, so the vectors of bits that the generic
operations use are cast to and fro.

Floats are compared with integer predicates. A float predicate that looks only
at whether the operands are numbers has none, and such a comparison is
refused.
-/
import SimdLowering.Instr.Target
import SimdLowering.Rules.AddSub

set_option autoImplicit false

namespace SimdLowering

namespace Rules

/-! ## Minimum and maximum -/

/-- The name of the rule for a kind. -/
def extremumName : OpKind → String
  | .minsi => "MinSIToMin"
  | .maxsi => "MaxSIToMax"
  | .minf => "MinFToMin"
  | _ => "MaxFToMax"

/-- Minima and maxima of one register become single instructions. -/
def minMaxToElem (kind : OpKind) : Rule :=
  .ofDecision (extremumName kind) (lanewiseRoots kind) fun g op =>
    match g.resultShape? op with
    | none => .ok .decline
    | some shape => do
      if !(← shape.fillsRegister) then return .decline
      else
        let (lhs, rhs) ← g.binaryOperands op
        let build := if kind = .minsi ∨ kind = .minf then Instr.minElem else Instr.maxElem
        let lhs ← g.source lhs
        return .follow (pure (build lhs (.value rhs)))

/-! ## Masks -/

/-- The scalar that holds one bit for each lane. -/
def maskType (lanes : Nat) : Ty := .ui (if lanes ≤ 32 then 32 else 64)

/-- The integer predicate a float comparison is done with. -/
def intPredicateFor? : FloatPredicate → Option IntPredicate
  | .ueq | .oeq => some .eq
  | .ugt => some .ugt
  | .ogt => some .sgt
  | .uge => some .uge
  | .oge => some .sge
  | .ult => some .ult
  | .olt => some .slt
  | .ule => some .ule
  | .ole => some .sle
  | .une | .one => some .ne
  | .alwaysFalse | .alwaysTrue | .ord | .uno => none

/-- What a comparison says about the predicate to use. -/
inductive PredicateChoice where
  | absent
  | without (p : FloatPredicate)
  | use (p : IntPredicate)
  deriving DecidableEq, Repr, Inhabited

/-- The predicate to compare with. -/
def choosePredicate (isFloat : Bool) (attrs : AttrDict) : PredicateChoice :=
  if isFloat then
    match attrs.floatPredicate? with
    | none => .absent
    | some p =>
      match intPredicateFor? p with
      | none => .without p
      | some q => .use q
  else
    match attrs.intPredicate? with
    | none => .absent
    | some p => .use p

/-- A comparison into a mask, cast to a vector of bits. -/
def comparePlan (ty maskTy : Ty) (lhs rhs : Source) (p : IntPredicate) : Plan Step := do
  let mask ← Plan.emit (Instr.cmp maskTy lhs rhs p.mnemonic)
  return Instr.unrealizedCast mask.ref ty

/-- Comparisons of one register become single instructions. -/
def cmpToMask (kind : OpKind) : Rule :=
  .ofDecision (if kind = .cmpf then "CmpFToCmp" else "CmpIToCmp")
    [if kind = .cmpf then .cmpf else .cmpi] fun g op => do
    match ← g.operandShape? op 0 with
    | none => return .decline
    | some shape =>
      if !(← shape.fillsRegister) then return .decline
      else
        match choosePredicate (kind == .cmpf) (g.attrs op) with
        | .absent => return .decline
        | .without p =>
          return .refuse s!"float predicate '{p.mnemonic}' has no integer counterpart"
        | .use p =>
          let (lhs, rhs) ← g.binaryOperands op
          let ty ← g.firstResultType op
          return .follow (comparePlan ty (maskType shape.lanes) (.value lhs) (.value rhs) p)

/-- A condition cast to a mask, and a select by it. -/
def selectPlan (maskTy : Ty) (cond : Source) (onTrue : Operand Source) (onFalse : Source) :
    Plan Step := do
  let mask ← Plan.emit (Instr.unrealizedCast cond maskTy)
  return Instr.sel onTrue onFalse mask.ref

/-- Selects of one register become single instructions. -/
def selectToSel : Rule :=
  .ofDecision "SelectToSel" [.select] fun g op =>
    match g.resultShape? op with
    | none => .ok .decline
    | some shape => do
      if !(← shape.fillsRegister) then return .decline
      else
        let cond ← g.operandAt op 0
        let onTrue ← g.operandAt op 1
        let onFalse ← g.operandAt op 2
        let maskTy := maskType shape.lanes
        let onTrue ← g.sourceAfter [maskTy] onTrue
        return .follow (selectPlan maskTy (.value cond) onTrue (.value onFalse))

end Rules

end SimdLowering
