/-
Rules for reads from memory.

A strided read along the last dimension becomes a load. Where its innermost
index is a constant that is not a multiple of the lane count, it becomes two
loads at the multiples around it and a window into the two:

    %r = vector.transfer_read %m[%c17] : vector<32xi32>

turns into

    %a = aievec.upd %m[%c0]
    %b = aievec.upd %m[%c32]
    %r = aievec.shift %a, %b, 68

since the seventeenth of thirty-two four-byte lanes starts at byte 68. A read
with a mask is refused; reads along other dimensions are left for others.

A load that contributes two registers or more is split into two halves, of
which the second carries the first.
-/
import SimdLowering.Instr.Target
import SimdLowering.Rewrite.Recipe
import SimdLowering.Target.Generation

set_option autoImplicit false

namespace SimdLowering

namespace Rules

/-- A plain load. -/
def loadStep (ty : Ty) (source : Source) (indices : List Source) : Step :=
  Instr.upd ty source indices 0 0 none

/-- A load at a constant innermost index. -/
def wholePlan (ty : Ty) (source : Source) (outer : List Source) (indexTy : Ty) (aligned : Int) :
    Plan Step := do
  let base ← Plan.emit (Instr.constantInt indexTy aligned)
  return loadStep ty source (outer ++ [base.ref])

/-- Loads at two constant innermost indices, and the window that starts so many
bytes into the two. -/
def windowPlan (ty : Ty) (source : Source) (outer : List Source) (indexTy : Ty)
    (aligned next bytes : Int) : Plan Step := do
  let base ← Plan.emit (Instr.constantInt indexTy aligned)
  let low ← Plan.emit (loadStep ty source (outer ++ [base.ref]))
  let next ← Plan.emit (Instr.constantInt indexTy next)
  let high ← Plan.emit (loadStep ty source (outer ++ [next.ref]))
  let amount ← Plan.emitI32 bytes
  return Instr.shift ty low.ref high.ref amount.ref false

/-- A read at a constant innermost index: a load at the multiple of the lane
count below it, and if the index lies between two multiples, a second load and
a window. The lane count is not zero. -/
def alignedPlan (ty : Ty) (lanes elemBits : Nat) (source : Source) (outer : List Source)
    (indexTy : Ty) (value : Int) : Except Fault (Plan Step) := do
  let aligned := value.tdiv lanes * lanes
  let bytes := (← fitI64 (value.tmod lanes * elemBits)).tdiv 8
  if bytes = 0 then return wholePlan ty source outer indexTy aligned
  else
    let next ← fitI64 (aligned + lanes)
    return windowPlan ty source outer indexTy aligned next bytes

/-- How a read that one load can do is planned. -/
def readPlan (g : Graph) (access : MemAccess ValueId) (innermost : ValueId) (ty : Ty)
    (shape : VectorShape) : Except Fault Decision := do
  let source := Source.value access.source
  match (← g.constantInt? innermost).filter fun v => v != 0 with
  | none => return .follow (pure (loadStep ty source (access.indices.map .value)))
  | some value =>
    if shape.lanes = 0 then throw .broken
    else
      let indexTy ← g.valueTy innermost
      let outer := access.indices.dropLast.map Source.value
      return .follow (← alignedPlan ty shape.lanes shape.elemBits source outer indexTy value)

/-- Strided reads become loads. -/
def transferReadToUpd : Rule :=
  .ofDecision "TransferReadToUpd" [.transferRead] fun g op => do
    match ← g.memAccess? op with
    | none => return .decline
    | some access =>
      if access.trailing.isSome then return .refuse "masked loads are not supported"
      else
        match (g.attrs op).accessMap? with
        | none => return .decline
        | some map =>
          if !map.isMinorIdentity || map.isConstant then return .decline
          else
            match g.resultShape? op, access.indices.getLast? with
            | some shape, some innermost =>
              readPlan g access innermost (← g.firstResultType op) shape
            | _, _ => return .decline

/-- The two halves of a load. -/
def splitPlan (ty : Ty) (source : Source) (indices : List Source) (maxVectorBits : Nat) :
    Plan Step := do
  let low ← Plan.emit (loadStep ty source indices)
  return Instr.upd ty source indices (2 * maxVectorBits) 1 (some low.ref)

/-- Loads that contribute two registers or more become two. -/
def splitUpd (maxVectorBits : Nat) : Rule :=
  .ofSizedDecision "SplitUpd" [.upd] fun g op sizes => do
    let (size, sizes) ← sizes.query g op
    if size < (← fitU32 (2 * maxVectorBits)) then return (.decline, sizes)
    else
      match ← g.memAccess? op with
      | none => return (.decline, sizes)
      | some access =>
        let plan := splitPlan (← g.firstResultType op) (.value access.source)
          (access.indices.map .value) maxVectorBits
        return (.follow plan, sizes)

end Rules

end SimdLowering
