/-
Rules for reductions on the second generation.

A reduction becomes a tree. Each level shifts the running vector down by half
of the lanes that still count and combines it with itself, so that after the
last level lane zero holds the combination of all lanes. Sixteen 32-bit lanes
take shifts by 32, 16, 8 and 4 bytes. The amounts are worked out before the
tree is planned, since their bits may be more than can be counted.

Sums of floats run in the accumulator: single-precision lanes are viewed in it
at each level, and bfloat lanes move into it first and come back down at the
end.
-/
import SimdLowering.Instr.Target
import SimdLowering.Rewrite.Recipe
import SimdLowering.Target.Generation

set_option autoImplicit false

namespace SimdLowering

namespace Rules

/-- A number and its halves, as long as something is left. -/
def halvings (n : Nat) : List Nat :=
  if n = 0 then [] else (List.range (n.log2 + 1)).map fun i => n / twoPow i

/-- The bytes that the levels of a tree shift by, if the first of them shifts by
so many lanes. -/
def treeAmounts (elemBits first : Nat) : Except Fault (List Nat) :=
  (halvings first).mapM fun lanes => (· / 8) <$> fitU32 (lanes * elemBits)

/-- One level of a tree: shift by so many bytes, then combine. -/
def treeLevel (ty : Ty) (isAcc : Bool)
    (combine : Operand Source → Operand Source → Plan (Operand Source))
    (current : Operand Source) (amount : Nat) : Plan (Operand Source) := do
  let bytes ← Plan.emitI32 amount
  let shifted ← Plan.emit (Instr.shift ty current.ref current.ref bytes.ref isAcc)
  combine current shifted

/-- All levels of a tree that shift by the given amounts. -/
def treeLevels (ty : Ty) (isAcc : Bool)
    (combine : Operand Source → Operand Source → Plan (Operand Source))
    (amounts : List Nat) (value : Operand Source) : Plan (Operand Source) :=
  amounts.foldlM (treeLevel ty isAcc combine) value

/-- Read lane zero. -/
def firstLane (ty : Ty) (v : Source) : Plan Step := do
  return Instr.extElem ty v (← Plan.emitI32 0).ref

/-- A tree that combines with one instruction. The type is that of the running
vector. -/
def treePlan (combine : Operand Source → Source → Step) (amounts : List Nat)
    (value : Operand Source) : Plan Step := do
  let last ← treeLevels value.ty false (fun a b => Plan.emit (combine a b.ref)) amounts value
  firstLane value.ty.elementType last.ref

/-- Such a tree of the given first shift, which has to be a power of two. -/
def reductionTree (combine : Operand Source → Source → Step) (first : Nat)
    (value : Operand Source) : Except Fault (Plan Step) :=
  if twoPow first.log2 = first then do
    let amounts ← treeAmounts (value.ty.elementType.scalarBits.getD 0) first
    return treePlan combine amounts value
  else .error .broken

/-- The input of a reduction: combining function, lane layout and vector. -/
def reductionInput? (g : Graph) (op : OpId) :
    Except Fault (Option (CombiningKind × VectorShape × Operand Source)) := do
  match (g.attrs op).combiningKind?, (g.operands op).head? with
  | some kind, some v =>
    let v ← g.source v
    return v.ty.vectorShape.map fun shape => (kind, shape, v)
  | _, _ => return none

/-- A rule for reductions, given what to do with their input. -/
def reductionRule (name : String)
    (look : CombiningKind → VectorShape → Operand Source → Except Fault Decision) : Rule :=
  .ofDecision name [.reduction] fun g op => do
    match ← reductionInput? g op with
    | none => return .decline
    | some (kind, shape, v) => look kind shape v

/-- A tree over one register, for a combining function that suits. The size of
the vector is computed for no other. -/
def registerTree (suits : Bool) (combine : Operand Source → Source → Step) (shape : VectorShape)
    (value : Operand Source) : Except Fault Decision :=
  if suits then do
    if (← shape.bits32) = 512 then
      return .follow (← reductionTree combine (shape.lanes / 2) value)
    else return .decline
  else .ok .decline

/-- Minima of one register become trees of minima. -/
def minReduction : Rule :=
  reductionRule "MinReduction" fun kind shape v => registerTree kind.isMin Instr.minElem shape v

/-- Maxima of one register become trees of maxima. -/
def maxReduction : Rule :=
  reductionRule "MaxReduction" fun kind shape v => registerTree kind.isMax Instr.maxElem shape v

/-- A tree of sums over two registers: the halves are added first. -/
def halvedSumPlan (shape : VectorShape) (amounts : List Nat) (value : Operand Source) :
    Plan Step := do
  let halfTy := Ty.vector (shape.lanes / 2) shape.elem
  let lo ← Plan.emit (Instr.ext halfTy value.ref 0)
  let hi ← Plan.emit (Instr.ext halfTy value.ref 1)
  let sum ← Plan.emit (Instr.addElem lo hi.ref)
  treePlan Instr.addElem amounts sum

/-- Integer sums become trees of sums. -/
def intAddReduction : Rule :=
  reductionRule "IntAddReduction" fun kind shape v =>
    if kind ≠ .add ∨ shape.isFloat = true ∨ shape.isElementwise = false then .ok .decline
    else if shape.pair = (32, 32) then do
      let amounts ← treeAmounts shape.elemBits (shape.lanes / 2 / 2)
      return .follow (halvedSumPlan shape amounts v)
    else do return .follow (← reductionTree Instr.addElem (shape.lanes / 2) v)

/-- A sum of two vectors by way of their accumulator views. -/
def sumThroughViews (ty : Ty) (a b : Operand Source) : Plan (Operand Source) := do
  let l ← Plan.emit (Instr.cast ty a.ref true)
  let r ← Plan.emit (Instr.cast ty b.ref true)
  let sum ← Plan.emit (Instr.addElem l r.ref)
  Plan.emit (Instr.cast ty sum.ref false)

/-- A tree of single-precision sums. -/
def floatSumTree (shape : VectorShape) (amounts : List Nat) (value : Operand Source) :
    Plan Step := do
  let last ← treeLevels value.ty false (sumThroughViews value.ty) amounts value
  firstLane shape.elem last.ref

/-- Single-precision sums become trees. -/
def f32AddReduction : Rule :=
  reductionRule "F32AddReduction" fun kind shape v =>
    if kind ≠ .add ∨ shape.isFloat = false ∨ shape.pair ≠ (16, 32) then .ok .decline
    else do
      let amounts ← treeAmounts shape.elemBits (shape.lanes / 2)
      return .follow (floatSumTree shape amounts v)

/-- A tree of sixteen-bit float sums. The result is doubled to fill a register
before lane zero is read; the rule below has sixteen lanes to double. -/
def brainSumTree (shape : VectorShape) (amounts : List Nat) (value : Operand Source) :
    Plan Step := do
  let accTy := accumulatorOf value.ty
  let up ← Plan.emit (Instr.ups accTy value.ref 0)
  let last ← treeLevels accTy true (fun a b => Plan.emit (Instr.addElem a b.ref)) amounts up
  let narrowed ← Plan.emit (Instr.srs value.ty last.ref 0)
  let doubledTy := Ty.vector (shape.lanes * 2) shape.elem
  let doubled ← Plan.emit (Instr.concat doubledTy [narrowed.ref, narrowed.ref])
  firstLane shape.elem doubled.ref

/-- Sixteen-bit float sums become trees. -/
def bf16AddReduction : Rule :=
  reductionRule "Bf16AddReduction" fun kind shape v =>
    if kind ≠ .add ∨ shape.isFloat = false ∨ shape.pair ≠ (16, 16) then .ok .decline
    else do
      let accBits := ((accumulatorOf v.ty).vectorShape.map VectorShape.elemBits).getD 32
      let amounts ← treeAmounts accBits (shape.lanes / 2)
      return .follow (brainSumTree shape amounts v)

end Rules

end SimdLowering
