/-
The value of one operation.

All that the value of an operation can depend on is put into a frame: its
kind, its attributes, the type of its first result, and for each operand slot
the type and the value found there. Either can be missing, the value because
it has not been computed, the type because the operand is still to come.
Evaluation reads the frame and nothing else. So two operations with the same
frame have the same value, wherever they stand in whatever graph, and the steps
of a rewrite can be evaluated before they are put into one.

The order in which the parts of a frame are looked at is fixed, because it
decides which of two defects is reported.

Lanes and cell numbers are integers of 128 bits, and positions in a vector are
words of 64. Where the lane arithmetic drops high bits that is what the
instruction does; everywhere else a number that does not fit breaks the
evaluation off.
-/
import SimdLowering.Eval.Error
import SimdLowering.Eval.Lane
import SimdLowering.Instr.Shuffle
import SimdLowering.Instr.View

set_option autoImplicit false

namespace SimdLowering

/-- A value while a function runs. -/
inductive RtValue where
  | scalar (lane : Lane)
  | vector (lanes : List Lane)
  /-- The cells of a buffer, last dimension innermost. -/
  | memory (cells : List Lane)
  deriving Repr, Inhabited

namespace RtValue

/-- The lanes of a value; a scalar is one lane. -/
def lanes : RtValue → List Lane
  | scalar lane => [lane]
  | vector lanes => lanes
  | memory cells => cells

/-- The lanes as integers. -/
def ints (v : RtValue) : List Int := v.lanes.map Lane.asInt

/-- The lanes as floats. -/
def floats (v : RtValue) : List Float := v.lanes.map Lane.asFloat

end RtValue

/-- What stands in one operand slot. -/
structure Slot where
  source : ValueId
  ty : Option Ty
  value : Option RtValue
  deriving Repr, Inhabited

/-- All that the value of an operation depends on. -/
structure Frame where
  op : OpId
  kind : OpKind
  attrs : AttrDict
  slots : List Slot
  resultTy : Option Ty
  deriving Repr, Inhabited

namespace Frame

/-! ## Reading a frame -/

/-- Give up over a defect of the operation. -/
def defect {α : Type} (f : Frame) (d : Defect) : Except EvalError α := .error (.malformed f.op d)

/-- Give up because the operation has no meaning here. -/
def unsupported {α : Type} (f : Frame) (why : Limitation) : Except EvalError α :=
  .error (.unsupported f.kind why)

/-- The value in a slot. -/
def slotValue (s : Slot) : Except EvalError RtValue :=
  match s.value with
  | some v => .ok v
  | none => .error (.unbound s.source)

/-- The value of the operand in the given slot. -/
def operand (f : Frame) (i : Nat) : Except EvalError RtValue :=
  match f.slots[i]? with
  | some s => slotValue s
  | none => f.defect (.noOperand i)

/-- The lanes of the operand in the given slot. -/
def lanes (f : Frame) (i : Nat) : Except EvalError (List Lane) := RtValue.lanes <$> f.operand i

/-- The type in a slot, which must be known. -/
def slotTy (s : Slot) : Except EvalError Ty :=
  match s.ty with
  | some ty => .ok ty
  | none => .error .broken

/-- The type of the operand in the given slot, which must be there. -/
def operandTy (f : Frame) (i : Nat) : Except EvalError Ty :=
  match f.slots[i]? with
  | some s => slotTy s
  | none => .error .broken

/-- What the lanes of the operand in the given slot hold. -/
def operandKind (f : Frame) (i : Nat) : Except EvalError ElemKind :=
  ElemKind.ofTy <$> f.operandTy i

/-- The first lane of an operand, as an integer. -/
def scalarOperand (f : Frame) (i : Nat) : Except EvalError Int := do
  match (← f.lanes i).head? with
  | some lane => return lane.asInt
  | none => f.defect (.emptyOperand i)

/-- The lane of an operand at the given number. -/
def laneAt (f : Frame) (i lane : Nat) : Except EvalError Lane := do
  match (← f.lanes i)[lane]? with
  | some l => return l
  | none => f.defect (.laneOutOfRange lane)

/-- The type of the first result. -/
def result (f : Frame) : Except EvalError Ty :=
  match f.resultTy with
  | some ty => .ok ty
  | none => f.defect .noResult

/-- Lane count of a type; one where it has no lane layout. -/
def laneCount (ty : Ty) : Nat := (ty.vectorShape.map VectorShape.lanes).getD 1

/-- Lane count of the result. -/
def resultLanes (f : Frame) : Except EvalError Nat := laneCount <$> f.result

/-! ## Giving a value -/

/-- Bring lanes into the range of a type, if there is such a range or nothing to
bring, and shape them as the type says. A scalar takes the first lane. -/
def shapeAs (ty : Ty) (lanes : List Lane) : Option RtValue :=
  if lanes.isEmpty || (ElemKind.ofTy ty).wraps then
    let lanes := lanes.map (Lane.normalize (.ofTy ty))
    if ty.isVector then some (.vector lanes) else lanes.head?.map .scalar
  else none

/-- The lanes as the result of the operation. -/
def finish (f : Frame) (lanes : List Lane) : Except EvalError RtValue := do
  match shapeAs (← f.result) lanes with
  | some v => return v
  | none => if lanes.isEmpty then f.defect .noLanes else .error .broken

/-- Combine two operands lane by lane, if lanes can be combined so or there are
none. -/
def lanewiseIf (f : Frame) (able : Bool) (h : Lane → Lane → Lane) : Except EvalError RtValue := do
  let lhs ← f.lanes 0
  let rhs ← f.lanes 1
  let n ← f.resultLanes
  if lhs.length < n ∨ rhs.length < n then f.defect .narrowOperands
  else if n ≠ 0 ∧ able = false then .error .broken
  else f.finish ((List.zipWith h lhs rhs).take n)

/-- Combine two operands lane by lane. -/
def lanewise (f : Frame) (h : Lane → Lane → Lane) : Except EvalError RtValue := f.lanewiseIf true h

/-! ## The kinds -/

/-- A constant: its value in every lane. -/
def evalConstant (f : Frame) : Except EvalError RtValue := do
  let lane ← match f.attrs.get? AttrName.value with
    | some (.float v) => pure (Lane.float v)
    | some (.int v) => pure (Lane.int v)
    | some (.bool b) => pure (Lane.ofBool b)
    | _ => f.defect .constantWithoutValue
  let n ← f.resultLanes
  f.finish (List.replicate n lane)

/-- Minimum or maximum of two operands, ordered as lanes of the first. -/
def evalExtremum (f : Frame) (pick : ElemKind → Lane → Lane → Lane) : Except EvalError RtValue := do
  let kind ← f.operandKind 0
  f.lanewiseIf kind.orders (pick kind)

/-- An integer comparison. Lanes are read with and without their sign, whatever
the predicate. -/
def evalCmpi (f : Frame) : Except EvalError RtValue := do
  match f.attrs.intPredicate? with
  | none => f.defect .missingPredicate
  | some p =>
    let kind ← f.operandKind 0
    f.lanewiseIf kind.views fun a b => .ofBool (p.holds a b kind)

/-- A float comparison. -/
def evalCmpf (f : Frame) : Except EvalError RtValue :=
  match f.attrs.floatPredicate? with
  | none => f.defect .missingPredicate
  | some p => f.lanewise fun a b => .ofBool (p.holds a.asFloat b.asFloat)

/-- Take each lane of the first branch where the condition holds, and the lane
of the second branch elsewhere, which must be there. -/
def chooseLanes (holds : Nat → Bool) (onTrue onFalse : List Lane) : Except EvalError (List Lane) :=
  onTrue.zipIdx.mapM fun (lane, i) =>
    if holds i then .ok lane
    else match onFalse[i]? with
      | some other => .ok other
      | none => .error .broken

/-- A select. Where the condition has no lane of its own, its first one
decides. -/
def evalSelect (f : Frame) : Except EvalError RtValue := do
  let cond ← f.lanes 0
  let onTrue ← f.lanes 1
  let onFalse ← f.lanes 2
  let holds := fun i => match cond[i]?.or cond.head? with
    | some c => decide (c.asInt ≠ 0)
    | none => false
  f.finish (← chooseLanes holds onTrue onFalse)

/-- Lanes shifted down with rounding and saturated, if rounding leaves them in
128 bits. -/
def narrowLanes (src : List Lane) (shift bits : Nat) (sign : Signedness) :
    Except EvalError (List Lane) :=
  if src.all fun l => roundingFits l.asInt shift then
    .ok (src.map fun l => .int (saturateInt (shiftRounded l.asInt shift) bits sign))
  else .error .broken

/-- The lanes of a conversion before they are brought into the range of the result. Shifts
up are by the width of the result, shifts down by the width of the operand; all
other conversions have nothing to do. -/
def convertLanes (f : Frame) (srcKind dstKind : ElemKind) (src : List Lane) :
    Except EvalError (List Lane) :=
  let shift := f.attrs.intOrZero AttrName.shift
  match f.kind, dstKind with
  | .ups, .int bits _ =>
    .ok (src.map fun l => .int (wrap128 (l.asInt * twoPow (laneShift shift bits))))
  | .srs, .int bits sign => narrowLanes src (laneShift shift srcKind.bits) bits sign
  | _, _ => .ok src

/-- A conversion between lane types. -/
def evalConversion (f : Frame) : Except EvalError RtValue := do
  let src ← f.lanes 0
  let srcKind ← f.operandKind 0
  let dstKind := ElemKind.ofTy (← f.result)
  f.finish (← f.convertLanes srcKind dstKind src)

/-- Whether a type is a vector of single bits. -/
def isMaskVector (ty : Ty) : Bool := ty.isVector && (ElemKind.ofTy ty).bits == 1

/-- The whole number whose bit `i` says whether lane `i` holds. -/
def packBits : List Bool → Nat
  | [] => 0
  | b :: rest => b.toNat + 2 * packBits rest

/-- The mask with one bit for each lane, as an integer lane. -/
def maskLane (lanes : List Bool) : Lane := .int (wrap128 (packBits lanes))

/-- Bits in a lane. A mask has no more, and lanes beyond have none of their own. -/
def maskBits : Nat := 128

/-- The mask with one bit for each lane as the result, if all that hold have a bit. -/
def finishMask (f : Frame) (lanes : List Bool) : Except EvalError RtValue :=
  if (lanes.drop maskBits).any id then .error .broken else f.finish [maskLane lanes]

/-- Bit `i` of a word. -/
def bitOf (word : Int) (i : Nat) : Int := word / twoPow i % 2

/-- A cast: a vector of bits becomes a word and a word a vector of bits; all
else passes through. -/
def evalCast (f : Frame) : Except EvalError RtValue := do
  let srcTy ← f.operandTy 0
  let dstTy ← f.result
  let src ← f.lanes 0
  if isMaskVector srcTy && !dstTy.isVector then
    f.finishMask (src.map fun l => decide (l.asInt ≠ 0))
  else if isMaskVector dstTy && !srcTy.isVector then
    let word := (src.head?.map Lane.asInt).getD 0
    if maskBits < laneCount dstTy then .error .broken
    else f.finish ((List.range (laneCount dstTy)).map fun i => .int (bitOf word i))
  else f.finish src

/-- A reduction: fold the lanes from the first on. -/
def evalReduction (f : Frame) : Except EvalError RtValue := do
  match f.attrs.combiningKind? with
  | none => f.defect .missingCombiningKind
  | some combining =>
    let kind ← f.operandKind 0
    match ← f.lanes 0 with
    | [] => f.defect .emptyVector
    | first :: rest =>
      if rest ≠ [] ∧ combining.folds kind = false then .error .broken
      else f.finish [rest.foldl (Lane.combine combining kind) first]

/-- A splat of the first lane. -/
def evalSplat (f : Frame) : Except EvalError RtValue := do
  match (← f.lanes 0).head? with
  | none => f.defect .emptyScalar
  | some lane =>
    let n ← f.resultLanes
    f.finish (List.replicate n lane)

/-- A splat of one lane of a vector. -/
def evalLaneSplat (f : Frame) : Except EvalError RtValue := do
  let lane ← f.laneAt 0 (asWord (f.attrs.intOrZero AttrName.idx))
  let n ← f.resultLanes
  f.finish (List.replicate n lane)

/-- A slice of as many lanes as the result has. -/
def evalExt (f : Frame) : Except EvalError RtValue := do
  let n ← f.resultLanes
  let index := asWord (f.attrs.intOrZero AttrName.index)
  let src ← f.lanes 0
  if twoPow 64 ≤ index + 1 ∨ twoPow 64 ≤ (index + 1) * n then .error .broken
  else if (index + 1) * n ≤ src.length then f.finish ((src.drop (index * n)).take n)
  else f.defect .sliceOutOfRange

/-- A window into two joined operands, starting at a byte. -/
def evalShift (f : Frame) : Except EvalError RtValue := do
  let n ← f.resultLanes
  let bytes ← f.scalarOperand 2
  let bits := (ElemKind.ofTy (← f.result)).bits
  if bits = 0 ∨ fits128 (bytes * 8) = false then .error .broken
  else
    let start := asWord ((bytes * 8).tdiv bits)
    let lhs ← f.lanes 0
    let rhs ← f.lanes 1
    let joined := lhs ++ rhs
    if twoPow 64 ≤ start + n then .error .broken
    else if start + n ≤ joined.length then f.finish ((joined.drop start).take n)
    else f.defect .shiftPastEnd

/-- A multiply-add over as many lanes as the accumulator has. -/
def evalFma (f : Frame) : Except EvalError RtValue := do
  let lhs ← f.lanes 0
  let rhs ← f.lanes 1
  let acc ← f.lanes 2
  if lhs.length < acc.length ∨ rhs.length < acc.length then f.defect .narrowForAccumulator
  else
    let step := if (f.attrs.bool? AttrName.fmsub).getD false then Lane.sub else Lane.add
    f.finish (List.zipWith step acc (List.zipWith Lane.mul lhs rhs))

/-- A target comparison: one bit for each pair of lanes. -/
def evalCmp (f : Frame) : Except EvalError RtValue := do
  match IntPredicate.ofMnemonic? ((f.attrs.str? AttrName.pred).getD "") with
  | none => f.unsupported .unknownPredicate
  | some p =>
    let kind ← f.operandKind 0
    let lhs ← f.lanes 0
    let rhs ← f.lanes 1
    let holds := fun a b => match kind with
      | .float _ => p.floatTwin.holds a.asFloat b.asFloat
      | _ => p.holds a b kind
    let marks := List.zipWith holds lhs rhs
    if marks ≠ [] ∧ kind.views = false then .error .broken else f.finishMask marks

/-- A target select by the bits of a mask. -/
def evalSel (f : Frame) : Except EvalError RtValue := do
  let onTrue ← f.lanes 0
  let onFalse ← f.lanes 1
  let mask ← f.scalarOperand 2
  if maskBits < onTrue.length then .error .broken
  else f.finish (← chooseLanes (fun i => bitOf mask i == 1) onTrue onFalse)

/-- The cell number after one more dimension and index. -/
def nextCell (base : Int) (dim : Nat) (i : Int) : Except EvalError Int :=
  if fits128 (base * dim) && fits128 (base * dim + i) then .ok (base * dim + i)
  else .error .broken

/-- The index in a slot; zero where there is no lane. -/
def indexOf (s : Slot) : Except EvalError Int := do
  return (((← slotValue s).lanes.head?).map Lane.asInt).getD 0

/-- The cell number that indices address in a buffer, last dimension innermost. -/
def cellNumber (shape : List Nat) (indices : List Slot) : Except EvalError Int :=
  (shape.zip indices).foldlM (fun base (dim, s) => do nextCell base dim (← indexOf s)) 0

/-- The cell of the given number; outside the buffer there are zeros. -/
def cellAt (cells : List Lane) (i : Int) : Lane :=
  if i < 0 then .int 0 else (cells[i.toNat]?).getD (.int 0)

/-- Whether so many cells from a number on all have numbers of 128 bits. -/
def cellsFit (base : Int) (n : Nat) : Bool := n == 0 || decide (base + n ≤ twoPow 127)

/-- The carried lanes with the lanes from `first` on read from memory. -/
def overlay (read : Nat → Lane) (first : Nat) (carried : List Lane) : List Lane :=
  carried.zipIdx.map fun (lane, i) => if i < first then lane else read (i - first)

/-- A read from memory: a strided read, or a load over a carried vector. -/
def evalLoad (f : Frame) : Except EvalError RtValue := do
  match ← MemAccess.split? (fun s => Ty.memoryRank <$> slotTy s) f.slots with
  | none => f.defect .malformedAccess
  | some access =>
    match ← slotTy access.source with
    | .memory shape _ =>
      let cells := (← slotValue access.source).lanes
      let base ← cellNumber shape access.indices
      let n ← f.resultLanes
      let read := fun (i : Nat) => cellAt cells (base + i)
      if f.kind = .transferRead then
        if access.trailing.isSome then f.unsupported .maskedRead
        else if cellsFit base n = false then .error .broken
        else f.finish ((List.range n).map read)
      else
        let carried ← match access.trailing with
          | some s => RtValue.lanes <$> slotValue s
          | none => pure (List.replicate n (.int 0))
        let bits := (ElemKind.ofTy (← f.result)).bits
        if bits = 0 then .error .broken
        else
          let first := asWord ((f.attrs.intOrZero AttrName.offset).tdiv bits)
          if cellsFit base (carried.length - first) = false then .error .broken
          else f.finish (overlay read first carried)
    | _ => f.defect .sourceNotBuffer

/-- Insist that a shuffled instruction reads its lanes in order. -/
def requireStandardShuffle (f : Frame) : Except EvalError Unit :=
  if (Shuffle.ofAttrs f.attrs).isStandard then .ok () else f.unsupported .laneShuffles

/-- The value of an operation. -/
def eval (f : Frame) : Except EvalError RtValue :=
  match f.kind with
  | .constant => f.evalConstant
  | .addi | .addf | .addElem => f.lanewise Lane.add
  | .subi | .subf | .subElem => f.lanewise Lane.sub
  | .muli | .mulf | .mulElem => f.lanewise Lane.mul
  | .add => do f.requireStandardShuffle; f.lanewise Lane.add
  | .sub => do f.requireStandardShuffle; f.lanewise Lane.sub
  | .mul => do f.requireStandardShuffle; f.lanewise Lane.mul
  | .minsi | .minf | .min => f.evalExtremum Lane.minimum
  | .maxsi | .maxf | .max => f.evalExtremum Lane.maximum
  | .cmpi => f.evalCmpi
  | .cmpf => f.evalCmpf
  | .select => f.evalSelect
  | .extsi | .extf | .cast | .ups | .srs => f.evalConversion
  | .unrealizedCast => f.evalCast
  | .reduction => f.evalReduction
  | .broadcast | .broadcastScalar => f.evalSplat
  | .extract => do f.finish [← f.laneAt 0 (asWord (f.attrs.intOrZero AttrName.position))]
  | .broadcastLane => f.evalLaneSplat
  | .extElem => do
    let lane ← f.scalarOperand 1
    f.finish [← f.laneAt 0 (asWord lane)]
  | .transferRead | .upd => f.evalLoad
  | .concat => do
    let parts ← (List.range f.slots.length).mapM f.lanes
    f.finish parts.flatten
  | .ext => f.evalExt
  | .shift => f.evalShift
  | .fma => do f.requireStandardShuffle; f.evalFma
  | .fmaElem => f.evalFma
  | .cmp => f.evalCmp
  | .sel => f.evalSel
  | .func | .ret => f.unsupported .notAValue

end Frame

end SimdLowering
