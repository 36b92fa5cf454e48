/-
Reads from memory, lowered.

A read and the loads that replace it go over windows of the same buffer, so what is kept is a
matter of where the windows start. The rule for reads counts the bytes between a constant index
and the multiple of the lane count below it. If they are whole, the replacement starts where the
read does, past the end of the buffer or not. If not, it starts lower, by the lanes that the cut
byte belongs to.

The two halves of a load that is split have the indices of the load, both of them. So the high
half starts over where the low one did, and what the load was carrying is lost.

As with products, nothing is assumed of the rest of the function: it is enough that the run
gets to the operation.
-/
import SimdLowering.Proofs.Integral.Reads
import SimdLowering.Proofs.Products.Arrival
import SimdLowering.Proofs.Rules.Load

set_option autoImplicit false

namespace SimdLowering

namespace Graph

open SimdLowering.Rules SimdLowering.Frame

variable {g g' : Graph} {gone : List OpId} {func op : OpId} {entry : BlockId} {old v : ValueId}
  {args : List RtValue} {ρ : Env} {access : MemAccess ValueId} {dims : List Nat} {elem : Ty}
  {shape : VectorShape} {x : RtValue} {sizes sizes' : AccessSizes} {edits : Edits} {bits : Nat}

/-- The run of the function on the arguments gets to an operation that goes over a buffer. What
it gives is a vector with lanes that have a range, of a bit at least each; and the cells from where
the indices lead to, for the lanes and as many again, have numbers of 128 bits. -/
structure GoesOver (g : Graph) (func : OpId) (entry : BlockId) (args : List RtValue) (op : OpId)
    (ρ : Env) (access : MemAccess ValueId) (dims : List Nat) (elem : Ty) (shape : VectorShape) :
    Prop extends g.Ready func entry args op ρ where
  accesses : g.memAccess? op = .ok (some access)
  sourceTy : (g.value access.source).ty = .memory dims elem
  resultShape : g.resultShape? op = some shape
  hasLanes : 0 < shape.lanes
  hasBits : 0 < shape.elemBits
  ranged : (ElemKind.ofTy shape.elem).wraps = true
  hasRoom : Addresses dims ((access.indices.map (g.known ρ)).map Known.number) (2 * shape.lanes)

/-- The cells of the buffer that an operation goes over. -/
def cellsOf (g : Graph) (ρ : Env) (access : MemAccess ValueId) : List Lane :=
  (g.known ρ access.source).lanes

/-- The number of the cell that the indices lead to. -/
def cellOf (g : Graph) (ρ : Env) (access : MemAccess ValueId) (dims : List Nat) : Int :=
  flatIndex dims ((access.indices.map (g.known ρ)).map Known.number)

namespace GoesOver

variable (hscene : Scene g gone func) (h : g.GoesOver func entry args op ρ access dims elem shape)
include h hscene

/-- The operands, in their places. -/
theorem operands : g.AtHand func op access.source ∧ (∀ v ∈ access.indices, g.AtHand func op v) ∧
    access.source :: (access.indices ++ access.trailing.toList) <+: g.operands op ∧
      access.indices.length = dims.length := by
  obtain ⟨hs, hi, hprefix, hrank⟩ :=
    (hscene.memAccess? h.arrives.inside).of_eq_ok h.accesses access rfl
  refine ⟨hs, hi, hprefix, ?_⟩
  rw [hrank, h.sourceTy]
  rfl

omit hscene in
theorem vectorShape (hold : g.results op = [old]) :
    (g.value old).ty.vectorShape = some shape := by
  rw [← resultShape?_eq hold, h.resultShape]

omit hscene in
/-- Any lanes come out as a vector, brought into range. -/
theorem shapeAs (hold : g.results op = [old]) (lanes : List Lane) :
    Frame.shapeAs (g.value old).ty lanes =
      some (.vector (lanes.map (Lane.normalize (.ofTy (g.value old).ty)))) := by
  have hshape := h.vectorShape hold
  refine shapeAs_of_isVector (isVector_of_vectorShape hshape) (Or.inr ?_)
  rw [(ofTy_eq_of_vectorShape hshape).1]
  exact h.ranged

end GoesOver

/-! ## Strided reads -/

/-- It is a read without a mask. The innermost index may be a constant, but then it is a number of
type index and not below zero. -/
structure ReadsOver (g : Graph) (func : OpId) (entry : BlockId) (args : List RtValue) (op : OpId)
    (ρ : Env) (access : MemAccess ValueId) (dims : List Nat) (elem : Ty) (shape : VectorShape)
    (innermost : ValueId) : Prop
    extends g.GoesOver func entry args op ρ access dims elem shape where
  reads : g.kind op = .transferRead
  bare : g.operands op = access.source :: access.indices
  last : access.indices.getLast? = some innermost
  forward : ∀ value, g.constantInt? innermost = .ok (some value) →
    0 ≤ value ∧ (g.value innermost).ty = .index

variable {innermost : ValueId}

/-- What the read evaluates to: a window that starts where the indices lead to. -/
theorem evalOp_read (hscene : Scene g gone func)
    (h : g.ReadsOver func entry args op ρ access dims elem shape innermost)
    (hold : g.results op = [old])
    (hx : Frame.shapeAs (g.value old).ty (window (g.cellsOf ρ access) (g.cellOf ρ access dims)
      shape.lanes) = some x) : g.evalOp ρ op = .ok x := by
  obtain ⟨-, -, -, hlen⟩ := h.toGoesOver.operands hscene
  refine h.toReady.evalOp_eq hscene hold ?_
  rw [h.reads, knownOperands, h.bare, List.map_cons]
  have hcount := laneCount_eq (h.vectorShape hold)
  refine eval_transferRead_of h.sourceTy (by rw [List.length_map, hlen])
    (h.hasRoom.mono (by omega)) ?_
  rwa [hcount]

/-- A read of a vector that fits two registers is replaced by what goes over a window of the same
length that starts where the indices lead to, less the lanes that the bytes cut. -/
theorem read_byBytes (hscene : Scene g gone func)
    (h : g.ReadsOver func entry args op ρ access dims elem shape innermost)
    (hold : g.results op = [old]) (hmax : shape.bits ≤ 1024)
    (hx : Frame.shapeAs (g.value old).ty (window (g.cellsOf ρ access)
      (g.cellOf ρ access dims - readCut g innermost shape) shape.lanes) = some x)
    (hrun : transferReadToUpd.run g op sizes = .ok (g', sizes', .matched edits)) :
    g'.MadeToGive ρ edits x := by
  obtain ⟨hs, hi, -, hlen⟩ := h.toGoesOver.operands hscene
  have hshape := h.vectorShape hold
  refine madeToGive_of_run (F := fun _ => True) (k := ⟨(g.value old).ty, x⟩) hscene.consistent ?_
    hrun
  rw [h.accesses]
  refine YieldsUnless.bind (.ok rfl) fun a ha => ?_
  subst ha
  dsimp only
  -- The three checks on the way decline; behind them the access is known and the plan is built.
  split
  · exact .pure trivial
  split
  · exact .pure trivial
  split
  · exact .pure trivial
  rw [h.resultShape, h.last, firstResultType_eq hold]
  refine YieldsUnless.bind (P := (· = (g.value old).ty)) (.ok rfl) fun ty hty => ?_
  subst hty
  rw [← laneCount_eq hshape] at hx
  exact readPlan_computes (h.arrives.vantage hscene) hs hi h.last h.sourceTy hlen hshape h.hasLanes
    h.hasBits hmax h.forward h.hasRoom hx

/-- Take any read of a vector that fits two registers, any run that gets to it and any buffer. If
the innermost index is no constant, or the bytes between it and the multiple of the lane count
below it are whole, what the rule has made gives what the read gives. -/
theorem read_keeps (hscene : Scene g gone func)
    (h : g.ReadsOver func entry args op ρ access dims elem shape innermost)
    (hmax : shape.bits ≤ 1024)
    (hwhole : ∀ value, g.constantInt? innermost = .ok (some value) →
      8 ∣ value.toNat % shape.lanes * shape.elemBits)
    (hrun : transferReadToUpd.run g op sizes = .ok (g', sizes', .matched edits)) :
    ∃ x, g.evalOp ρ op = .ok x ∧ g'.MadeToGive ρ edits x := by
  obtain ⟨old, hold⟩ := hscene.single_of_kind h.arrives.inside (by rw [h.reads]; decide)
    (by rw [h.reads]; decide)
  have hcut : readCut g innermost shape = 0 := by
    unfold readCut
    split
    · next value hvalue => exact lanesCut_eq_zero h.hasBits (hwhole value hvalue)
    · rfl
  have hx := h.toGoesOver.shapeAs hold
    (window (g.cellsOf ρ access) (g.cellOf ρ access dims) shape.lanes)
  refine ⟨_, evalOp_read hscene h hold hx, read_byBytes hscene h hold hmax ?_ hrun⟩
  rwa [hcut, Nat.cast_zero, Int.sub_zero]

/-! ## Loads -/

/-- It is a load. -/
structure LoadsOver (g : Graph) (func : OpId) (entry : BlockId) (args : List RtValue) (op : OpId)
    (ρ : Env) (access : MemAccess ValueId) (dims : List Nat) (elem : Ty) (shape : VectorShape) :
    Prop extends g.GoesOver func entry args op ρ access dims elem shape where
  loads : g.kind op = .upd

/-- A load at offset zero that carries nothing evaluates to the window that starts where the
indices lead to. -/
theorem evalOp_load (hscene : Scene g gone func)
    (h : g.LoadsOver func entry args op ρ access dims elem shape)
    (hbare : g.operands op = access.source :: access.indices) (hoffset : g.updOffset op = 0)
    (hold : g.results op = [old])
    (hx : Frame.shapeAs (g.value old).ty (window (g.cellsOf ρ access) (g.cellOf ρ access dims)
      shape.lanes) = some x) : g.evalOp ρ op = .ok x := by
  obtain ⟨-, -, -, hlen⟩ := h.toGoesOver.operands hscene
  have hshape := h.vectorShape hold
  obtain ⟨-, hbits, -, -⟩ := ofTy_eq_of_vectorShape hshape
  have hpos := h.hasBits
  refine h.toReady.evalOp_eq hscene hold ?_
  rw [h.loads, knownOperands, hbare, List.map_cons]
  have hcount := laneCount_eq hshape
  refine eval_upd h.sourceTy (by rw [List.length_map, hlen]) (by omega) hoffset
    (h.hasRoom.mono (by omega)) ?_
  rwa [hcount]

/-- What is made of a load that is split: the low half goes over the window that starts where the
indices lead to, and the high half starts over there. Neither the offset of the load nor what it
carries has a part in this. -/
theorem split_repeats (hscene : Scene g gone func)
    (h : g.LoadsOver func entry args op ρ access dims elem shape) (hold : g.results op = [old])
    (hlong : 2 * bits ≤ shape.bits) (hsmall : 2 * bits < twoPow 64)
    (hx : Frame.shapeAs (g.value old).ty
      (window (g.cellsOf ρ access) (g.cellOf ρ access dims) (2 * bits / shape.elemBits) ++
        window (g.cellsOf ρ access) (g.cellOf ρ access dims)
          (shape.lanes - 2 * bits / shape.elemBits)) = some x)
    (hrun : (splitUpd bits).run g op sizes = .ok (g', sizes', .matched edits)) :
    g'.MadeToGive ρ edits x := by
  obtain ⟨hs, hi, -, hlen⟩ := h.toGoesOver.operands hscene
  have hshape := h.vectorShape hold
  have hv := h.arrives.vantage hscene
  refine madeToGive_of_sizedRun (F := fun _ => True) (k := ⟨(g.value old).ty, x⟩)
    hscene.consistent ?_ hrun
  -- Whatever the size comes to, only what is made of the load matters.
  refine YieldsUnless.bind (P := fun _ => True) (.of_forall fun _ _ => trivial)
    fun ⟨size, sizes₁⟩ _ => ?_
  refine YieldsUnless.bind (P := fun _ => True) (.of_forall fun _ _ => trivial) fun most _ => ?_
  dsimp only
  split
  · exact .pure trivial
  rw [h.accesses]
  refine YieldsUnless.bind (.ok rfl) fun a ha => ?_
  subst ha
  dsimp only
  rw [firstResultType_eq hold]
  refine YieldsUnless.bind (P := (· = (g.value old).ty)) (.ok rfl) fun ty hty => ?_
  subst hty
  refine .pure (.of_makes ?_)
  have hindices : List.Forall₂ (Source.Holds g ρ []) (access.indices.map Source.value)
      (access.indices.map (g.known ρ)) := by
    rw [List.forall₂_map_left_iff, List.forall₂_map_right_iff]
    exact List.forall₂_same.mpr fun v hv' => hv.holds (hi v hv')
  exact splitPlan_evaluates (hv.holds hs) hindices h.sourceTy (by rw [List.length_map, hlen]) hshape
    h.hasBits hlong hsmall (h.hasRoom.mono (by omega)) hx

/-- A load of two registers or more that reads everything itself is kept by a split exactly if, in
the high half, the buffer holds what it holds in the low one. -/
theorem split_keeps_iff (hscene : Scene g gone func)
    (h : g.LoadsOver func entry args op ρ access dims elem shape)
    (hbare : g.operands op = access.source :: access.indices) (hoffset : g.updOffset op = 0)
    (hold : g.results op = [old]) (hlong : 2 * bits ≤ shape.bits) (hsmall : 2 * bits < twoPow 64)
    (hrun : (splitUpd bits).run g op sizes = .ok (g', sizes', .matched edits)) :
    ∃ x y, g.evalOp ρ op = .ok x ∧ g'.MadeToGive ρ edits y ∧
      (x = y ↔ ∀ i : Nat, i < shape.lanes - 2 * bits / shape.elemBits →
        (cellAt (g.cellsOf ρ access)
          (g.cellOf ρ access dims + (2 * bits / shape.elemBits : Nat) + i)).normalize
            (.ofTy (g.value old).ty) =
          (cellAt (g.cellsOf ρ access) (g.cellOf ρ access dims + i)).normalize
            (.ofTy (g.value old).ty)) := by
  have hv := h.toGoesOver.shapeAs hold
  have hhalf : 2 * bits / shape.elemBits ≤ shape.lanes := by
    rw [← Nat.mul_div_cancel shape.lanes h.hasBits]
    exact Nat.div_le_div_right hlong
  refine ⟨_, _, evalOp_load hscene h hbare hoffset hold (hv _),
    split_repeats hscene h hold hlong hsmall (hv _) hrun, ?_⟩
  -- The low halves are the same.
  rw [RtValue.vector.injEq, ← window_append hhalf, List.map_append, List.map_append,
    List.append_cancel_left_eq, List.ext_getElem_iff]
  simp [window]

end Graph

end SimdLowering
