/-
Values that are read before they are computed.

An evaluation gives up over an unbound value in one case only, whatever it computes: the value
stands in one of the slots of the operation, and nothing has been computed for it. This is a
property of the way evaluations are put together, so there is one lemma for each way of putting
them together and then one for each kind.

A run of a validated function never gives up like this. The scan of validation and the run go
through the entry block side by side: the scan adds the results of an operation to what is
visible, the run binds a value to the result, and so what is visible to an operation is bound
when its turn comes. All that is asked of the graph is that an operation that the run evaluates
has one result, since a run binds only one. The graph need have no history and its tables need
not agree.
-/
import SimdLowering.Proofs.Eval.Traces

set_option autoImplicit false

namespace SimdLowering

namespace Frame

variable {f : Frame} {α β : Type} {s : Slot}

/-! ## Who is to blame -/

/-- If the evaluation gives up over an unbound value, then that value stands in a slot of the
frame, and the slot is empty. -/
def BlamesSlot (f : Frame) (e : Except EvalError α) : Prop :=
  ∀ v, e = .error (.unbound v) → ∃ s ∈ f.slots, s.source = v ∧ s.value = none

namespace BlamesSlot

theorem ok (a : α) : f.BlamesSlot (.ok a) := nofun

theorem broken : f.BlamesSlot (.error .broken : Except EvalError α) := nofun

theorem defect (d : Defect) : f.BlamesSlot (f.defect d : Except EvalError α) := nofun

theorem unsupported (why : Limitation) : f.BlamesSlot (f.unsupported why : Except EvalError α) :=
  nofun

/-- One step after another gives up where one of the two does. -/
theorem bind {r : Except EvalError α} {next : α → Except EvalError β} (h : f.BlamesSlot r)
    (hnext : ∀ a, r = .ok a → f.BlamesSlot (next a)) : f.BlamesSlot (r >>= next) := by
  intro v hv
  rcases bind_eq_error.mp hv with hv | ⟨a, ha, hv⟩
  · exact h v hv
  · exact hnext a ha v hv

/-- What becomes of an answer does not matter. -/
theorem map {r : Except EvalError α} {k : α → β} (h : f.BlamesSlot r) :
    f.BlamesSlot (k <$> r) := by
  rw [map_eq_pure_bind]
  exact h.bind fun _ _ => ok _

/-- Over a list each step is to blame for itself. -/
theorem mapM {γ : Type} {step : γ → Except EvalError β} {l : List γ}
    (h : ∀ c ∈ l, f.BlamesSlot (step c)) : f.BlamesSlot (l.mapM step) := by
  induction l with
  | nil => exact ok _
  | cons c l ih =>
    rw [List.mapM_cons]
    refine (h c (List.mem_cons_self ..)).bind fun _ _ => ?_
    refine (ih fun d hd => h d (List.mem_cons_of_mem _ hd)).bind fun _ _ => ?_
    exact ok _

/-- The same, where the steps hand a state on. -/
theorem foldlM {γ : Type} {step : β → γ → Except EvalError β} {l : List γ}
    (h : ∀ b, ∀ c ∈ l, f.BlamesSlot (step b c)) (b : β) : f.BlamesSlot (l.foldlM step b) := by
  induction l generalizing b with
  | nil => exact ok _
  | cons c l ih =>
    rw [List.foldlM_cons]
    refine (h b c (List.mem_cons_self ..)).bind fun b _ => ?_
    exact ih (fun b d hd => h b d (List.mem_cons_of_mem _ hd)) b

theorem ite {c : Prop} [Decidable c] {e e' : Except EvalError α} (h : f.BlamesSlot e)
    (h' : f.BlamesSlot e') : f.BlamesSlot (if c then e else e') := by
  split
  · exact h
  · exact h'

end BlamesSlot

/-! ## Reading a frame -/

/-- A slot is to blame where it is empty, and for its own value only. -/
theorem slotValue_blames (hs : s ∈ f.slots) : f.BlamesSlot (slotValue s) := by
  intro v hv
  rw [slotValue] at hv
  split at hv
  · cases hv
  · next hnone =>
    cases hv
    exact ⟨s, hs, rfl, hnone⟩

theorem slotTy_blames (s : Slot) : f.BlamesSlot (slotTy s) := by
  unfold slotTy
  split
  · exact .ok _
  · exact .broken

variable (f)

/-- So is the slot that an operand is read from. -/
theorem operand_blames (i : Nat) : f.BlamesSlot (f.operand i) := by
  unfold operand
  split
  · next s hs => exact slotValue_blames (List.mem_of_getElem? hs)
  · exact .defect _

theorem lanes_blames (i : Nat) : f.BlamesSlot (f.lanes i) := (f.operand_blames i).map

theorem operandTy_blames (i : Nat) : f.BlamesSlot (f.operandTy i) := by
  unfold operandTy
  split
  · exact slotTy_blames _
  · exact .broken

theorem operandKind_blames (i : Nat) : f.BlamesSlot (f.operandKind i) := (f.operandTy_blames i).map

theorem scalarOperand_blames (i : Nat) : f.BlamesSlot (f.scalarOperand i) := by
  refine (f.lanes_blames i).bind fun l _ => ?_
  split
  · exact .ok _
  · exact .defect _

/-- A missing lane is another defect than a missing value. -/
theorem laneAt_blames (i lane : Nat) : f.BlamesSlot (f.laneAt i lane) := by
  refine (f.lanes_blames i).bind fun l _ => ?_
  split
  · exact .ok _
  · exact .defect _

theorem result_blames : f.BlamesSlot f.result := by
  unfold result
  split
  · exact .ok _
  · exact .defect _

theorem resultLanes_blames : f.BlamesSlot f.resultLanes := f.result_blames.map

/-- Giving lanes the type of the result reads no slot. -/
theorem finish_blames (lanes : List Lane) : f.BlamesSlot (f.finish lanes) := by
  refine f.result_blames.bind fun ty _ => ?_
  split
  · exact .ok _
  · exact .ite (.defect _) .broken

theorem finishMask_blames (marks : List Bool) : f.BlamesSlot (f.finishMask marks) :=
  .ite .broken (f.finish_blames _)

theorem fill_blames (lane : Lane) :
    f.BlamesSlot (do f.finish (List.replicate (← f.resultLanes) lane)) :=
  f.resultLanes_blames.bind fun _ _ => f.finish_blames _

theorem requireStandardShuffle_blames : f.BlamesSlot f.requireStandardShuffle :=
  .ite (.ok _) (.unsupported _)

/-- Nor does choosing among lanes that are there. -/
theorem chooseLanes_blames (holds : Nat → Bool) (onTrue onFalse : List Lane) :
    f.BlamesSlot (chooseLanes holds onTrue onFalse) := by
  refine .mapM fun p _ => .ite (.ok _) ?_
  split
  · exact .ok _
  · exact .broken

/-! ## The kinds -/

/-- Lanewise work reads two operands and nothing else. -/
theorem lanewiseIf_blames (able : Bool) (h : Lane → Lane → Lane) :
    f.BlamesSlot (f.lanewiseIf able h) := by
  refine (f.lanes_blames 0).bind fun lhs _ => ?_
  refine (f.lanes_blames 1).bind fun rhs _ => ?_
  refine f.resultLanes_blames.bind fun n _ => ?_
  exact .ite (.defect _) (.ite .broken (f.finish_blames _))

theorem lanewise_blames (h : Lane → Lane → Lane) : f.BlamesSlot (f.lanewise h) :=
  f.lanewiseIf_blames true h

/-- A constant reads no operand at all. -/
theorem evalConstant_blames : f.BlamesSlot f.evalConstant := by
  unfold evalConstant
  cases f.attrs.get? AttrName.value with
  | none => exact .bind (.defect _) fun lane _ => f.fill_blames lane
  | some value =>
    cases value with
    | float | int | bool => exact .bind (.ok _) fun lane _ => f.fill_blames lane
    | _ => exact .bind (.defect _) fun lane _ => f.fill_blames lane

theorem evalExtremum_blames (pick : ElemKind → Lane → Lane → Lane) :
    f.BlamesSlot (f.evalExtremum pick) :=
  (f.operandKind_blames 0).bind fun kind _ => f.lanewiseIf_blames kind.orders (pick kind)

theorem evalCmpi_blames : f.BlamesSlot f.evalCmpi := by
  unfold evalCmpi
  split
  · exact .defect _
  · exact (f.operandKind_blames 0).bind fun kind _ => f.lanewiseIf_blames kind.views _

theorem evalCmpf_blames : f.BlamesSlot f.evalCmpf := by
  unfold evalCmpf
  split
  · exact .defect _
  · exact f.lanewise_blames _

theorem evalSelect_blames : f.BlamesSlot f.evalSelect := by
  refine (f.lanes_blames 0).bind fun cond _ => ?_
  refine (f.lanes_blames 1).bind fun onTrue _ => ?_
  refine (f.lanes_blames 2).bind fun onFalse _ => ?_
  exact (f.chooseLanes_blames _ _ _).bind fun lanes _ => f.finish_blames lanes

theorem convertLanes_blames (srcKind dstKind : ElemKind) (src : List Lane) :
    f.BlamesSlot (f.convertLanes srcKind dstKind src) := by
  unfold convertLanes
  split
  · exact .ok _
  · exact .ite (.ok _) .broken
  · exact .ok _

theorem evalConversion_blames : f.BlamesSlot f.evalConversion := by
  refine (f.lanes_blames 0).bind fun src _ => ?_
  refine (f.operandKind_blames 0).bind fun kind _ => ?_
  refine f.result_blames.bind fun ty _ => ?_
  exact (f.convertLanes_blames _ _ _).bind fun lanes _ => f.finish_blames lanes

theorem evalCast_blames : f.BlamesSlot f.evalCast := by
  refine (f.operandTy_blames 0).bind fun srcTy _ => ?_
  refine f.result_blames.bind fun dstTy _ => ?_
  refine (f.lanes_blames 0).bind fun src _ => ?_
  exact .ite (f.finishMask_blames _) (.ite (.ite .broken (f.finish_blames _)) (f.finish_blames _))

/-- A reduction reads one operand. -/
theorem evalReduction_blames : f.BlamesSlot f.evalReduction := by
  unfold evalReduction
  split
  · exact .defect _
  · refine (f.operandKind_blames 0).bind fun kind _ => ?_
    refine (f.lanes_blames 0).bind fun l _ => ?_
    cases l with
    | nil => exact .defect _
    | cons first rest => exact .ite .broken (f.finish_blames _)

theorem evalSplat_blames : f.BlamesSlot f.evalSplat := by
  refine (f.lanes_blames 0).bind fun l _ => ?_
  split
  · exact .defect _
  · exact f.fill_blames _

theorem evalLaneSplat_blames : f.BlamesSlot f.evalLaneSplat :=
  (f.laneAt_blames 0 _).bind fun lane _ => f.fill_blames lane

theorem evalExt_blames : f.BlamesSlot f.evalExt := by
  refine f.resultLanes_blames.bind fun n _ => ?_
  refine (f.lanes_blames 0).bind fun src _ => ?_
  exact .ite .broken (.ite (f.finish_blames _) (.defect _))

theorem evalShift_blames : f.BlamesSlot f.evalShift := by
  refine f.resultLanes_blames.bind fun n _ => ?_
  refine (f.scalarOperand_blames 2).bind fun bytes _ => ?_
  refine f.result_blames.bind fun ty _ => .ite .broken ?_
  refine (f.lanes_blames 0).bind fun lhs _ => ?_
  refine (f.lanes_blames 1).bind fun rhs _ => ?_
  exact .ite .broken (.ite (f.finish_blames _) (.defect _))

/-- A multiply-add reads three operands, one after the other. -/
theorem evalFma_blames : f.BlamesSlot f.evalFma := by
  refine (f.lanes_blames 0).bind fun lhs _ => ?_
  refine (f.lanes_blames 1).bind fun rhs _ => ?_
  refine (f.lanes_blames 2).bind fun acc _ => ?_
  exact .ite (.defect _) (f.finish_blames _)

theorem evalCmp_blames : f.BlamesSlot f.evalCmp := by
  unfold evalCmp
  split
  · exact .unsupported _
  · refine (f.operandKind_blames 0).bind fun kind _ => ?_
    refine (f.lanes_blames 0).bind fun lhs _ => ?_
    exact (f.lanes_blames 1).bind fun rhs _ => .ite .broken (f.finishMask_blames _)

theorem evalSel_blames : f.BlamesSlot f.evalSel := by
  refine (f.lanes_blames 0).bind fun onTrue _ => ?_
  refine (f.lanes_blames 1).bind fun onFalse _ => ?_
  refine (f.scalarOperand_blames 2).bind fun mask _ => .ite .broken ?_
  exact (f.chooseLanes_blames _ _ _).bind fun lanes _ => f.finish_blames lanes

/-- A concatenation reads as many operands as it has. -/
theorem evalConcat_blames : f.BlamesSlot (do
    let parts ← (List.range f.slots.length).mapM f.lanes
    f.finish parts.flatten) :=
  (BlamesSlot.mapM fun i _ => f.lanes_blames i).bind fun _ _ => f.finish_blames _

/-- Telling the source of an access from its indices reads nothing but ranks. -/
theorem split?_blames {rank : Slot → Except EvalError Nat} (h : ∀ s, f.BlamesSlot (rank s))
    (slots : List Slot) : f.BlamesSlot (MemAccess.split? rank slots) := by
  cases slots with
  | nil => exact .ok _
  | cons source rest => exact (h source).bind fun _ _ => .ok _

/-- The parts of an access are among the slots it was split from. -/
theorem mem_of_split? {rank : Slot → Except EvalError Nat} {slots : List Slot}
    {access : MemAccess Slot} (h : MemAccess.split? rank slots = .ok (some access)) :
    access.source ∈ slots ∧ (∀ s ∈ access.indices, s ∈ slots) ∧
      ∀ s, access.trailing = some s → s ∈ slots := by
  cases slots with
  | nil => cases h
  | cons source rest =>
    obtain ⟨n, -, h⟩ := bind_eq_ok.mp h
    have h := Except.ok.inj h
    split at h
    · cases h
    · cases h
      refine ⟨List.mem_cons_self .., fun s hs => ?_, fun s hs => ?_⟩
      · exact List.mem_cons_of_mem _ (List.mem_of_mem_take hs)
      · exact List.mem_cons_of_mem _ (List.mem_of_mem_drop (List.mem_of_mem_head? hs))

/-- The indices of an access are read from slots of the operation. -/
theorem cellNumber_blames (shape : List Nat) {indices : List Slot}
    (h : ∀ s ∈ indices, s ∈ f.slots) : f.BlamesSlot (cellNumber shape indices) := by
  refine BlamesSlot.foldlM (fun base p hp => ?_) 0
  have hslot := h _ (List.of_mem_zip hp).2
  exact ((slotValue_blames hslot).bind fun _ _ => .ok _ : f.BlamesSlot (indexOf p.2)).bind
    fun _ _ => .ite (.ok _) .broken

/-- A read is the only evaluation that does not look its operands up by number. -/
theorem evalLoad_blames : f.BlamesSlot f.evalLoad := by
  refine (f.split?_blames (fun s => (slotTy_blames s).map) _).bind fun access? haccess => ?_
  cases access? with
  | none => exact .defect _
  | some access =>
    obtain ⟨hsource, hindices, htrailing⟩ := mem_of_split? haccess
    refine (slotTy_blames _).bind fun ty _ => ?_
    cases ty with
    | memory shape elem =>
      refine (slotValue_blames hsource).bind fun cells _ => ?_
      refine (f.cellNumber_blames shape hindices).bind fun base _ => ?_
      refine f.resultLanes_blames.bind fun n _ => ?_
      refine .ite (.ite (.unsupported _) (.ite .broken (f.finish_blames _))) ?_
      -- What the load is laid over is a slot as well, where there is one.
      split
      · next s hs =>
        refine (slotValue_blames (htrailing s hs)).map.bind fun carried _ => ?_
        exact f.result_blames.bind fun ty _ =>
          .ite .broken (.ite .broken (f.finish_blames _))
      · refine .bind (.ok _) fun carried _ => ?_
        exact f.result_blames.bind fun ty _ =>
          .ite .broken (.ite .broken (f.finish_blames _))
    | _ => exact .defect _

/-- An evaluation gives up over an unbound value only if an operand is not computed yet. -/
theorem eval_blames : f.BlamesSlot f.eval := by
  have shuffled : ∀ {e : Except EvalError RtValue}, f.BlamesSlot e →
      f.BlamesSlot (do f.requireStandardShuffle; e) :=
    fun he => f.requireStandardShuffle_blames.bind fun _ _ => he
  unfold eval
  generalize f.kind = k
  cases k
  case constant => exact f.evalConstant_blames
  case addi | addf | addElem | subi | subf | subElem | muli | mulf | mulElem =>
    exact f.lanewise_blames _
  case add | sub | mul => exact shuffled (f.lanewise_blames _)
  case minsi | minf | min | maxsi | maxf | max => exact f.evalExtremum_blames _
  case cmpi => exact f.evalCmpi_blames
  case cmpf => exact f.evalCmpf_blames
  case select => exact f.evalSelect_blames
  case extsi | extf | cast | ups | srs => exact f.evalConversion_blames
  case unrealizedCast => exact f.evalCast_blames
  case reduction => exact f.evalReduction_blames
  case broadcast | broadcastScalar => exact f.evalSplat_blames
  case extract => exact (f.laneAt_blames 0 _).bind fun lane _ => f.finish_blames _
  case broadcastLane => exact f.evalLaneSplat_blames
  case extElem =>
    refine (f.scalarOperand_blames 1).bind fun lane _ => ?_
    exact (f.laneAt_blames 0 _).bind fun lane _ => f.finish_blames _
  case transferRead | upd => exact f.evalLoad_blames
  case concat => exact f.evalConcat_blames
  case ext => exact f.evalExt_blames
  case shift => exact f.evalShift_blames
  case fma => exact shuffled f.evalFma_blames
  case fmaElem => exact f.evalFma_blames
  case cmp => exact f.evalCmp_blames
  case sel => exact f.evalSel_blames
  case func | ret => exact .unsupported _

end Frame

/-! ## What is bound -/

namespace Env

variable {env : Env} {l params : List ValueId} {args : List RtValue} {v : ValueId} {x : RtValue}

/-- Something has been computed for every value of the list. -/
def Covers (env : Env) (l : List ValueId) : Prop := ∀ v ∈ l, env.get? v ≠ none

/-- A value that is bound is covered from then on. -/
theorem Covers.bind (h : env.Covers l) : (env.bind v x).Covers (v :: l) := by
  intro w hw
  rw [get?_bind]
  by_cases heq : w = v
  · simp [heq]
  · rw [if_neg heq]
    exact h w ((List.mem_cons.mp hw).resolve_left heq)

/-- Parameters that are bound in pairs are bound, even if one is named twice. -/
theorem Covers.bindAll (h : env.Covers l) (hlen : params.length = args.length) :
    (env.bindAll (params.zip args)).Covers (params ++ l) := by
  induction params generalizing env l args with
  | nil => exact h
  | cons v params ih =>
    cases args with
    | nil => cases hlen
    | cons x args =>
      intro w hw
      refine ih h.bind (Nat.succ.inj hlen) w ?_
      simp only [List.mem_append, List.mem_cons] at hw ⊢
      tauto

/-- A read gives up over the very value that it asks for, which is not bound. -/
theorem read_eq_unbound {w : ValueId} (h : env.read w = .error (.unbound v)) :
    w = v ∧ env.get? w = none := by
  rw [read] at h
  split at h
  · cases h
  · next hnone =>
    cases h
    exact ⟨rfl, hnone⟩

/-- Reading several values gives up over one of them that is not computed yet. -/
theorem mapM_read_eq_unbound (h : l.mapM env.read = .error (.unbound v)) :
    v ∈ l ∧ env.get? v = none := by
  induction l with
  | nil => cases h
  | cons w l ih =>
    rw [List.mapM_cons] at h
    rcases bind_eq_error.mp h with h | ⟨x, -, h⟩
    · obtain ⟨rfl, hnone⟩ := read_eq_unbound h
      exact ⟨List.mem_cons_self .., hnone⟩
    · rcases bind_eq_error.mp h with h | ⟨xs, -, h⟩
      · obtain ⟨hmem, hnone⟩ := ih h
        exact ⟨List.mem_cons_of_mem _ hmem, hnone⟩
      · cases h

end Env

namespace Graph

variable {g : Graph} {func o : OpId} {entry : BlockId} {l : List OpId} {env : Env}
  {visible : List ValueId} {inside : List ValueId → RegionId → List ValidationError} {v : ValueId}

/-! ## The run beside the scan -/

/-- An operation gives up over an operand of its own that is not computed yet, or over none. -/
theorem evalOp_eq_unbound (h : g.evalOp env o = .error (.unbound v)) :
    v ∈ g.operands o ∧ env.get? v = none := by
  obtain ⟨s, hs, rfl, hnone⟩ := (g.frame env o).eval_blames v h
  obtain ⟨w, hw, rfl⟩ := List.mem_map.mp hs
  exact ⟨hw, hnone⟩

/-- Along a stretch of a block that validates, where everything visible is bound at the start,
the run gives up over no unbound value. -/
theorem runOps_ne_unbound (valid : g.orderErrorsOfOps inside visible l = [])
    (single : ∀ o ∈ l, g.kind o ≠ .ret → (g.results o).length = 1) (covers : env.Covers visible) :
    (g.runOps l env).2 ≠ .error (.unbound v) := by
  induction l generalizing visible env with
  | nil => exact nofun
  | cons o l ih =>
    rw [orderErrorsOfOps, List.append_eq_nil_iff, List.append_eq_nil_iff,
      hiddenOperands_eq_nil] at valid
    obtain ⟨⟨hseen, -⟩, hrest⟩ := valid
    have bound : ∀ w ∈ g.operands o, env.get? w ≠ none := fun w hw => covers w (hseen w hw)
    rw [runOps]
    split
    · intro h
      obtain ⟨hv, hnone⟩ := Env.mapM_read_eq_unbound h
      exact bound v hv hnone
    · next hkind =>
      obtain ⟨w, hw⟩ := List.length_eq_one_iff.mp (single o (List.mem_cons_self ..) hkind)
      rw [hw] at hrest ⊢
      split
      · next e he =>
        intro h
        obtain rfl := Except.error.inj h
        obtain ⟨hv, hnone⟩ := evalOp_eq_unbound he
        exact bound v hv hnone
      · -- The result becomes visible and bound at the same time.
        exact ih hrest (fun p hp => single p (List.mem_cons_of_mem _ hp)) covers.bind

/-- The scan of a root goes through its entry block with the parameters visible. -/
theorem orderErrorsOfOps_of_valid (valid : g.orderErrors func = .ok [])
    (hentry : g.IsEntry func entry) :
    g.orderErrorsOfOps (g.orderErrorsWithin g.regions.size) (g.argsOf entry ++ [])
      (g.opsIn entry) = [] := by
  obtain ⟨-, r, hr, hb⟩ := hentry
  unfold orderErrors at valid
  split at valid
  · have hregion := List.flatMap_eq_nil_iff.mp (Except.ok.inj valid) r (List.mem_of_mem_head? hr)
    rw [depthBound, orderErrorsWithin] at hregion
    exact List.flatMap_eq_nil_iff.mp hregion entry (List.mem_of_mem_head? hb)
  · cases valid

/-- Whatever has been computed before, a run of a function that validates never gives up over an
unbound value, if each operation of its entry block but the returns has exactly one result. -/
theorem run_ne_unbound (valid : g.orderErrors func = .ok [])
    (single : ∀ entry, g.entryBlock? func = some entry → ∀ o ∈ g.opsIn entry, g.kind o ≠ .ret →
      (g.results o).length = 1) (args : List RtValue) (v : ValueId) :
    g.run func args ≠ .error (.unbound v) ∧
      ∀ env, (g.runIn env func args).2 ≠ .error (.unbound v) := by
  have anywhere : ∀ env, (g.runIn env func args).2 ≠ .error (.unbound v) := by
    intro env
    rw [runIn]
    split
    · simp
    · next entry hentry =>
      dsimp only
      split
      · simp
      · next hlen =>
        have hstart : env.Covers [] := fun _ hw => absurd hw List.not_mem_nil
        have hscan := orderErrorsOfOps_of_valid valid (entryBlock?_eq_some.mp hentry)
        exact runOps_ne_unbound hscan (single entry hentry) (hstart.bindAll (not_not.mp hlen))
  exact ⟨anywhere .empty, anywhere⟩

/-- A function that reads a buffer twice, the second time over what it has read the first time,
and joins the two. -/
def joinedReads : Graph where
  ops := #[⟨.transferRead, [⟨0⟩, ⟨1⟩], [⟨2⟩], .empty, [], some ⟨0⟩⟩,
    ⟨.upd, [⟨0⟩, ⟨1⟩, ⟨2⟩], [⟨3⟩], ⟨[("offset", .int 32)]⟩, [], some ⟨0⟩⟩,
    ⟨.concat, [⟨2⟩, ⟨3⟩], [⟨4⟩], .empty, [], some ⟨0⟩⟩,
    ⟨.ret, [⟨4⟩], [], .empty, [], some ⟨0⟩⟩,
    ⟨.func, [], [], ⟨[("sym_name", .str "joined")]⟩, [⟨0⟩], none⟩]
  values := #[⟨.argument ⟨0⟩ 0, .memory [4] (.i 32)⟩, ⟨.argument ⟨0⟩ 1, .index⟩,
    ⟨.result ⟨0⟩ 0, .vector 2 (.i 32)⟩, ⟨.result ⟨1⟩ 0, .vector 2 (.i 32)⟩,
    ⟨.result ⟨2⟩ 0, .vector 4 (.i 32)⟩]
  blocks := #[⟨[⟨0⟩, ⟨1⟩], [⟨0⟩, ⟨1⟩, ⟨2⟩, ⟨3⟩], some ⟨0⟩⟩]
  regions := #[⟨[⟨0⟩], some ⟨4⟩⟩]
  chains := #[[⟨⟨0⟩, 0⟩, ⟨⟨1⟩, 0⟩], [⟨⟨0⟩, 1⟩, ⟨⟨1⟩, 1⟩], [⟨⟨1⟩, 2⟩, ⟨⟨2⟩, 0⟩], [⟨⟨2⟩, 1⟩],
    [⟨⟨3⟩, 0⟩]]

/-- It validates, so the second read finds what it is laid over, also where there is nothing to be
read. -/
theorem run_ne_unbound_joinedReads :
    joinedReads.orderErrors ⟨4⟩ = .ok [] ∧
    (joinedReads.run ⟨4⟩ [.memory [.int 5, .int 6, .int 7, .int 8], .scalar (.int 1)] =
      .ok [.vector [.int 6, .int 7, .int 6, .int 6]]) ∧
    joinedReads.run ⟨4⟩ [.memory [], .vector []] ≠ .error (.unbound ⟨2⟩) := by
  have valid : joinedReads.orderErrors ⟨4⟩ = .ok [] := by cbv
  have single : ∀ entry, joinedReads.entryBlock? ⟨4⟩ = some entry →
      ∀ o ∈ joinedReads.opsIn entry, joinedReads.kind o ≠ .ret →
        (joinedReads.results o).length = 1 := by
    intro entry hentry
    obtain rfl : ⟨0⟩ = entry := Option.some.inj hentry
    decide
  exact ⟨valid, rfl, (run_ne_unbound valid single _ ⟨2⟩).1⟩

end Graph

end SimdLowering
