/-
The rules for minima, maxima, comparisons and selects compute what they replace.

Minima and maxima are the same lane by lane. A comparison is done into a word and unpacked
again, and a select packs its condition first; a register has at most sixty-four lanes, so a
word has room for all of them. That a select reads the bit of its own lane needs a condition
with as many lanes as the branches.
-/
import SimdLowering.Proofs.Integral.Stage
import SimdLowering.Proofs.Rules.Extremum

set_option autoImplicit false

namespace SimdLowering

namespace Rules

open SimdLowering.Graph SimdLowering.Frame

variable {gen : Generation} {g : Graph} {gone : List OpId} {func op : OpId} {entry : BlockId}
  {old : ValueId} {args ans : List RtValue} {ρ : Env} {Γ : List Known} {ka kb kc k : Known}
  {a b c : Source} {o : Operand Source} {ty : Ty} {shape : VectorShape} {n : Nat}

/-- A register has at most as many lanes as a word has bits. -/
theorem lanes_le_of_isFullRegister (h : shape.isFullRegister = true) : shape.lanes ≤ 64 := by
  simp only [VectorShape.isFullRegister, fullRegisterWidths, fullRegisterBits, VectorShape.bits,
    Bool.and_eq_true, List.contains_iff_mem, List.mem_cons, List.not_mem_nil, or_false,
    beq_iff_eq] at h
  obtain ⟨hwidth, hbits⟩ := h
  rcases hwidth with e | e | e <;> rw [e] at hbits <;> omega

theorem lanes_pos_of_isFullRegister (h : shape.isFullRegister = true) : 0 < shape.lanes := by
  simp only [VectorShape.isFullRegister, fullRegisterBits, VectorShape.bits, Bool.and_eq_true,
    beq_iff_eq] at h
  obtain ⟨-, hbits⟩ := h
  exact Nat.pos_of_ne_zero fun h0 => by simp [h0] at hbits

/-- The lanes of a full register can be brought into range. -/
theorem wraps_of_isFullRegister {ty : Ty} (hs : ty.vectorShape = some shape)
    (h : shape.isFullRegister = true) : (ElemKind.ofTy ty).wraps = true := by
  have hbits := (ofTy_eq_of_vectorShape hs).2.1
  simp only [VectorShape.isFullRegister, fullRegisterWidths, Bool.and_eq_true,
    List.contains_iff_mem, List.mem_cons, List.not_mem_nil, or_false] at h
  cases hkind : ElemKind.ofTy ty with
  | int bits sign =>
    have hwidth : bits = shape.elemBits := (congrArg ElemKind.bits hkind).symm.trans hbits
    exact ElemKind.wraps_int (by omega) (by omega) sign
  | _ => rfl

theorem isVector_maskType (n : Nat) : (maskType n).isVector = false := rfl

/-! ## The plans -/

/-- A comparison of two values with as many lanes as there are truth bits. -/
theorem comparePlan_evaluates {p : IntPredicate} {x : RtValue} (ha : a.Holds g ρ Γ ka)
    (hb : b.Holds g ρ Γ kb) (hla : ka.lanes.length = n) (hlb : n ≤ kb.lanes.length) (hn : n ≤ 64)
    (hviews : ka.lanes ≠ [] → (ElemKind.ofTy ka.ty).views = true)
    (h : shapeAs (.vector n (.i 1)) ((List.zipWith (fun l r =>
      Lane.ofBool (p.targetHolds (.ofTy ka.ty) l r)) ka.lanes kb.lanes).take n) = some x) :
    (comparePlan (.vector n (.i 1)) (maskType n) a b p).Makes (Evaluates g ρ) Γ
      fun Γ d => Evaluates g ρ Γ d ⟨.vector n (.i 1), x⟩ := by
  obtain ⟨holds, hholds⟩ : ∃ bs, bs = List.zipWith (p.targetHolds (.ofTy ka.ty))
      ka.lanes kb.lanes := ⟨_, rfl⟩
  have hlen : holds.length = n := by
    rw [hholds, List.length_zipWith]
    omega
  have hcmp : shapeAs (maskType n) [maskLane (List.zipWith (p.targetHolds (.ofTy ka.ty))
      ka.lanes kb.lanes)] = some (.scalar (.int (packBits holds))) := by
    rw [← hholds]
    exact shapeAs_maskLane (Nat.le_of_eq hlen) hn
  have hbound : n ≤ maskBits := hn.trans (by decide)
  refine (evaluates_cmp ha hb hviews (hla ▸ hbound) hcmp).then
    fun mask hmask => (evaluates_unpack hmask.1 (isVector_maskType n) rfl
      (show laneCount (.vector n (.i 1)) ≤ maskBits from hbound) ?_).ends
  -- What is unpacked are the bits that were packed, which are those of the comparison.
  have hbits : ((List.range (laneCount (.vector n (.i 1)))).map fun i =>
      Lane.int (bitOf (packBits holds) i)) = holds.map Lane.ofBool := by
    rw [← map_bitOf_packBits, hlen]
    rfl
  refine Eq.trans (congrArg (shapeAs _) hbits) ?_
  rw [← h, hholds, List.map_zipWith, List.take_of_length_le]
  rw [List.length_zipWith]
  omega

/-- A select by a word that holds the given bits. -/
theorem selectPlan_evaluates_of_mask {bits : List Bool} {x : RtValue} {l : List Lane}
    (hmask : Evaluates g ρ Γ (Instr.unrealizedCast c (maskType n))
      ⟨maskType n, .scalar (.int (packBits bits))⟩)
    (ho : Yielding g ρ ka Γ o) (hb : b.Holds g ρ Γ kb) (hlen : ka.lanes.length ≤ maskBits)
    (hl : chooseLanes (fun i => bits[i]?.getD false) ka.lanes kb.lanes = .ok l)
    (h : shapeAs ka.ty l = some x) : (selectPlan (maskType n) c o b).Makes (Evaluates g ρ) Γ
      fun Γ d => Evaluates g ρ Γ d ⟨ka.ty, x⟩ := by
  refine hmask.then fun mask hmask => (evaluates_sel ho.snoc hb.snoc hmask.1 rfl hlen ?_ h).ends
  rw [← hl]
  refine chooseLanes_congr fun i _ => ?_
  rw [Lane.asInt, bitOf_packBits]
  cases bits[i]?.getD false <;> rfl

/-- A select by a condition that has a lane for each lane of the branches. -/
theorem selectPlan_evaluates (hc : c.Holds g ρ Γ kc) (ho : Yielding g ρ ka Γ o)
    (hb : b.Holds g ρ Γ kb) (hcond : kc.ty = .vector n (.i 1)) (hlc : kc.lanes.length = n)
    (hla : ka.lanes.length = n) (hn : n ≤ 64) {x : RtValue} {l : List Lane}
    (hl : chooseLanes (chosen kc.lanes) ka.lanes kb.lanes = .ok l)
    (h : shapeAs ka.ty l = some x) : (selectPlan (maskType n) c o b).Makes (Evaluates g ρ) Γ
      fun Γ d => Evaluates g ρ Γ d ⟨ka.ty, x⟩ := by
  have hpacked : (kc.lanes.map fun l => decide (l.asInt ≠ 0)).length ≤ n := by
    rw [List.length_map, hlc]
  have hbound : n ≤ maskBits := hn.trans (by decide)
  refine selectPlan_evaluates_of_mask (evaluates_pack hc (by rw [hcond]; rfl)
    (isVector_maskType n) (hlc ▸ hbound) (shapeAs_maskLane hpacked hn)) ho hb (hla ▸ hbound) ?_ h
  rw [← hl]
  refine chooseLanes_congr fun i hi => ?_
  have hi' : i < kc.lanes.length := by omega
  rw [chosen, List.getElem?_map, List.getElem?_eq_getElem hi', Option.map_some, Option.getD_some,
    Option.some_or]

/-- A select by a single truth value, which decides on the first lane only. -/
theorem selectPlan_evaluates_scalar {lane : Lane} (hc : c.Holds g ρ Γ ⟨.i 1, .scalar lane⟩)
    (hlane : lane.normalize (.ofTy (.i 1)) = lane) (ho : Yielding g ρ ka Γ o)
    (hb : b.Holds g ρ Γ kb) (hpos : 0 < n) (hn : n ≤ 64) (hla : ka.lanes.length ≤ maskBits)
    {x : RtValue} {l : List Lane}
    (hl : chooseLanes (fun i => i == 0 && decide (lane.asInt ≠ 0)) ka.lanes kb.lanes = .ok l)
    (h : shapeAs ka.ty l = some x) : (selectPlan (maskType n) c o b).Makes (Evaluates g ρ) Γ
      fun Γ d => Evaluates g ρ Γ d ⟨ka.ty, x⟩ := by
  have hword : shapeAs (maskType n) [lane] =
      some (.scalar (.int (packBits [decide (lane.asInt ≠ 0)]))) :=
    (congrArg (fun c => shapeAs (maskType n) [c]) (eq_maskLane_of_normalize hlane)).trans
      (shapeAs_maskLane hpos hn)
  refine selectPlan_evaluates_of_mask (evaluates_throughCast hc rfl (isVector_maskType n) hword)
    ho hb hla ?_ h
  rw [← hl]
  refine chooseLanes_congr fun i _ => ?_
  cases i <;> rfl

/-! ## The rules -/

section

variable (h : g.IntegralStage gen gone func entry args ans ρ op old)
include h

/-- The rule for minima and maxima computes those it replaces. -/
theorem minMaxToElem_computes (hk : g.kind op ∈ [OpKind.minsi, .maxsi]) :
    (minMaxToElem (g.kind op)).ComputesAt g op ρ (g.known ρ old) := by
  refine .ofDecision h.scene.consistent ?_
  have hbinary : g.kind op ∈ integralBinaries := by
    rcases List.mem_pair.mp hk with e | e <;> rw [e] <;> decide
  obtain ⟨lhs, rhs, hops, hl, hr⟩ := h.binary hbinary
  have hlmem : lhs ∈ g.operands op := by simp [hops]
  have hrmem : rhs ∈ g.operands op := by simp [hops]
  have ho : Yielding g ρ (g.known ρ lhs) [] ⟨.value lhs, (g.value lhs).ty⟩ :=
    ⟨h.toStage.holds (h.atHand hlmem), rfl⟩
  have hb : (Source.value rhs).Holds g ρ [] (g.known ρ rhs) := h.toStage.holds (h.atHand hrmem)
  split
  · exact .ok trivial
  refine (YieldsUnless.of_forall fun _ _ => trivial).bind fun full _ => ?_
  split
  · exact .pure trivial
  rw [binaryOperands_eq hops]
  refine YieldsUnless.bind (.ok rfl) fun p hp => ?_
  subst hp
  dsimp only
  rw [h.scene.source_eq (h.atHand hlmem)]
  refine .pure (.of_makes ?_)
  -- The instruction goes by the sign of the lanes, as the operation does.
  rcases List.mem_pair.mp hk with e | e
  · obtain ⟨⟨hla, hlb, hable⟩, hshaped⟩ := h.eval_lanewise
      (f := Lane.minimum (.ofTy (g.value lhs).ty)) hops
      (by rw [e]; rfl)
    have hstep : Evaluates g ρ [] (Instr.minElem ⟨.value lhs, (g.value lhs).ty⟩ (.value rhs))
        (g.known ρ old) := evaluates_lanewise rfl ho hb hl hla hlb
          (by rw [e] at hable; exact hable) hshaped
    rw [if_pos (Or.inl e)]
    exact hstep.ends
  · obtain ⟨⟨hla, hlb, hable⟩, hshaped⟩ := h.eval_lanewise
      (f := Lane.maximum (.ofTy (g.value lhs).ty)) hops
      (by rw [e]; rfl)
    have hstep : Evaluates g ρ [] (Instr.maxElem ⟨.value lhs, (g.value lhs).ty⟩ (.value rhs))
        (g.known ρ old) := evaluates_lanewise rfl ho hb hl hla hlb
          (by rw [e] at hable; exact hable) hshaped
    rw [if_neg (by rw [e]; decide)]
    exact hstep.ends

/-- The rule for comparisons computes those it replaces. -/
theorem cmpToMask_computes (hk : g.kind op = .cmpi) :
    (cmpToMask .cmpi).ComputesAt g op ρ (g.known ρ old) := by
  refine .ofDecision h.scene.consistent ?_
  obtain ⟨s, t, htys, hres, hnofloat⟩ := (hk ▸ h.types).of_cmpi
  obtain ⟨lhs, rhs, hops, rfl, rfl⟩ := operands_pair htys
  have hlmem : lhs ∈ g.operands op := by simp [hops]
  have hrmem : rhs ∈ g.operands op := by simp [hops]
  have ha := h.toStage.holds (Γ := []) (h.atHand hlmem)
  have hb := h.toStage.holds (Γ := []) (h.atHand hrmem)
  rw [h.scene.operandShape? h.inside 0, hops]
  refine YieldsUnless.bind (P := (· = (g.value lhs).ty.vectorShape)) (.ok rfl)
    fun shape? hshape? => ?_
  subst hshape?
  cases hshape : (g.value lhs).ty.vectorShape with
  | none => exact .pure trivial
  | some shape =>
    refine (YieldsUnless.of_forall fun _ => id).bind fun full hfull => ?_
    obtain ⟨-, rfl⟩ := fillsRegister_eq_ok.mp hfull
    split
    · exact .pure trivial
    next hfull =>
    have hn := lanes_le_of_isFullRegister (by simpa using hfull)
    -- The operands are integers, and the result has a bit for each lane.
    have hint : shape.isFloat = false := by
      cases hf : shape.isFloat with
      | false => rfl
      | true =>
        obtain ⟨format, hty, -⟩ := exists_format_of_vectorShape hshape hf
        rw [hty] at hnofloat
        cases hnofloat
    obtain ⟨-, -, -, hsign⟩ := ofTy_eq_of_vectorShape hshape
    obtain ⟨sign, hsign⟩ := hsign hint
    have hty : (g.value old).ty = .vector shape.lanes (.i 1) := by
      rw [(List.cons.inj hres).1, Instr.truthType, hshape]
    unfold choosePredicate
    rw [if_neg (by decide)]
    cases hp : (g.attrs op).intPredicate? with
    | none => exact .pure trivial
    | some p =>
      dsimp only
      rw [binaryOperands_eq hops, firstResultType_eq h.hold]
      refine .pure (.of_makes ?_)
      have heval := h.eval_eq
      rw [hk, knownOperands, hops] at heval
      obtain ⟨⟨hla, hlb, hviews⟩, hshaped⟩ := (eval_cmpi hp).mp heval
      rw [hty] at hla hlb hviews hshaped
      have hlen := (h.fits_operand hlmem).length shape hshape
      have hkind : ElemKind.ofTy (g.known ρ lhs).ty = .int shape.elemBits sign := hsign
      simp only [← IntPredicate.targetHolds_int hkind] at hshaped
      -- Where there is a lane to read, the comparison has read it as well.
      have hread : (g.known ρ lhs).lanes ≠ [] → (ElemKind.ofTy (g.known ρ lhs).ty).views = true :=
        fun hne => hviews fun hnone => hne (List.eq_nil_of_length_eq_zero (hlen.trans hnone))
      have hplan := comparePlan_evaluates ha hb hlen hlb hn hread hshaped
      rw [← hty] at hplan
      exact hplan

/-- The rule for selects computes those it replaces. -/
theorem selectToSel_computes (hk : g.kind op = .select) :
    selectToSel.ComputesAt g op ρ (g.known ρ old) := by
  refine .ofDecision h.scene.consistent ?_
  obtain ⟨n, t, htys, hres, hlanes⟩ := (hk ▸ h.types).of_select
  obtain ⟨cond, onTrue, onFalse, hops, hc, ht, he⟩ := operands_triple htys
  obtain rfl := (List.cons.inj hres).1
  have hcmem : cond ∈ g.operands op := by simp [hops]
  have htmem : onTrue ∈ g.operands op := by simp [hops]
  have hemem : onFalse ∈ g.operands op := by simp [hops]
  -- The three operands stand in their places.
  have hread : ∀ i v, [cond, onTrue, onFalse][i]? = some v → g.operandAt op i = .ok v := by
    intro i v hv
    rw [operandAt, hops, hv]
  rw [resultShape?_eq h.hold]
  split
  · exact .ok trivial
  next shape hshape =>
  refine (YieldsUnless.of_forall fun _ => id).bind fun full hfull => ?_
  obtain ⟨-, rfl⟩ := fillsRegister_eq_ok.mp hfull
  split
  · exact .pure trivial
  next hfull =>
  have hn := lanes_le_of_isFullRegister (by simpa using hfull)
  obtain rfl := hlanes shape hshape
  rw [hread 0 cond rfl, hread 1 onTrue rfl, hread 2 onFalse rfl]
  simp only [bind, Except.bind]
  rw [sourceAfter_eq h.scene (h.atHand htmem)]
  refine .pure (.of_makes ?_)
  -- What the select gives, the plan gives: the condition is packed, and the mask picks.
  have heval := h.eval_eq
  rw [hk, knownOperands, hops] at heval
  obtain ⟨l, hl, hshaped⟩ := eval_select.mp heval
  have ho : Yielding g ρ (g.known ρ onTrue) [] ⟨.value onTrue, (g.value onTrue).ty⟩ :=
    ⟨h.toStage.holds (h.atHand htmem), rfl⟩
  have hplan := selectPlan_evaluates (h.toStage.holds (h.atHand hcmem)) ho
    (h.toStage.holds (h.atHand hemem)) hc
    ((h.fits_operand hcmem).length ⟨shape.lanes, .i 1, 1, false⟩ (by rw [known, hc]; rfl))
    ((h.fits_operand htmem).length shape (by rw [known, ht]; exact hshape)) hn hl
    (by rw [known, ht]; exact hshaped)
  have hknown : g.known ρ old = ⟨(g.known ρ onTrue).ty, (g.known ρ old).value⟩ := by
    rw [show (g.known ρ onTrue).ty = (g.value old).ty from ht]
    rfl
  rw [hknown]
  exact hplan

end

end Rules

end SimdLowering
