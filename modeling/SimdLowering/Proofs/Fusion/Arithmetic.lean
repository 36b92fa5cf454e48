/-
A multiply-add in the accumulator, evaluated.

The plan takes the summand up, adds the product to it, and comes back down. Each of the
three steps computes on integers that its type holds, so what it is bound to is what the
integers say, without wrapping. Only the last step brings anything into range, and it does so
by taking the nearest integer.
-/
import SimdLowering.Proofs.Integral.Steps
import SimdLowering.Proofs.Number.LaneRange
import SimdLowering.Rules.Multiply
import SimdLowering.Rules.MultiplyAdd

set_option autoImplicit false

namespace SimdLowering

open SimdLowering.Frame

variable {n bits width : Nat} {sign sign' : Signedness} {ty t : Ty} {x y z u : Fin n → Int}
  {g : Graph} {ρ : Env} {Γ : List Known} {a b c : Source} {o : Operand Source} {s : Int}

/-! ## Vectors of integers -/

/-- The vector whose lanes are the given integers. -/
def RtValue.ofInts (x : Fin n → Int) : RtValue := .vector (List.ofFn fun i => .int (x i))

theorem RtValue.lanes_ofInts : (RtValue.ofInts x).lanes = List.ofFn fun i => .int (x i) := rfl

theorem RtValue.length_ofInts : (RtValue.ofInts x).lanes.length = n := List.length_ofFn

theorem zipWith_ofFn {α β γ : Type} (f : α → β → γ) (l : Fin n → α) (r : Fin n → β) :
    List.zipWith f (List.ofFn l) (List.ofFn r) = List.ofFn fun i => f (l i) (r i) := by
  refine List.ext_getElem (by simp) fun i _ _ => ?_
  simp

theorem shapeAs_ofInts (hb : 1 < bits) (hsmall : bits < 127) (hx : ∀ i, InLane sign bits (x i)) :
    shapeAs (.vector n (.int bits sign)) (List.ofFn fun i => .int (x i)) =
      some (.ofInts x) := by
  have hw : (ElemKind.ofTy (.vector n (.int bits sign))).wraps = true :=
    ElemKind.wraps_int (by omega) (by omega) sign
  rw [shapeAs_of_isVector rfl (.inr hw), List.map_ofFn]
  refine congrArg (fun f => some (RtValue.vector (List.ofFn f))) (funext fun i => ?_)
  exact congrArg Lane.int ((wrapInt_eq_self_iff_inLane hb (by omega)).mpr (hx i))

/-- Lanes hold the integers that fit a type. -/
theorem RtValue.Fits.inLane (hb : 1 < bits) (hsmall : bits < 128)
    (h : (RtValue.ofInts x).Fits (.vector n (.int bits sign))) : ∀ i, InLane sign bits (x i) := by
  intro i
  have hlane := h.lanes (.int (x i)) (List.mem_ofFn.mpr ⟨i, rfl⟩)
  exact (wrapInt_eq_self_iff_inLane hb hsmall).mp (Lane.int.inj hlane)

/-- What fits a vector of integers holds some, all in range. -/
theorem RtValue.Fits.exists_ofInts {v : RtValue} (hb : 1 < bits) (hsmall : bits < 128)
    (h : v.Fits (.vector n (.int bits sign))) :
    ∃ x : Fin n → Int, v.lanes = (RtValue.ofInts x).lanes ∧ ∀ i, InLane sign bits (x i) := by
  have hlen : v.lanes.length = n := h.length ⟨n, .int bits sign, bits, false⟩ rfl
  refine ⟨fun i => (v.lanes[i]).asInt, ?_, fun i => ?_⟩
  · refine List.ext_getElem (hlen.trans RtValue.length_ofInts.symm) fun i hi _ => ?_
    simp only [RtValue.lanes_ofInts, List.getElem_ofFn]
    exact (Lane.eq_int_of_normalize (h.lanes _ (List.getElem_mem hi))).1
  · have hi : (i : Nat) < v.lanes.length := by omega
    obtain ⟨-, hwrap⟩ := Lane.eq_int_of_normalize (h.lanes _ (List.getElem_mem hi))
    exact (wrapInt_eq_self_iff_inLane hb hsmall).mp hwrap

theorem laneShift_eq_self {s : Nat} (hs : s < bits) (hsmall : bits < 128) :
    laneShift s bits = s := by
  have hlt : (s : Int) < (max 1 (min 127 bits) : Nat) ∨ (bits = 127 + 1) := by omega
  rcases hlt with hlt | h
  · rw [laneShift, Int.emod_eq_of_lt (Int.natCast_nonneg s) hlt, Int.toNat_natCast]
  · omega

/-! ## The steps -/

section

variable {shift : Nat} (hb : 1 < bits) (hsmall : bits < 127) (hsign : sign ≠ .unsigned)
include hb hsmall hsign

/-- Integers moved up by a shift that leaves them in range. -/
theorem evaluates_shiftUp (hs : shift < bits) (ha : a.Holds g ρ Γ ⟨t, .ofInts z⟩)
    (hz : ∀ i, InRange bits (z i * twoPow shift)) :
    Evaluates g ρ Γ (Instr.ups (.vector n (.int bits sign)) a shift)
      ⟨.vector n (.int bits sign), .ofInts fun i => z i * twoPow shift⟩ := by
  have hlanes : ((RtValue.ofInts z).lanes.map fun l =>
      Lane.int (wrap128 (l.asInt * twoPow (laneShift shift bits)))) =
        List.ofFn fun i => .int (z i * twoPow shift) := by
    rw [RtValue.lanes_ofInts, List.map_ofFn]
    refine congrArg List.ofFn (funext fun i => ?_)
    rw [laneShift_eq_self hs (by omega)]
    exact congrArg Lane.int (wrap128_eq_self ((hz i).mono (by omega)))
  refine .of_operands rfl rfl rfl (.cons ha .nil) ?_
  have hkind : ElemKind.ofTy (.vector n (.int bits sign)) = .int bits sign := rfl
  refine (eval_shiftUp hkind).mpr ?_
  exact (congrArg _ hlanes).trans (shapeAs_ofInts hb hsmall fun i => (hz i).inLane hsign)

/-- A product of integers that stays in range. -/
theorem evaluates_product (ha : a.Holds g ρ Γ ⟨t, .ofInts x⟩) (hc : c.Holds g ρ Γ ⟨t, .ofInts y⟩)
    (hxy : ∀ i, InRange bits (x i * y i)) :
    Evaluates g ρ Γ (Instr.mulElem (.vector n (.int bits sign)) a c)
      ⟨.vector n (.int bits sign), .ofInts fun i => x i * y i⟩ := by
  have hlanes : List.zipWith Lane.mul (RtValue.ofInts x).lanes (RtValue.ofInts y).lanes =
      List.ofFn fun i => .int (x i * y i) := by
    rw [RtValue.lanes_ofInts, RtValue.lanes_ofInts, zipWith_ofFn]
    refine congrArg List.ofFn (funext fun i => ?_)
    exact congrArg Lane.int (wrap128_eq_self ((hxy i).mono (by omega)))
  have hcount : laneCount (.vector n (.int bits sign)) = n := rfl
  refine .of_operands rfl rfl rfl (.cons ha (.cons hc .nil)) ?_
  refine (eval_product (Or.inr rfl)).mpr ⟨?_, ?_, ?_⟩
  · exact Nat.le_of_eq RtValue.length_ofInts.symm
  · exact Nat.le_of_eq RtValue.length_ofInts.symm
  · rw [hlanes, List.take_of_length_le (by simp [hcount])]
    exact shapeAs_ofInts hb hsmall fun i => (hxy i).inLane hsign

/-- A product added to integers, where neither the product nor the sum leaves the range. -/
theorem evaluates_fmaElem (ha : a.Holds g ρ Γ ⟨t, .ofInts x⟩) (hc : c.Holds g ρ Γ ⟨t, .ofInts y⟩)
    (ho : Yielding g ρ ⟨.vector n (.int bits sign), .ofInts u⟩ Γ o)
    (hxy : ∀ i, InRange bits (x i * y i)) (hsum : ∀ i, InRange bits (x i * y i + u i)) :
    Evaluates g ρ Γ (Instr.fmaElem a c o false)
      ⟨.vector n (.int bits sign), .ofInts fun i => x i * y i + u i⟩ := by
  -- Neither the product nor the sum leaves the word, so lanes are computed exactly.
  have hlanes : List.zipWith Lane.add (RtValue.ofInts u).lanes
      (List.zipWith Lane.mul (RtValue.ofInts x).lanes (RtValue.ofInts y).lanes) =
        List.ofFn fun i => .int (x i * y i + u i) := by
    rw [RtValue.lanes_ofInts, RtValue.lanes_ofInts, RtValue.lanes_ofInts, zipWith_ofFn,
      zipWith_ofFn]
    refine congrArg List.ofFn (funext fun i => ?_)
    have hproduct := wrap128_eq_self ((hxy i).mono (by omega))
    have hwhole := wrap128_eq_self ((hsum i).mono (by omega))
    change Lane.int (wrap128 (u i + wrap128 (x i * y i))) = _
    rw [hproduct, Int.add_comm, hwhole]
  refine .of_operands (congrArg (fun t => [t]) ho.2) rfl rfl
    (.cons ha (.cons hc (.cons ho.1 .nil))) ?_
  have hlen : (RtValue.ofInts u).lanes.length ≤ (RtValue.ofInts x).lanes.length ∧
      (RtValue.ofInts u).lanes.length ≤ (RtValue.ofInts y).lanes.length := by
    simp only [RtValue.length_ofInts, Nat.le_refl, and_self]
  refine (eval_fmaElem rfl hlen.1 hlen.2).mpr ?_
  exact (congrArg _ hlanes).trans (shapeAs_ofInts hb hsmall fun i => (hsum i).inLane hsign)

omit hsign in
/-- Integers brought down to a type that holds what saturation leaves of them. -/
theorem evaluates_shiftDown (hs : shift < width) (hwidth : width < 127)
    (ha : a.Holds g ρ Γ ⟨.vector n (.int width sign'), .ofInts u⟩)
    (hfits : ∀ i, InRange width (u i))
    (hu : ∀ i, InLane sign bits (saturateInt (shiftRounded (u i) shift) bits sign)) :
    Evaluates g ρ Γ (Instr.srs (.vector n (.int bits sign)) a shift)
      ⟨.vector n (.int bits sign),
        .ofInts fun i => saturateInt (shiftRounded (u i) shift) bits sign⟩ := by
  have hlanes : ((RtValue.ofInts u).lanes.map fun l =>
      Lane.int (saturateInt (shiftRounded l.asInt (laneShift shift width)) bits sign)) =
        List.ofFn fun i => .int (saturateInt (shiftRounded (u i) shift) bits sign) := by
    rw [RtValue.lanes_ofInts, List.map_ofFn, laneShift_eq_self hs (by omega)]
    rfl
  refine .of_operands rfl rfl rfl (.cons ha .nil) ?_
  have hkind : ElemKind.ofTy (.vector n (.int bits sign)) = .int bits sign := rfl
  refine (eval_shiftDown hkind).mpr ⟨fun d hd => ?_, ?_⟩
  · obtain ⟨i, rfl⟩ := List.mem_ofFn.mp hd
    exact roundingFits_of_inRange (hfits i) (by omega) (by
      change laneShift shift width ≤ 127
      rw [laneShift_eq_self hs (by omega)]
      omega)
  · exact (congrArg _ hlanes).trans (shapeAs_ofInts hb hsmall hu)

end

/-! ## The plans -/

/-- A vector type whose lanes multiply-adds of the second generation take. -/
inductive FusedShape : Nat → Nat → Prop
  | narrow : FusedShape 32 16
  | wide : FusedShape 16 32

/-- Vectors of the type have one of those shapes, whatever their lanes are. -/
def Ty.Fuses (ty : Ty) : Prop := ∃ s, ty.vectorShape = some s ∧ FusedShape s.lanes s.elemBits

theorem FusedShape.fuses (h : FusedShape n width) : (Ty.vector n (.int width sign)).Fuses :=
  ⟨_, rfl, h⟩

theorem FusedShape.bounds (h : FusedShape n width) (sign : Signedness) :
    1 < width ∧ width < 64 ∧ accumulatorOf (.vector n (.int width sign)) =
      .vector n (.int (2 * width) .signless) := by
  cases h <;> exact ⟨by decide, by decide, rfl⟩

/-- A plan whose steps evaluate to known values makes a recipe that does. -/
theorem Recipe.EvaluatesBy.of_makes {p : Plan Step} {Δ : List Known} {k : Known}
    (h : p.Makes (SimdLowering.Evaluates g ρ) [] fun Γ d =>
      Γ = Δ ∧ SimdLowering.Evaluates g ρ Γ d k) :
    p.toRecipe.EvaluatesBy g ρ Δ k := by
  obtain ⟨_, ht, rfl, hfinal⟩ := h.toRecipe
  exact ⟨ht, hfinal⟩

section

variable {shift : Nat} (hshape : FusedShape n width) (hsign : sign ≠ .unsigned)
  (hs : shift < width) (hx : ∀ i, InRange width (x i)) (hy : ∀ i, InRange width (y i))
  (ha : ∀ Γ, a.Holds g ρ Γ ⟨.vector n (.int width sign), .ofInts x⟩)
  (hb : ∀ Γ, b.Holds g ρ Γ ⟨.vector n (.int width sign), .ofInts y⟩)
include hshape hsign hs hx hy ha hb

/-- The plan of a multiply-add. Its two steps hold the shifted summand and the whole sum, and
it ends with what comes down. -/
theorem fmaElemPlan_evaluates (hz : ∀ i, InRange width (z i))
    (hc : ∀ Γ, c.Holds g ρ Γ ⟨.vector n (.int width sign), .ofInts z⟩) :
    (Rules.fmaElemPlan (.vector n (.int width sign)) a b ⟨c, .vector n (.int width sign)⟩
      shift).toRecipe.EvaluatesBy g ρ
        [⟨.vector n (.int (2 * width) .signless), .ofInts fun i => z i * twoPow shift⟩,
          ⟨.vector n (.int (2 * width) .signless),
            .ofInts fun i => x i * y i + z i * twoPow shift⟩]
        ⟨.vector n (.int width sign),
          .ofInts fun i => fusedLane width shift (x i) (y i) (z i)⟩ := by
  obtain ⟨hlow, hhigh, hacc⟩ := hshape.bounds sign
  have hless : Signedness.signless ≠ .unsigned := by decide
  have hdouble : 2 * width < 127 := by omega
  -- The saturation does nothing, since the fused lane is in range already.
  have hdown : (fun i => fusedLane width shift (x i) (y i) (z i)) =
      fun i => saturateInt (shiftRounded (x i * y i + z i * twoPow shift) shift) width sign :=
    funext fun i => (saturateInt_fused (by omega) hsign).symm
  refine .of_makes (Plan.Makes.emit_bind
    (y := ⟨.vector n (.int (2 * width) .signless), .ofInts fun i => z i * twoPow shift⟩) ?_
    (Plan.Makes.emit_bind (y := ⟨.vector n (.int (2 * width) .signless),
      .ofInts fun i => x i * y i + z i * twoPow shift⟩) ?_ (.pure ⟨rfl, ?_⟩)))
  -- Up to the accumulator, multiply and add there, and down again.
  · rw [hacc]
    exact evaluates_shiftUp (by omega) hdouble hless (by omega) (hc _) fun i => inRange_shifted hs
      (hz i)
  · refine evaluates_fmaElem (by omega) hdouble hless (ha _) (hb _) ⟨.last, hacc⟩
      (fun i => inRange_product hs (hx i) (hy i)) fun i => (inRange_fused hs (hx i) (hy i) (hz i)).1
  · rw [hdown]
    refine evaluates_shiftDown hlow (by omega) (by omega) hdouble .last
      (fun i => (inRange_fused hs (hx i) (hy i) (hz i)).1) fun i => ?_
    rw [saturateInt_fused (by omega) hsign]
    exact inRange_fusedLane.inLane hsign

/-- The plan of a product. Its step holds the product, and it ends with what comes down. -/
theorem shiftedProduct_evaluates :
    (Rules.shiftedDown (.vector n (.int width sign)) shift
      (Rules.plainProduct a b (.vector n (.int width sign)))).toRecipe.EvaluatesBy g ρ
        [⟨.vector n (.int (2 * width) .signless), .ofInts fun i => x i * y i⟩]
        ⟨.vector n (.int width sign), .ofInts fun i => fusedLane width shift (x i) (y i) 0⟩ := by
  obtain ⟨hlow, hhigh, hacc⟩ := hshape.bounds sign
  have hless : Signedness.signless ≠ .unsigned := by decide
  have hdouble : 2 * width < 127 := by omega
  -- The fused lane without a summand is the rounded product, saturated.
  have hdown : (fun i => fusedLane width shift (x i) (y i) 0) =
      fun i => saturateInt (shiftRounded (x i * y i) shift) width sign :=
    funext fun i => by
      rw [← saturateInt_fused (by omega) hsign, Int.zero_mul, Int.add_zero]
  refine .of_makes (Plan.Makes.emit_bind (y := ⟨.vector n (.int (2 * width) .signless),
    .ofInts fun i => x i * y i⟩) ?_ (.pure ⟨rfl, ?_⟩))
  · rw [hacc]
    exact evaluates_product (by omega) hdouble hless (ha _) (hb _) fun i => inRange_product hs
      (hx i) (hy i)
  · rw [hdown]
    refine evaluates_shiftDown hlow (by omega) (by omega) hdouble .last
      (fun i => inRange_product hs (hx i) (hy i)) fun i => ?_
    exact congrFun hdown i ▸ inRange_fusedLane.inLane hsign

end

end SimdLowering
