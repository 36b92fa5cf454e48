/-
A multiply-add of the first generation, evaluated.

The left factor is doubled, because the multiply-add selects its lanes from twice a register;
where it reads them in order, only the first copy matters, and that is the factor itself. The
summand goes up without a shift, the product is added to it in an accumulator that holds both,
and what comes down, again without a shift, is the nearest lane in range.

The accumulator of sixteen-bit lanes has forty-eight bits and that of wider lanes eighty. That is
enough for lanes of up to forty bits, or thirty-nine without a sign.
-/
import SimdLowering.Proofs.Products.Plans

set_option autoImplicit false

namespace SimdLowering

open SimdLowering.Frame

variable {n bits width : Nat} {sign : Signedness} {ty t : Ty} {x y z u : Fin n → Int} {v w : Int}
  {g : Graph} {ρ : Env} {Γ : List Known} {a b c : Source} {ka kb : Known}

/-! ## The accumulator -/

theorem aie_accumulator?_vector : Generation.aie.accumulator? (.vector n (.int width sign)) =
    some (.vector n (.i (aieAccumulatorWidth width))) := rfl

theorem aieAccumulatorWidth_bounds :
    1 < aieAccumulatorWidth width ∧ aieAccumulatorWidth width < 127 := by
  unfold aieAccumulatorWidth
  split <;> omega

/-- It holds a summand. -/
theorem inRange_summand (hhigh : width ≤ widestLane sign) (hz : InLane sign width v) :
    InRange (aieAccumulatorWidth width) v := by
  have := le_of_le_widestLane hhigh
  refine hz.inRange.mono ?_
  unfold aieAccumulatorWidth
  split <;> omega

/-- Without a shift, what comes down is the nearest lane. -/
theorem saturateInt_unshifted (hw : width < 127) :
    saturateInt (shiftRounded v 0) width sign = clampLane sign width v := by
  rw [shiftRounded, if_pos rfl]
  exact saturateInt_eq_clampLane hw

/-! ## The steps -/

section

variable (hlow : 1 < bits) (hsmall : bits < 127)
include hlow hsmall

/-- A register put after itself. -/
theorem evaluates_doubled (ha : a.Holds g ρ Γ ⟨.vector n (.int bits sign), .ofInts x⟩)
    (hx : ∀ i, InLane sign bits (x i)) :
    Evaluates g ρ Γ (Instr.concat (.vector (n * 2) (.int bits sign)) [a, a])
      ⟨.vector (n * 2) (.int bits sign),
        .vector ((RtValue.ofInts x).lanes ++ (RtValue.ofInts x).lanes)⟩ := by
  refine evaluates_concat ha ha (shapeAs_of_normal rfl
    (Or.inr (ElemKind.wraps_vector (by omega) (by omega) sign (n * 2))) fun lane hlane => ?_)
  rcases List.mem_append.mp hlane with hlane | hlane <;>
    exact normalize_of_mem_ofInts hlow (by omega) hx hlane

/-- Integers moved up by no shift. -/
theorem evaluates_raised (hsign : sign ≠ .unsigned) (ha : a.HoldsInts g ρ Γ z)
    (hz : ∀ i, InRange bits (z i)) :
    Evaluates g ρ Γ (Instr.ups (.vector n (.int bits sign)) a 0)
      ⟨.vector n (.int bits sign), .ofInts z⟩ := by
  obtain ⟨k, hk, hlanes⟩ := ha
  refine evaluates_ups hk rfl ?_
  rw [hlanes, RtValue.lanes_ofInts, List.map_ofFn]
  have hsame : ((fun l : Lane => Lane.int (wrap128 l.asInt)) ∘ fun i => Lane.int (z i)) =
      fun i => .int (z i) :=
    funext fun i => congrArg Lane.int (wrap128_eq_self ((hz i).mono (show bits ≤ 128 by omega)))
  rw [hsame]
  exact shapeAs_ofInts hlow hsmall fun i => (hz i).inLane hsign

/-- A product added to integers. Of the left operand no lane matters but the first ones. -/
theorem evaluates_shuffledFma (hsign : sign ≠ .unsigned) (ha : a.Holds g ρ Γ ka)
    (hleft : ka.BeginsWith x) (hb : b.Holds g ρ Γ ⟨t, .ofInts y⟩)
    (hc : c.Holds g ρ Γ ⟨.vector n (.int bits sign), .ofInts z⟩)
    (hxy : ∀ i, InRange bits (x i * y i)) (hsum : ∀ i, InRange bits (x i * y i + z i)) :
    Evaluates g ρ Γ (Instr.fma (.vector n (.int bits sign)) a b c .standard false)
      ⟨.vector n (.int bits sign), .ofInts fun i => x i * y i + z i⟩ := by
  obtain ⟨l, hl⟩ := hleft
  -- The zipping stops with the shorter operands, so the upper half of the left one is not used.
  have hlanes : List.zipWith Lane.add (RtValue.ofInts z).lanes
      (List.zipWith Lane.mul ka.lanes (RtValue.ofInts y).lanes) =
        List.ofFn fun i => .int (x i * y i + z i) := by
    have hproduct : List.zipWith Lane.mul ka.lanes (RtValue.ofInts y).lanes =
        List.zipWith Lane.mul (RtValue.ofInts x).lanes (RtValue.ofInts y).lanes := by
      rw [← hl, ← List.append_nil (RtValue.ofInts y).lanes,
        List.zipWith_append (by simp only [RtValue.length_ofInts]), List.zipWith_nil_right,
        List.append_nil, List.append_nil]
    rw [hproduct, RtValue.lanes_ofInts, RtValue.lanes_ofInts, RtValue.lanes_ofInts, zipWith_ofFn,
      zipWith_ofFn]
    refine congrArg List.ofFn (funext fun i => ?_)
    have hwrap := wrap128_eq_self ((hxy i).mono (show bits ≤ 128 by omega))
    have hwhole := wrap128_eq_self ((hsum i).mono (show bits ≤ 128 by omega))
    change Lane.int (wrap128 (z i + wrap128 (x i * y i))) = _
    rw [hwrap, Int.add_comm, hwhole]
  refine .of_operands rfl rfl rfl (.cons ha (.cons hb (.cons hc .nil))) ?_
  have hlong : (RtValue.ofInts z).lanes.length ≤ ka.lanes.length := by
    rw [← hl, List.length_append, RtValue.length_ofInts, RtValue.length_ofInts]
    exact Nat.le_add_right n _
  have hlen : (RtValue.ofInts z).lanes.length ≤ (RtValue.ofInts y).lanes.length := by
    rw [RtValue.length_ofInts, RtValue.length_ofInts]
  refine (eval_fma rfl).trans ((evalFma_ofKnown .fma rfl hlong hlen).mpr ?_)
  exact (congrArg _ hlanes).trans (shapeAs_ofInts hlow hsmall fun i =>
    (hsum i).inLane hsign)

/-- Integers brought down by no shift. -/
theorem evaluates_lowered (hwidth : 0 < width ∧ width < 127)
    {sign' : Signedness} (ha : a.Holds g ρ Γ ⟨.vector n (.int width sign'), .ofInts u⟩)
    (hfits : ∀ i, InRange width (u i)) :
    Evaluates g ρ Γ (Instr.srs (.vector n (.int bits sign)) a 0)
      ⟨.vector n (.int bits sign), .ofInts fun i => clampLane sign bits (u i)⟩ := by
  have hdown : (fun i => saturateInt (shiftRounded (u i) 0) bits sign) =
      fun i => clampLane sign bits (u i) := funext fun i => saturateInt_unshifted hsmall
  have hrange : ∀ i, InLane sign bits (saturateInt (shiftRounded (u i) 0) bits sign) :=
    fun i => (congrFun hdown i).symm ▸ inLane_clampLane
  have hlanes := evaluates_shiftDown hlow hsmall hwidth.1 hwidth.2 ha hfits hrange
  rwa [hdown] at hlanes

end

end SimdLowering
