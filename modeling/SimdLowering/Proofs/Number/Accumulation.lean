/-
What an accumulator holds while lanes are multiplied and added.

A multiply-add moves the summand up by a shift, adds the product to it, and brings the sum
down by the same shift, rounding to the nearest and a half up. The accumulator has lanes of
twice the width. As long as the shift is below the width, that is enough: with lanes of the
width on all three sides the sum stays one shifted lane below the limit, and the half step
that rounding adds is less than that. So nothing is lost on the way up and in between, and
what comes down is the summand plus the rounded product.
-/
import SimdLowering.Proofs.Eval.Lanes
import Mathlib.Tactic.Linarith

set_option autoImplicit false

namespace SimdLowering

variable {v x y z : Int} {bits width shift n : Nat} {sign : Signedness}

/-! ## Signed ranges -/

/-- A signed lane of the width holds the integer. -/
def InRange (width : Nat) (v : Int) : Prop :=
  -(twoPow (width - 1) : Int) ≤ v ∧ v < twoPow (width - 1)

instance : Decidable (InRange width v) := inferInstanceAs (Decidable (_ ∧ _))

theorem twoPow_pred (hb : 0 < bits) : (twoPow bits : Int) = twoPow (bits - 1) * 2 := by
  obtain ⟨n, rfl⟩ := Nat.exists_eq_succ_of_ne_zero (Nat.ne_of_gt hb)
  exact_mod_cast twoPow_succ n

theorem twoPow_le_twoPow (h : bits ≤ width) : (twoPow bits : Int) ≤ twoPow width := by
  simp only [twoPow_eq]
  exact_mod_cast Nat.pow_le_pow_right (by decide) h

theorem InRange.mono (h : InRange bits v) (hb : bits ≤ width) : InRange width v := by
  have hle := twoPow_le_twoPow (Nat.sub_le_sub_right hb 1)
  obtain ⟨hlow, hhigh⟩ := h
  constructor <;> omega

/-- What fits in 128 bits is not changed by computing in them. -/
theorem wrap128_eq_self (h : InRange 128 v) : wrap128 v = v := by
  have hhalf : (twoPow 128 : Int) = twoPow (128 - 1) * 2 := twoPow_pred (by decide)
  obtain ⟨hlow, hhigh⟩ := h
  refine Int.bmod_eq_of_le ?_ ?_
  · omega
  · omega

/-- Bringing an integer into a signed range changes nothing exactly if it is there. -/
theorem wrapInt_eq_self_iff (hb : 1 < bits) (hsmall : bits < 128) (hsign : sign ≠ .unsigned) :
    wrapInt v bits sign = v ↔ InRange bits v := by
  have hhalf : (twoPow bits : Int) = twoPow (bits - 1) * 2 := twoPow_pred (by omega)
  have hpos := twoPow_cast_pos (bits - 1)
  have hlow := Int.emod_nonneg v (b := twoPow bits) (by omega)
  have hhigh := Int.emod_lt_of_pos v (b := twoPow bits) (by omega)
  have hone : bits ≠ 1 := by omega
  simp only [wrapInt, if_neg (Nat.not_le.mpr hsmall), hsign, hone, false_or, InRange]
  constructor
  · intro h
    split at h <;> constructor <;> omega
  · rintro ⟨hl, hr⟩
    -- Below zero the residue is one turn up.
    by_cases hv : 0 ≤ v
    · have hm : v % twoPow bits = v := Int.emod_eq_of_lt hv (by omega)
      rw [hm, if_pos hr]
    · have hm : v % twoPow bits = v + twoPow bits := by
        rw [← Int.add_emod_right]
        exact Int.emod_eq_of_lt (by omega) (by omega)
      rw [hm, if_neg (by omega)]
      omega

/-- A lane that is moved up fits wherever there is room for its bits and those of the shift. -/
theorem InRange.mul_twoPow (h : InRange width v) (hpos : 0 < width) (hroom : width + n ≤ bits) :
    InRange bits (v * twoPow n) := by
  have hn := twoPow_cast_pos n
  have hexp : width + n - 1 = (width - 1) + n := by omega
  have hsplit : (twoPow (width + n - 1) : Int) = twoPow (width - 1) * twoPow n := by
    rw [hexp]
    simp only [twoPow_eq, Nat.pow_add]
    exact Nat.cast_mul ..
  apply InRange.mono _ hroom
  obtain ⟨hlow, hhigh⟩ := h
  rw [InRange, hsplit]
  constructor <;> nlinarith

/-- Rounding adds at most half of what a lane of the width holds, so there is room for it in
128 bits. -/
theorem roundingFits_of_inRange (h : InRange width v) (hwidth : width ≤ 127)
    (hshift : shift ≤ 127) : roundingFits v shift = true := by
  rw [roundingFits, Bool.or_eq_true]
  by_cases hzero : shift = 0
  · exact .inl (beq_iff_eq.mpr hzero)
  · have hhalf : (twoPow (shift - 1) : Int) ≤ twoPow 126 := twoPow_le_twoPow (by omega)
    have hlane : (twoPow (width - 1) : Int) ≤ twoPow 126 := twoPow_le_twoPow (by omega)
    have hdouble : (twoPow 127 : Int) = twoPow 126 * 2 := by decide
    have hpos := twoPow_cast_pos (shift - 1)
    obtain ⟨hlow, hhigh⟩ := h
    refine .inr (decide_eq_true ?_)
    constructor <;> omega

/-! ## Multiply-adds -/

/-- What rounding to the nearest adds before the low bits are dropped. -/
def halfStep (shift : Nat) : Int := if shift = 0 then 0 else twoPow (shift - 1)

/-- The summand plus the product brought down by the shift, as the nearest integer that a
signed lane of the width holds. -/
def fusedLane (width shift : Nat) (x y z : Int) : Int :=
  max (-(twoPow (width - 1) : Int))
    (min (twoPow (width - 1) - 1) (z + (x * y + halfStep shift) / twoPow shift))

theorem shiftRounded_eq (v : Int) (shift : Nat) :
    shiftRounded v shift = (v + halfStep shift) / twoPow shift := by
  unfold shiftRounded halfStep
  split
  · next h => simp [h, twoPow_zero]
  · rfl

/-- Coming down, the shifted summand is the summand again. -/
theorem shiftRounded_fused :
    shiftRounded (x * y + z * twoPow shift) shift =
      z + (x * y + halfStep shift) / twoPow shift := by
  have hpos := twoPow_cast_pos shift
  calc shiftRounded (x * y + z * twoPow shift) shift
      = (x * y + halfStep shift + z * twoPow shift) / twoPow shift := by
        rw [shiftRounded_eq, Int.add_right_comm]
    _ = (x * y + halfStep shift) / twoPow shift + z :=
        Int.add_mul_ediv_right _ _ (by omega)
    _ = z + (x * y + halfStep shift) / twoPow shift := Int.add_comm ..

theorem saturateInt_fused (hw : width < 127) (hsign : sign ≠ .unsigned) :
    saturateInt (shiftRounded (x * y + z * twoPow shift) shift) width sign =
      fusedLane width shift x y z := by
  rw [shiftRounded_fused, saturateInt, if_neg (Nat.not_le.mpr hw), if_neg hsign, fusedLane]

/-- What has been brought down fits in a lane. -/
theorem inRange_fusedLane : InRange width (fusedLane width shift x y z) := by
  have hpos := twoPow_cast_pos (width - 1)
  unfold InRange fusedLane
  omega

/-- A product of two lanes. -/
theorem mul_bounds {p : Int} (hx : -p ≤ x ∧ x < p) (hy : -p ≤ y ∧ y < p) :
    -(p * p) + p ≤ x * y ∧ x * y ≤ p * p := by
  obtain ⟨hxl, hxr⟩ := hx
  obtain ⟨hyl, hyr⟩ := hy
  constructor
  · rcases Int.le_total 0 y with h | h
    · have : 0 ≤ (p + x) * y := Int.mul_nonneg (by omega) h
      nlinarith
    · have : 0 ≤ (p - 1 - x) * -y := Int.mul_nonneg (by omega) (by omega)
      nlinarith
  · nlinarith

/-- A lane moved up by less than the width. -/
theorem shifted_bounds_of_le {p q : Int} (hz : -p ≤ z ∧ z < p) (hq : 0 < q) (hle : q ≤ p) :
    -(p * p) ≤ z * q ∧ z * q ≤ p * p - p := by
  obtain ⟨hzl, hzr⟩ := hz
  constructor <;> nlinarith

/-- Twice the width is enough for two squares of half the range. -/
theorem twoPow_double (hw : 0 < width) : (twoPow (2 * width - 1) : Int) =
    2 * (twoPow (width - 1) * twoPow (width - 1)) := by
  have : 2 * width - 1 = (width - 1) + (width - 1) + 1 := by omega
  rw [this, twoPow_succ, twoPow_eq, twoPow_eq, Nat.pow_add]
  push_cast
  exact Int.mul_comm ..

section

variable (hs : shift < width)
include hs

theorem twoPow_shift_le : (twoPow shift : Int) ≤ twoPow (width - 1) := twoPow_le_twoPow (by omega)

/-- The summand on its way up fits in an accumulator of twice the width. -/
theorem inRange_shifted (hz : InRange width z) : InRange (2 * width) (z * twoPow shift) :=
  hz.mul_twoPow (by omega) (by omega)

/-- So does the product. -/
theorem inRange_product (hx : InRange width x) (hy : InRange width y) :
    InRange (2 * width) (x * y) := by
  have hpos := twoPow_cast_pos (width - 1)
  have hproduct := mul_bounds hx hy
  have hsquare := Int.mul_pos hpos hpos
  rw [InRange, twoPow_double (Nat.zero_lt_of_lt hs)]
  omega

/-- And so does the sum of the two, before and after rounding adds to it. -/
theorem inRange_fused (hx : InRange width x) (hy : InRange width y) (hz : InRange width z) :
    InRange (2 * width) (x * y + z * twoPow shift) ∧
      InRange (2 * width) (x * y + z * twoPow shift + halfStep shift) := by
  have hpos := twoPow_cast_pos (width - 1)
  have hproduct := mul_bounds hx hy
  have hsummand := shifted_bounds_of_le hz (twoPow_cast_pos shift) (twoPow_shift_le hs)
  have hhalf : 0 ≤ halfStep shift ∧ halfStep shift < twoPow (width - 1) := by
    unfold halfStep
    split
    · exact ⟨Int.le_refl 0, hpos⟩
    · have := twoPow_cast_pos (shift - 1)
      have : (twoPow shift : Int) = twoPow (shift - 1) * 2 := twoPow_pred (by omega)
      have := twoPow_shift_le hs
      constructor <;> omega
  rw [InRange, InRange, twoPow_double (Nat.zero_lt_of_lt hs)]
  omega

end

end SimdLowering
