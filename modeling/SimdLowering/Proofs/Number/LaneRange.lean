/-
What a lane holds, with a sign or without, and how wide its accumulator has to be.

A sign costs a bit of range, but it saves one in the accumulator. Accumulators are always read
with a sign: twice the width of a lane is just enough for a product of two signed lanes, and the
product of the two greatest unsigned lanes needs one bit more. A summand, on the other hand,
comes for free. Both bounds are sharp, so the width of an accumulator that is chosen by the width
of a lane alone tells for which signs it is safe.
-/
import SimdLowering.Proofs.Number.Accumulation
import Mathlib.Tactic.Ring

set_option autoImplicit false

namespace SimdLowering

variable {v x y z : Int} {bits width : Nat} {sign : Signedness}

/-! ## Lanes -/

/-- The least integer that a lane of the width holds. -/
def leastLane (sign : Signedness) (width : Nat) : Int :=
  if sign = .unsigned then 0 else -(twoPow (width - 1) : Int)

/-- The greatest one. -/
def greatestLane (sign : Signedness) (width : Nat) : Int :=
  if sign = .unsigned then twoPow width - 1 else twoPow (width - 1) - 1

/-- A lane of the width holds the integer. -/
def InLane (sign : Signedness) (width : Nat) (v : Int) : Prop :=
  leastLane sign width ≤ v ∧ v ≤ greatestLane sign width

instance : Decidable (InLane sign width v) := inferInstanceAs (Decidable (_ ∧ _))

/-- The nearest integer that a lane of the width holds. -/
def clampLane (sign : Signedness) (width : Nat) (v : Int) : Int :=
  max (leastLane sign width) (min (greatestLane sign width) v)

theorem inLane_unsigned : InLane .unsigned width v ↔ 0 ≤ v ∧ v < twoPow width := by
  change 0 ≤ v ∧ v ≤ twoPow width - 1 ↔ _
  omega

/-- Whatever is not unsigned has the signed range. -/
theorem inLane_iff (hsign : sign ≠ .unsigned) : InLane sign width v ↔ InRange width v := by
  rw [InLane, leastLane, greatestLane, if_neg hsign, if_neg hsign, InRange]
  omega

theorem InRange.inLane (h : InRange width v) (hsign : sign ≠ .unsigned) : InLane sign width v :=
  (inLane_iff hsign).mpr h

/-- One bit more is enough to read it with a sign. -/
theorem InLane.inRange (h : InLane sign width v) : InRange (width + 1) v := by
  by_cases hsign : sign = .unsigned
  · subst hsign
    have := inLane_unsigned.mp h
    rw [InRange, Nat.add_sub_cancel]
    omega
  · exact ((inLane_iff hsign).mp h).mono (Nat.le_succ width)

theorem leastLane_le_greatestLane : leastLane sign width ≤ greatestLane sign width := by
  have := twoPow_cast_pos (width - 1)
  have := twoPow_cast_pos width
  unfold leastLane greatestLane
  split <;> omega

theorem inLane_clampLane : InLane sign width (clampLane sign width v) := by
  have := @leastLane_le_greatestLane width sign
  unfold InLane clampLane
  omega

/-- Bringing an integer into a range of either kind changes nothing exactly if it is there. -/
theorem wrapInt_eq_self_iff_inLane (hb : 1 < bits) (hsmall : bits < 128) :
    wrapInt v bits sign = v ↔ InLane sign bits v := by
  by_cases hsign : sign = .unsigned
  · subst hsign
    have hpos := twoPow_cast_pos bits
    rw [inLane_unsigned, wrapInt, if_neg (Nat.not_le.mpr hsmall)]
    dsimp only
    rw [if_pos (Or.inl rfl)]
    constructor
    · intro h
      rw [← h]
      exact ⟨Int.emod_nonneg v (by omega), Int.emod_lt_of_pos v hpos⟩
    · rintro ⟨hlow, hhigh⟩
      exact Int.emod_eq_of_lt hlow hhigh
  · exact (wrapInt_eq_self_iff hb hsmall hsign).trans (inLane_iff hsign).symm

/-- Saturating is taking the nearest lane. -/
theorem saturateInt_eq_clampLane (hw : width < 127) :
    saturateInt v width sign = clampLane sign width v := by
  rw [saturateInt, if_neg (Nat.not_le.mpr hw), clampLane, leastLane, greatestLane]
  split <;> rfl

/-- Of an integer that lies less than a turn outside the range, dropping its high bits and taking
the nearest lane leave the same only if it lies inside. -/
theorem wrapInt_eq_clampLane_iff (hb : 1 < bits) (hsmall : bits < 128)
    (hlow : leastLane sign bits - twoPow bits < v)
      (hhigh : v < greatestLane sign bits + twoPow bits) :
    wrapInt v bits sign = clampLane sign bits v ↔ InLane sign bits v := by
  constructor
  · intro h
    have hmod := @wrapInt_emod v bits sign
    rw [h] at hmod
    have hpos := twoPow_cast_pos bits
    -- The nearest lane is a number of turns away, and that is less than one.
    have hturns : (twoPow bits : Int) ∣ v - clampLane sign bits v :=
      Int.dvd_of_emod_eq_zero (Int.emod_eq_emod_iff_emod_sub_eq_zero.mp hmod.symm)
    have hnear : |v - clampLane sign bits v| < twoPow bits := by
      rw [abs_lt, clampLane]
      omega
    have hsame := Int.eq_zero_of_abs_lt_dvd hturns hnear
    rw [show v = clampLane sign bits v by omega]
    exact inLane_clampLane
  · intro h
    rw [(wrapInt_eq_self_iff_inLane hb hsmall).mpr h, clampLane]
    obtain ⟨hlow, hhigh⟩ := h
    omega

/-! ## Products -/

/-- Bits that a signed accumulator needs for a product of two lanes. -/
def productBits (sign : Signedness) (width : Nat) : Nat :=
  if sign = .unsigned then 2 * width + 1 else 2 * width

theorem productBits_unsigned : productBits .unsigned width = 2 * width + 1 := if_pos rfl

theorem productBits_of_ne (hsign : sign ≠ .unsigned) : productBits sign width = 2 * width :=
  if_neg hsign

theorem twoPow_twice (width : Nat) : (twoPow (2 * width) : Int) = twoPow width * twoPow width := by
  rw [twoPow_eq, twoPow_eq, Nat.two_mul, Nat.pow_add]
  exact Nat.cast_mul ..

/-- A product of two lanes fits there, and so does a lane added to it. -/
theorem inRange_productBits (hw : 0 < width) (hx : InLane sign width x) (hy : InLane sign width y)
    (hz : InLane sign width z) : InRange (productBits sign width) (x * y) ∧
      InRange (productBits sign width) (x * y + z) := by
  by_cases hsign : sign = .unsigned
  · subst hsign
    obtain ⟨hxl, hxr⟩ := inLane_unsigned.mp hx
    obtain ⟨hyl, hyr⟩ := inLane_unsigned.mp hy
    obtain ⟨hzl, hzr⟩ := inLane_unsigned.mp hz
    have hlow : 0 ≤ x * y := Int.mul_nonneg hxl hyl
    have hhigh : x * y ≤ (twoPow width - 1) * (twoPow width - 1) :=
      Int.mul_le_mul (by omega) (by omega) hyl (by omega)
    -- Without a sign the largest product is the square of the largest lane, and there is room for a
    -- summand.
    have hsquare : ((twoPow width : Int) - 1) * (twoPow width - 1) =
        twoPow width * twoPow width - 2 * twoPow width + 1 := by ring
    rw [productBits_unsigned, InRange, InRange, Nat.add_sub_cancel, twoPow_twice]
    omega
  · rw [inLane_iff hsign] at hx hy hz
    have hsum := (inRange_fused hw hx hy hz).1
    rw [twoPow_zero, Nat.cast_one, Int.mul_one] at hsum
    rw [productBits_of_ne hsign]
    exact ⟨inRange_product hw hx hy, hsum⟩

/-- It is the outermost lane whose square needs all the bits. -/
theorem productBits_le_of_square (hlow : 1 < width)
    (h : ∀ x y, InLane sign width x → InLane sign width y → InRange bits (x * y)) :
    productBits sign width ≤ bits := by
  have hpos := twoPow_cast_pos (width - 1)
  have hwide : (twoPow width : Int) = twoPow (width - 1) * 2 := twoPow_pred (by omega)
  have hhalf : (2 : Int) ≤ twoPow (width - 1) := by
    have := twoPow_le_twoPow (show 1 ≤ width - 1 by omega)
    exact this
  by_contra hshort
  -- The largest product is attained: by the largest lanes without a sign, by the smallest ones with
  -- it.
  by_cases hsign : sign = .unsigned
  · subst hsign
    rw [productBits_unsigned] at hshort
    have hin : InLane .unsigned width (twoPow width - 1) := inLane_unsigned.mpr (by omega)
    have hhigh := (h _ _ hin hin).2
    have hle := twoPow_le_twoPow (show bits - 1 ≤ 2 * width - 1 by omega)
    rw [twoPow_double (by omega)] at hle
    nlinarith
  · rw [productBits_of_ne hsign] at hshort
    have hin : InRange width (-(twoPow (width - 1) : Int)) := ⟨Int.le_refl _, by omega⟩
    have hhigh := (h _ _ (hin.inLane hsign) (hin.inLane hsign)).2
    have hle := twoPow_le_twoPow (show bits - 1 ≤ 2 * (width - 1) by omega)
    rw [twoPow_twice] at hle
    nlinarith

/-- An accumulator holds all products of lanes exactly if it has that many bits. -/
theorem holds_products_iff (hlow : 1 < width) :
    (∀ x y, InLane sign width x → InLane sign width y → InRange bits (x * y)) ↔
      productBits sign width ≤ bits :=
  ⟨productBits_le_of_square hlow, fun hle _ _ hx hy =>
    (inRange_productBits (by omega) hx hy hx).1.mono hle⟩

/-- Adding a lane asks for no more. -/
theorem holds_sums_iff (hlow : 1 < width) :
    (∀ x y z, InLane sign width x → InLane sign width y → InLane sign width z →
      InRange bits (x * y) ∧ InRange bits (x * y + z)) ↔ productBits sign width ≤ bits := by
  refine ⟨fun h => productBits_le_of_square hlow fun x y hx hy => (h x y x hx hy hx).1,
    fun hle x y z hx hy hz => ?_⟩
  obtain ⟨hproduct, hsum⟩ := inRange_productBits (by omega) hx hy hz
  exact ⟨hproduct.mono hle, hsum.mono hle⟩

/-! ## Accumulators -/

/-- Width of the second generation's accumulator for integer lanes of the width. -/
def accumulatorWidth (width : Nat) : Nat := if width ≤ 16 then 32 else 64

/-- Width of the first generation's accumulator for them. -/
def aieAccumulatorWidth (width : Nat) : Nat := if width ≤ 16 then 48 else 80

/-- Width of the widest lane whose products the first generation's accumulator holds. -/
def widestLane (sign : Signedness) : Nat := if sign = .unsigned then 39 else 40

theorem le_of_le_widestLane (h : width ≤ widestLane sign) : width ≤ 40 := by
  unfold widestLane at h
  split at h <;> omega

/-- The first generation's accumulator holds products and sums of lanes up to that width, and no
others. -/
theorem aie_holds_sums_iff (hlow : 1 < width) :
    (∀ x y z, InLane sign width x → InLane sign width y → InLane sign width z →
      InRange (aieAccumulatorWidth width) (x * y) ∧
        InRange (aieAccumulatorWidth width) (x * y + z)) ↔ width ≤ widestLane sign := by
  rw [holds_sums_iff hlow, productBits, aieAccumulatorWidth, widestLane]
  by_cases hsign : sign = .unsigned <;> by_cases hnarrow : width ≤ 16
  all_goals
    simp only [hsign, hnarrow, if_true, if_false]
    omega

/-- The second generation's accumulator holds those of signed lanes of up to thirty-two bits. Of
the unsigned ones it holds those of lanes of up to fifteen bits and, since wider lanes have the
wide accumulator, of seventeen to thirty-one. -/
theorem aieml_holds_sums_iff (hlow : 1 < width) :
    (∀ x y z, InLane sign width x → InLane sign width y → InLane sign width z →
      InRange (accumulatorWidth width) (x * y) ∧ InRange (accumulatorWidth width) (x * y + z)) ↔
      width ≤ 32 ∧ (sign = .unsigned → width ≠ 16 ∧ width ≠ 32) := by
  rw [holds_sums_iff hlow, productBits, accumulatorWidth]
  by_cases hsign : sign = .unsigned <;> by_cases hnarrow : width ≤ 16
  all_goals
    simp only [hsign, hnarrow, if_true, if_false, true_implies, false_implies, and_true]
    omega

end SimdLowering
