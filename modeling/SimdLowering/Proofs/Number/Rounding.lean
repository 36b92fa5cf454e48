/-
Rounding twice is rounding once.

A float lane is rounded to the precision of its type after every instruction, so whether a
lane changes when it is moved once more hangs on one fact: what a format holds, rounding to
the format leaves alone. Rounding works on the bits of a double, hence the first half of
this file is about bits: a double put together from a sign, an exponent and a fraction has
these bits, and is taken apart into what it was made of. The second half is arithmetic on
whole numbers. What a format holds is `BinaryFormat.Holds`; rounding ends in it, and starts
from it without a change.
-/
import SimdLowering.Number.Dyadic
import SimdLowering.Eval.Lane
import Mathlib.Data.BitVec
import Mathlib.Data.Nat.Log
import Mathlib.Tactic.Linarith

set_option autoImplicit false

namespace SimdLowering

theorem twoPow_eq (n : Nat) : twoPow n = 2 ^ n := rfl

/-! ## The bits of a double -/

section Bits

open Float.Model Float.Model.UnpackedFloat

variable {s : Sign} {m : BitVec 52} {b : BitVec Format.binary64.numBits}

/-- A number is put together again from its parts. -/
theorem packComponents_unpack (b : BitVec Format.binary64.numBits) :
    packComponents Format.binary64 (Sign.ofBitVec (unpackSign b)) (unpackExponent b)
      (unpackMantissa b) = b := by
  have hs : (Sign.ofBitVec (unpackSign b)).toBitVec = unpackSign b := by
    generalize unpackSign b = s
    revert s
    decide
  -- Bit by bit: fraction, exponent and sign.
  unfold packComponents
  rw [hs]
  apply BitVec.eq_of_getLsbD_eq
  intro i hi
  unfold unpackSign unpackExponent unpackMantissa
  simp only [BitVec.getLsbD_append, BitVec.getLsbD_cast, BitVec.getLsbD_extractLsb]
  have hi : i < 64 := hi
  dsimp only [Format.binary64]
  by_cases h₁ : i < 52
  · simp only [h₁, if_true]
    simp
  · by_cases h₂ : i - 52 < 11
    · simp only [h₁, h₂, if_true, if_false]
      rw [show 52 + (i - 52) = i by omega]
      simp
    · simp only [h₁, h₂, if_false]
      rw [show 52 + 11 + (i - 52 - 11) = i by omega]
      simp
      omega

/-- A number with the least exponent has no hidden bit. -/
theorem pack_subnormal {e : Int} (he : e = -1074) (h : 0 < m.toNat) :
    UnpackedFloat.pack Format.binary64 (.finite s m.toNat e h) =
      packComponents Format.binary64 s 0 m := by
  subst he
  have hlog : m.toNat.log2 < 52 := (Nat.log2_lt (Nat.ne_of_gt h)).mpr m.isLt
  unfold UnpackedFloat.pack
  dsimp only
  rw [if_neg (by decide), if_neg]
  · rw [BitVec.ofNat_toNat, BitVec.setWidth_eq]
    rfl
  · change ¬ (m.toNat.log2 + 1 = 53)
    omega

/-- Any other has one. -/
theorem pack_normal {e : BitVec 11} {n : Nat} {x : Int} (he : e.toNat < 2047)
    (hn : n = 2 ^ 52 + m.toNat) (hx : x = e.toNat - 1075) (h : 0 < n) :
    UnpackedFloat.pack Format.binary64 (.finite s n x h) =
      packComponents Format.binary64 s e m := by
  have hm := m.isLt
  have hbiased : (x + Format.binary64.exponentBias +
      Format.binary64.mantissaBitsWithoutImplicit).toNat = e.toNat := by
    change (x + 1023 + 52).toNat = e.toNat
    omega
  -- The leading bit is the hidden one, so the exponent is not changed by packing.
  have hlog : n.log2 = 52 := by
    rw [Nat.log2_eq_iff (by omega)]
    omega
  unfold UnpackedFloat.pack
  dsimp only
  rw [hbiased, hlog, if_neg (by omega), if_pos (by rfl)]
  congr 1
  · rw [BitVec.ofNat_toNat, BitVec.setWidth_eq]
  · apply BitVec.eq_of_toNat_eq
    rw [BitVec.toNat_ofNat]
    omega

/-- Taking a pattern apart and putting it together again changes nothing, unless it stands
for something else than a number. -/
theorem pack_unpack (h : unpackExponent b ≠ -1#_) :
    UnpackedFloat.pack Format.binary64 (UnpackedFloat.unpack Format.binary64 b) = b := by
  conv_rhs => rw [← packComponents_unpack b]
  unfold UnpackedFloat.unpack
  dsimp only
  rw [if_neg h]
  -- The exponent decides between zero, subnormal and normal numbers; the largest one was excluded.
  by_cases he : unpackExponent b = 0#11
  · rw [if_pos he]
    by_cases hm : unpackMantissa b = 0#52
    · rw [dif_pos hm]
      unfold UnpackedFloat.pack packedZero
      rw [he, hm]
      rfl
    · rw [dif_neg hm, he]
      exact pack_subnormal (m := unpackMantissa b) (by rfl) _
  · rw [if_neg he]
    have helt : (unpackExponent b).toNat < 2 ^ 11 := (unpackExponent b).isLt
    have hmax : (unpackExponent b).toNat ≠ 2047 := by
      intro h0
      apply h
      apply BitVec.eq_of_toNat_eq
      rw [h0]
      rfl
    refine pack_normal (e := unpackExponent b) (m := unpackMantissa b) (by omega) ?_ rfl _
    rw [BitVec.toNat_append, ← Nat.shiftLeft_add_eq_or_of_lt (unpackMantissa b).isLt]
    rfl

end Bits

/-- A double keeps the bits it is made of, unless they are those of no number. -/
theorem toBits_ofBits {w : UInt64} (h : w.toNat / 2 ^ 52 % 2 ^ 11 ≠ 2047) :
    (Float.ofBits w).toBits = w := by
  change UInt64.ofBitVec (Float.Model.UnpackedFloat.pack Float.Model.Format.binary64
    (Float.Model.UnpackedFloat.unpack Float.Model.Format.binary64 w.toBitVec)) = w
  rw [pack_unpack]
  intro he
  apply h
  have := congrArg BitVec.toNat he
  rw [Float.Model.UnpackedFloat.unpackExponent, BitVec.toNat_cast, BitVec.extractLsb_toNat,
    Nat.shiftRight_eq_div_pow] at this
  exact this

/-! ## Taking apart what was put together -/

namespace FloatParts

variable {negative : Bool} {m m' : Nat} {e e' : Int}

/-- A double whose exponent is one of a number is taken apart into sign, exponent and
fraction. -/
theorem ofFloat_ofBits {E F : Nat} (hE : E < 2047) (hF : F < 2 ^ 52) :
    ofFloat (Float.ofBits (UInt64.ofNat (signBits negative + E * twoPow 52 + F))) =
      if E = 0 then .finite negative F (-1074)
      else .finite negative (twoPow 52 + F) ((E : Int) - 1075) := by
  -- The three fields are read off by dividing and taking remainders.
  have hsign : signBits negative = if negative then 2 ^ 63 else 0 := rfl
  have hnat : (UInt64.ofNat (signBits negative + E * twoPow 52 + F)).toNat =
      signBits negative + E * 2 ^ 52 + F := by
    rw [UInt64.toNat_ofNat', twoPow_eq, Nat.mod_eq_of_lt]
    rw [hsign]
    split <;> omega
  have hexp : (signBits negative + E * 2 ^ 52 + F) / 2 ^ 52 % 2 ^ 11 = E := by
    rw [hsign]
    split <;> omega
  have hfrac : (signBits negative + E * 2 ^ 52 + F) % 2 ^ 52 = F := by
    rw [hsign]
    split <;> omega
  have hneg : 2 ^ 63 ≤ signBits negative + E * 2 ^ 52 + F ↔ negative = true := by
    rw [hsign]
    cases negative
    · simp
      omega
    · simp
      omega
  rw [ofFloat, toBits_ofBits (by rw [hnat, hexp]; omega), hnat]
  simp only [twoPow_eq, hexp, hfrac, hneg, Bool.decide_eq_true]
  rw [if_neg (by omega)]

/-- The triple has a leading digit within reach of a double, above the subnormal range. -/
structure Reachable (m : Nat) (e : Int) : Prop where
  pos : m ≠ 0
  digits : m.log2 ≤ 52
  low : -1022 ≤ e + m.log2
  high : e + m.log2 ≤ 1023

/-- Digits can be moved up until the first is in its place. -/
theorem shifted_bounds (hm : m ≠ 0) (h : m.log2 ≤ 52) :
    2 ^ 52 ≤ m * 2 ^ (52 - m.log2) ∧ m * 2 ^ (52 - m.log2) < 2 ^ 53 := by
  have hlow := Nat.log2_self_le hm
  have hhigh := Nat.lt_log2_self (n := m)
  have hpow : 2 ^ m.log2 * 2 ^ (52 - m.log2) = 2 ^ 52 := by
    rw [← Nat.pow_add, Nat.add_sub_cancel' h]
  constructor
  · rw [← hpow]
    exact Nat.mul_le_mul_right _ hlow
  · have : 2 ^ (m.log2 + 1) * 2 ^ (52 - m.log2) = 2 ^ 53 := by
      rw [Nat.pow_succ, Nat.mul_right_comm, hpow, ← Nat.pow_succ]
    rw [← this]
    exact Nat.mul_lt_mul_of_pos_right hhigh (by positivity)

/-- A number that can be reached comes back with its digits moved up. -/
theorem ofFloat_toFloat (h : Reachable m e) : ofFloat (toFloat (.finite negative m e)) =
    .finite negative (m * 2 ^ (52 - m.log2)) (e + m.log2 - 52) := by
  obtain ⟨hlow, hhigh⟩ := shifted_bounds h.pos h.digits
  have h₁ := h.low
  have h₂ := h.high
  simp only [toFloat, if_neg h.pos]
  rw [ofFloat_ofBits (by omega) (by rw [twoPow_eq, twoPow_eq]; omega), if_neg (by omega)]
  simp only [twoPow_eq, finite.injEq, true_and]
  omega

/-- A double only depends on where the leading digit is, and on the digits. -/
theorem toFloat_congr (hm : m ≠ 0) (hm' : m' ≠ 0) (he : e + m.log2 = e' + m'.log2)
    (hdigits : m * 2 ^ (52 - m.log2) = m' * 2 ^ (52 - m'.log2)) :
    toFloat (.finite negative m e) = toFloat (.finite negative m' e') := by
  rw [toFloat, toFloat, if_neg hm, if_neg hm', he]
  simp only [twoPow_eq, hdigits]

end FloatParts

/-! ## What a format holds -/

/-- Multiples need no rounding. -/
theorem roundShift_mul (q k : Nat) : roundShift (q * 2 ^ k) k = q := by
  unfold roundShift
  have hpos : 0 < 2 ^ k := by positivity
  rw [twoPow_eq, Nat.mul_div_cancel _ hpos, Nat.mul_mod_left]
  rw [if_neg]
  omega

/-- Rounding may carry, but not further than one digit. -/
theorem roundShift_le {m k d : Nat} (h : m < 2 ^ (d + k)) : roundShift m k ≤ 2 ^ d := by
  have hq : m / 2 ^ k < 2 ^ d := by
    rw [Nat.div_lt_iff_lt_mul (by positivity), ← Nat.pow_add]
    exact h
  simp only [roundShift]
  split_ifs
  · exact hq
  · exact Nat.le_of_lt hq

namespace BinaryFormat

variable {f f' : BinaryFormat} {x y : Float} {negative : Bool} {m : Nat} {e : Int}

/-- Doubles have room for what the format holds. -/
structure Narrow (f : BinaryFormat) : Prop where
  digits : 1 ≤ f.digits ∧ f.digits ≤ 51
  finest : -1022 ≤ f.finest
  limit : f.limit ≤ 1024

/-- The triple needs no more digits than the format keeps, no finer steps than it has, and
ends where it ends. -/
structure Fits (f : BinaryFormat) (m : Nat) (e : Int) : Prop where
  pos : m ≠ 0
  digits : m ≤ 2 ^ f.digits
  finest : f.finest ≤ e
  limit : e + m.log2 < f.limit

/-- The doubles that the format holds. -/
inductive Holds (f : BinaryFormat) : Float → Prop
  | nan : Holds f FloatParts.nan.toFloat
  | infinite (negative : Bool) : Holds f (FloatParts.infinite negative).toFloat
  | zero (negative : Bool) (e : Int) : Holds f (FloatParts.finite negative 0 e).toFloat
  | number (negative : Bool) {m : Nat} {e : Int} : f.Fits m e →
      Holds f (FloatParts.finite negative m e).toFloat

/-- A finer and wider format holds as much. -/
theorem Holds.mono (hd : f.digits ≤ f'.digits) (hf : f'.finest ≤ f.finest)
    (hl : f.limit ≤ f'.limit) (h : f.Holds x) : f'.Holds x := by
  cases h with
  | nan => exact .nan
  | infinite negative => exact .infinite negative
  | zero negative e => exact .zero negative e
  | number negative h =>
    refine .number negative ⟨h.pos, h.digits.trans (Nat.pow_le_pow_right (by omega) hd),
      hf.trans h.finest, Int.lt_of_lt_of_le h.limit hl⟩

/-- Rounding ends with something that the format holds. -/
theorem Holds.round (f : BinaryFormat) (x : Float) : f.Holds (f.round x) := by
  unfold BinaryFormat.round
  cases FloatParts.ofFloat x with
  | nan => exact .nan
  | infinite negative => exact .infinite negative
  | finite negative m e =>
    simp only [roundFinite]
    generalize hlast : max e (max f.finest (e + m.log2 + 1 - f.digits)) = last
    split
    · exact .infinite negative
    · next hlimit =>
      by_cases hzero : roundShift m (last - e).toNat = 0
      · rw [hzero]
        exact .zero negative last
      · refine .number negative ⟨hzero, roundShift_le ?_, by omega, ?_⟩
        · refine Nat.lt_of_lt_of_le Nat.lt_log2_self (Nat.pow_le_pow_right (by omega) ?_)
          omega
        · by_contra hge
          exact hlimit ⟨hzero, by omega⟩

/-- What fits has no more digits than the format. -/
theorem log2_le_of_fits (h : f.Fits m e) : m.log2 ≤ f.digits := by
  by_contra hgt
  have h₁ := Nat.log2_self_le h.pos
  have h₂ : 2 ^ (f.digits + 1) ≤ 2 ^ m.log2 := Nat.pow_le_pow_right (by omega) (by omega)
  have h₃ := h.digits
  rw [Nat.pow_succ] at h₂
  have h₄ : 0 < 2 ^ f.digits := by positivity
  omega

/-- Where a triple fits, no digits are lost by rounding its normalised form. -/
theorem roundFinite_of_fits (hf : f.Narrow) (h : f.Fits m e) :
    (f.roundFinite negative (m * 2 ^ (52 - m.log2)) (e + m.log2 - 52)).toFloat =
      (FloatParts.finite negative m e).toFloat := by
  have hL := log2_le_of_fits h
  obtain ⟨hd₁, hd₂⟩ := hf.digits
  have hfinest := h.finest
  have hlimit := h.limit
  obtain ⟨hlow, hhigh⟩ := FloatParts.shifted_bounds h.pos (by omega)
  have hlog : (m * 2 ^ (52 - m.log2)).log2 = 52 := by
    rw [Nat.log2_eq_iff (by omega)]
    exact ⟨hlow, hhigh⟩
  simp only [roundFinite, hlog]
  generalize hlast : max (e + m.log2 - 52) (max f.finest
    (e + m.log2 - 52 + (52 : Nat) + 1 - f.digits)) = last
  generalize hk : (last - (e + m.log2 - 52)).toNat = k
  -- The last step kept is a multiple of the finest one that the triple needs.
  obtain ⟨q, hq⟩ : ∃ q, m * 2 ^ (52 - m.log2) = q * 2 ^ k := by
    by_cases hle : last ≤ e
    · refine ⟨m * 2 ^ (52 - m.log2 - k), ?_⟩
      rw [Nat.mul_assoc, ← Nat.pow_add]
      congr 2
      omega
    · have hfull : m = 2 ^ f.digits := by
        refine Nat.le_antisymm h.digits (Nat.le_trans ?_ (Nat.log2_self_le h.pos))
        exact Nat.pow_le_pow_right (by omega) (by omega)
      have hlogm : m.log2 = f.digits := by
        rw [hfull, Nat.log2_two_pow]
      refine ⟨2 ^ (52 - k), ?_⟩
      rw [hlogm, hfull, ← Nat.pow_add, ← Nat.pow_add]
      congr 1
      omega
  have hqpos : q ≠ 0 := by
    rintro rfl
    omega
  have hlogq : q.log2 + k = 52 := by
    rw [← hlog, hq]
    symm
    rw [Nat.log2_eq_iff (by positivity), Nat.add_right_comm, Nat.pow_add, Nat.pow_add _ _ k]
    exact ⟨Nat.mul_le_mul_right _ (Nat.log2_self_le hqpos),
      Nat.mul_lt_mul_of_pos_right Nat.lt_log2_self (by positivity)⟩
  have hround : roundShift (m * 2 ^ (52 - m.log2)) k = q := by
    rw [hq]
    exact roundShift_mul q k
  simp only [hround]
  rw [if_neg (by omega)]
  refine FloatParts.toFloat_congr hqpos h.pos (by omega) ?_
  rw [hq]
  congr 2
  omega

/-- What the format holds, rounding leaves alone. -/
theorem round_of_holds (hf : f.Narrow) (h : f.Holds x) : f.round x = x := by
  cases h with
  | nan =>
    have : FloatParts.ofFloat FloatParts.nan.toFloat = .nan := by decide
    rw [round, this]
  | infinite negative =>
    have : FloatParts.ofFloat (FloatParts.infinite negative).toFloat = .infinite negative := by
      cases negative <;> decide
    rw [round, this]
  -- A zero is kept, whatever its exponent is.
  | zero negative e =>
    have hz : (FloatParts.finite negative 0 e).toFloat =
        Float.ofBits (UInt64.ofNat (FloatParts.signBits negative + 0 * twoPow 52 + 0)) := by
      simp [FloatParts.toFloat]
    rw [round, hz, FloatParts.ofFloat_ofBits (by omega) (by positivity), if_pos rfl]
    simp only [roundFinite]
    have hzero : ∀ k, roundShift 0 k = 0 := fun k => by
      have := roundShift_mul 0 k
      rwa [Nat.zero_mul] at this
    rw [hzero, if_neg (by omega), ← hz]
    simp [FloatParts.toFloat]
  | @number negative m e h =>
    have hlimit := h.limit
    have hfinest := h.finest
    have h₁ := hf.finest
    have h₂ := hf.limit
    have hL := log2_le_of_fits h
    have hd := hf.digits.2
    rw [round, FloatParts.ofFloat_toFloat ⟨h.pos, by omega, by omega, by omega⟩]
    exact roundFinite_of_fits hf h

theorem Narrow.single : BinaryFormat.single.Narrow := ⟨by decide, by decide, by decide⟩

theorem Narrow.brain : BinaryFormat.brain.Narrow := ⟨by decide, by decide, by decide⟩

end BinaryFormat

/-- A float that has been rounded to the precision of its lanes is not changed by rounding
it again. -/
theorem roundFloat_roundFloat (x : Float) (format : FloatFormat) :
    roundFloat (roundFloat x format) format = roundFloat x format := by
  have hsingle : BinaryFormat.single.round (BinaryFormat.single.round x) =
      BinaryFormat.single.round x := BinaryFormat.round_of_holds .single (.round _ x)
  cases format with
  | f16 => exact hsingle
  | f32 => exact hsingle
  | bf16 =>
    have h : BinaryFormat.brain.Holds _ := .round .brain (BinaryFormat.single.round x)
    change BinaryFormat.brain.round (BinaryFormat.single.round (BinaryFormat.brain.round _)) = _
    have hwide : BinaryFormat.single.Holds _ := h.mono (by decide) (by decide) (by decide)
    rw [BinaryFormat.round_of_holds .single hwide]
    exact BinaryFormat.round_of_holds .brain h

/-- What a sixteen-bit lane holds, single precision holds too. -/
theorem roundFloat_single (x : Float) {format : FloatFormat} (h : format.width = 16) :
    roundFloat (roundFloat x format) .f32 = roundFloat x format := by
  cases format with
  | f16 => exact roundFloat_roundFloat x .f16
  | bf16 =>
    have h : BinaryFormat.brain.Holds _ := .round .brain (BinaryFormat.single.round x)
    exact BinaryFormat.round_of_holds .single (h.mono (by decide) (by decide) (by decide))
  | f32 => cases h

/-- Rounding to sixteen bits goes by single precision anyway. -/
theorem roundFloat_of_single (x : Float) {format : FloatFormat} (h : format.width = 16) :
    roundFloat (roundFloat x .f32) format = roundFloat x format := by
  have hsingle : BinaryFormat.single.round (BinaryFormat.single.round x) =
      BinaryFormat.single.round x := BinaryFormat.round_of_holds .single (.round _ x)
  cases format with
  | f16 => exact hsingle
  | bf16 => exact congrArg BinaryFormat.brain.round hsingle
  | f32 => cases h

end SimdLowering
