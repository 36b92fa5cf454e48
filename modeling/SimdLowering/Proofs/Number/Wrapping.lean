/-
Wrapping early and wrapping late.

To bring an integer into the range of a width is to drop its high bits. On words this is a mask,
and a turn down where the highest bit that is left is a sign. On integers it is the one integer in
range with the same residue modulo two to the width. Sums, differences and products go by residues,
and computing them in 128 bits does not disturb that, since two to the width divides two to 128.
So operands need not be brought into range before an operation, and a fold has to be brought into
range only once, at its end.

A single bit has no room for a sign and is read without one. Apart from that the range is the one
that the sign of the lane says.
-/
import SimdLowering.Proofs.Number.LaneRange
import Mathlib.Data.Int.ModEq

set_option autoImplicit false

namespace SimdLowering

variable {v w : Int} {bits : Nat} {sign : Signedness} {kind : ElemKind} {a b : Lane}
  {l l' : List Lane} {op : Lane → Lane → Lane} {x y : BitVec 128}

/-! ## The range of a lane -/

/-- How a lane of the width is read: a single bit has no sign. -/
def readSign (sign : Signedness) (bits : Nat) : Signedness := if bits = 1 then .unsigned else sign

/-- Bringing an integer into range changes nothing exactly if it is there. -/
theorem wrapInt_eq_self_iff_inLane_readSign (hpos : 0 < bits) (hsmall : bits < 128) :
    wrapInt v bits sign = v ↔ InLane (readSign sign bits) bits v := by
  by_cases hone : bits = 1
  · subst hone
    have hbit : wrapInt v 1 sign = v % 2 := by
      simp only [wrapInt, true_or, or_true, if_true]
      rfl
    have htwo : (twoPow 1 : Int) = 2 := rfl
    rw [hbit, readSign, if_pos rfl, inLane_unsigned, htwo]
    omega
  · rw [readSign, if_neg hone]
    exact wrapInt_eq_self_iff_inLane (by omega) hsmall

/-- What an integer is brought to is the integer in range that has its residue. -/
theorem wrapInt_eq_iff (hpos : 0 < bits) (hsmall : bits < 128) :
    wrapInt v bits sign = w ↔ InLane (readSign sign bits) bits w ∧ w ≡ v [ZMOD twoPow bits] := by
  constructor
  · rintro rfl
    exact ⟨(wrapInt_eq_self_iff_inLane_readSign hpos hsmall).mp wrapInt_wrapInt, wrapInt_emod⟩
  · rintro ⟨hrange, hmod⟩
    calc wrapInt v bits sign = wrapInt w bits sign := wrapInt_congr hsmall hmod.symm
      _ = w := (wrapInt_eq_self_iff_inLane_readSign hpos hsmall).mpr hrange

/-! ## Words -/

/-- Drop the high bits of a word by a mask. If the highest bit that is left is a sign and is set,
turn the word down by two to the width. -/
def maskedWord (x : BitVec 128) (bits : Nat) (sign : Signedness) : BitVec 128 :=
  let m := x &&& (1#128 <<< bits - 1#128)
  if sign = .unsigned ∨ bits = 1 ∨ (m >>> (bits - 1)) &&& 1#128 = 0#128 then m
  else m - 1#128 <<< bits

theorem toNat_one_shiftLeft (hsmall : bits < 128) : (1#128 <<< bits).toNat = twoPow bits := by
  have hlt : 2 ^ bits < 2 ^ 128 := Nat.pow_lt_pow_right (by decide) hsmall
  rw [BitVec.toNat_shiftLeft, Nat.shiftLeft_eq]
  simp only [BitVec.toNat_ofNat, Nat.one_mod_two_pow_eq_one.mpr (by decide : 0 < 128), Nat.one_mul]
  exact Nat.mod_eq_of_lt hlt

/-- The mask keeps the residue. -/
theorem toNat_and_mask (hsmall : bits < 128) :
    (x &&& (1#128 <<< bits - 1#128)).toNat = x.toNat % twoPow bits := by
  have hpos := twoPow_pos bits
  have hlt : twoPow bits < 2 ^ 128 := Nat.pow_lt_pow_right (by decide) hsmall
  have hmask : (1#128 <<< bits - 1#128).toNat = twoPow bits - 1 := by
    rw [BitVec.toNat_sub, toNat_one_shiftLeft hsmall]
    have hone : (1#128).toNat = 1 := rfl
    omega
  rw [BitVec.toNat_and, hmask, twoPow_eq, Nat.and_two_pow_sub_one_eq_mod]

/-- The test looks at the bit that is worth half of two to the width. -/
theorem highBit_eq_zero_iff {m : BitVec 128} (hpos : 0 < bits) (hm : m.toNat < twoPow bits) :
    (m >>> (bits - 1)) &&& 1#128 = 0#128 ↔ m.toNat < twoPow (bits - 1) := by
  have hhalf : twoPow bits = twoPow (bits - 1) * 2 := by
    rw [← twoPow_succ, Nat.sub_add_cancel hpos]
  have hbit : ((m >>> (bits - 1)) &&& 1#128).toNat = m.toNat / twoPow (bits - 1) % 2 := by
    rw [BitVec.toNat_and, BitVec.toNat_ushiftRight, Nat.shiftRight_eq_div_pow, twoPow_eq]
    exact Nat.and_one_is_mod _
  have hquot : m.toNat / twoPow (bits - 1) < 2 := by
    apply Nat.div_lt_of_lt_mul
    omega
  rw [← BitVec.toNat_inj, hbit]
  change _ = 0 ↔ _
  rw [Nat.mod_eq_of_lt hquot, Nat.div_eq_zero_iff]
  have := twoPow_pos (bits - 1)
  omega

/-- A word and the integer that it is read as have the same residue. -/
theorem toInt_emod_twoPow (hsmall : bits ≤ 128) :
    x.toInt % twoPow bits = (x.toNat % twoPow bits : Nat) := by
  rw [BitVec.toInt_eq_toNat_bmod]
  exact wrap128_emod hsmall

/-- The mask and the test bring the integer that the word is read as into range. -/
theorem toInt_maskedWord (hpos : 0 < bits) (hsmall : bits < 127) :
    (maskedWord x bits sign).toInt = wrapInt x.toInt bits sign := by
  have hlt : twoPow bits * 2 < 2 ^ 128 := by
    rw [← twoPow_succ]
    exact Nat.pow_lt_pow_right (by decide) (by omega)
  -- The mask keeps the low bits; the test of the high one decides what is subtracted.
  have hmask : (x &&& (1#128 <<< bits - 1#128)).toNat = x.toNat % twoPow bits :=
    toNat_and_mask (by omega)
  have hm : x.toNat % twoPow bits < twoPow bits := Nat.mod_lt _ (twoPow_pos bits)
  have hlow : (x &&& (1#128 <<< bits - 1#128)).toInt = (x.toNat % twoPow bits : Nat) := by
    rw [BitVec.toInt_eq_toNat_of_lt (by omega), hmask]
  simp only [maskedWord, wrapInt, if_neg (show ¬ 128 ≤ bits by omega),
    toInt_emod_twoPow (Nat.le_of_lt (show bits < 128 by omega)), Nat.cast_lt,
    highBit_eq_zero_iff hpos (hmask ▸ hm), hmask]
  split
  · exact hlow
  · have hspan : (1#128 <<< bits).toInt = twoPow bits := by
      rw [BitVec.toInt_eq_toNat_of_lt] <;> rw [toNat_one_shiftLeft (by omega)]
      omega
    rw [BitVec.toInt_sub, hlow, hspan]
    apply Int.bmod_eq_of_le <;> omega

/-! ## Operations that go by residues -/

/-- The operation does not tell lanes with the same residue apart. -/
def GoesByResidue (bits : Nat) (op : Lane → Lane → Lane) : Prop :=
  ∀ {a a' b b' : Lane}, a.Congruent bits a' → b.Congruent bits b' →
    (op a b).Congruent bits (op a' b')

/-- Sums, differences and products do not, although they are computed in 128 bits. -/
theorem goesByResidue (hsmall : bits ≤ 128) (hop : op = Lane.add ∨ op = Lane.sub ∨ op = Lane.mul) :
    GoesByResidue bits op := by
  intro a a' b b' ha hb
  rcases hop with rfl | rfl | rfl
  · exact ha.add hsmall hb
  · exact ha.sub hsmall hb
  · exact ha.mul hsmall hb

/-- The operation, with its result brought into range. -/
def Lane.wrapping (kind : ElemKind) (op : Lane → Lane → Lane) (a b : Lane) : Lane :=
  (op a b).normalize kind

theorem Lane.Congruent.int (h : v ≡ w [ZMOD twoPow bits]) :
    Congruent bits (.int v) (.int w) := ⟨v, w, rfl, rfl, h⟩

/-- Bringing a lane into range does not change its residue. -/
theorem Lane.Congruent.normalize_left (h : Congruent bits a b) :
    Congruent bits (a.normalize (.int bits sign)) b := by
  obtain ⟨v, w, rfl, rfl, hvw⟩ := h
  exact (congruent_normalize v bits sign).trans (.int hvw)

/-- So it may be done before the operation or not. -/
theorem GoesByResidue.normalize_operands (h : GoesByResidue bits op) (hsmall : bits < 128)
    (v w : Int) :
    Lane.wrapping (.int bits sign) op ((Lane.int v).normalize (.int bits sign))
        ((Lane.int w).normalize (.int bits sign)) =
      Lane.wrapping (.int bits sign) op (.int v) (.int w) := by
  apply Lane.Congruent.normalize hsmall
  apply h
  · exact Lane.congruent_normalize v bits sign
  · exact Lane.congruent_normalize w bits sign

/-- Folding with and without bringing each step into range leads to the same residue. -/
theorem GoesByResidue.foldl (h : GoesByResidue bits op) (hab : a.Congruent bits b)
    (hl : List.Forall₂ (Lane.Congruent bits) l l') :
    (l.foldl (Lane.wrapping (.int bits sign) op) a).Congruent bits (l'.foldl op b) := by
  -- What the two folds have come to has the same residue after each step.
  induction hl generalizing a b with
  | nil => exact hab
  | cons hcd _ ih =>
    rw [List.foldl_cons, List.foldl_cons]
    apply ih
    exact (h hab hcd).normalize_left

/-- A fold that brings each step into range ends in range, if it starts there or takes a step. -/
theorem normalize_foldl_wrapping (h : a.normalize kind = a ∨ l ≠ []) :
    (l.foldl (Lane.wrapping kind op) a).normalize kind = l.foldl (Lane.wrapping kind op) a := by
  induction l generalizing a with
  | nil => exact h.resolve_right fun hne => hne rfl
  | cons c l ih =>
    rw [List.foldl_cons]
    apply ih
    exact Or.inl (Lane.normalize_normalize kind _)

/-- It comes to what the fold without that is brought to. -/
theorem GoesByResidue.foldl_wrapping (h : GoesByResidue bits op) (hsmall : bits < 128)
    (hab : a.Congruent bits b) (hl : List.Forall₂ (Lane.Congruent bits) l l')
    (hstart : a.normalize (.int bits sign) = a ∨ l ≠ []) :
    l.foldl (Lane.wrapping (.int bits sign) op) a =
      (l'.foldl op b).normalize (.int bits sign) := by
  rw [← normalize_foldl_wrapping hstart]
  exact (h.foldl hab hl).normalize hsmall

/-- Integer lanes have their own residues. -/
theorem forall₂_congruent_int (bits : Nat) (l : List Int) :
    List.Forall₂ (Lane.Congruent bits) (l.map Lane.int) (l.map Lane.int) := by
  apply List.forall₂_same.mpr
  intro c hc
  obtain ⟨v, -, rfl⟩ := List.mem_map.mp hc
  exact .int rfl

/-- Take any width from 1 to 126 and any sign. On words of 128 bits, dropping the high bits by a
mask, with a turn down where a sign is left, brings an integer into range; and that is the one
integer of the range that has the same residue modulo two to the width, where a single bit is read
without a sign. Sums, differences and products of lanes are those of words of 128 bits. For each of
the three, bringing the operands into range before does not change what the result is brought to.
So a fold that brings the result of each step into range, from a start in range or over at least
one lane, comes to the same as a fold that does so only at its end. -/
theorem wrapping_may_be_deferred (hpos : 1 ≤ bits) (hsmall : bits ≤ 126) (sign : Signedness) :
    (∀ x : BitVec 128, (maskedWord x bits sign).toInt = wrapInt x.toInt bits sign) ∧
    (∀ v w : Int, wrapInt v bits sign = w ↔
      InLane (readSign sign bits) bits w ∧ w ≡ v [ZMOD twoPow bits]) ∧
    (∀ x y : BitVec 128, (Lane.int x.toInt).add (.int y.toInt) = .int (x + y).toInt ∧
      (Lane.int x.toInt).sub (.int y.toInt) = .int (x - y).toInt ∧
      (Lane.int x.toInt).mul (.int y.toInt) = .int (x * y).toInt) ∧
    ∀ op : Lane → Lane → Lane, op = Lane.add ∨ op = Lane.sub ∨ op = Lane.mul →
      (∀ v w : Int,
        Lane.wrapping (.int bits sign) op ((Lane.int v).normalize (.int bits sign))
            ((Lane.int w).normalize (.int bits sign)) =
          (op (.int v) (.int w)).normalize (.int bits sign)) ∧
      ∀ (start : Int) (l : List Int),
        (l.map Lane.int).foldl (Lane.wrapping (.int bits sign) op)
            ((Lane.int start).normalize (.int bits sign)) =
          ((l.map Lane.int).foldl op (.int start)).normalize (.int bits sign) ∧
        (l ≠ [] → (l.map Lane.int).foldl (Lane.wrapping (.int bits sign) op) (.int start) =
          ((l.map Lane.int).foldl op (.int start)).normalize (.int bits sign)) := by
  have hless : bits < 128 := by omega
  refine ⟨fun x => toInt_maskedWord hpos (by omega), fun v w => wrapInt_eq_iff hpos hless,
    fun x y => ?_, ?_⟩
  · rw [BitVec.toInt_add, BitVec.toInt_sub, BitVec.toInt_mul]
    exact ⟨rfl, rfl, rfl⟩
  · intro op hop
    -- All three operations go by residues, and from here on that is all that is used.
    have hres : GoesByResidue bits op := goesByResidue (Nat.le_of_lt hless) hop
    refine ⟨hres.normalize_operands hless, fun start l => ⟨?_, fun hne => ?_⟩⟩
    -- The start may be wrapped already, or the list takes one step at least.
    · apply hres.foldl_wrapping hless
      · exact Lane.congruent_normalize start bits sign
      · exact forall₂_congruent_int bits l
      · exact Or.inl (Lane.normalize_normalize _ _)
    · apply hres.foldl_wrapping hless
      · exact .int rfl
      · exact forall₂_congruent_int bits l
      · exact Or.inr (by simpa using hne)

/-- A product of bytes that leaves the range at each step, and truth values, of which two add up to
none. -/
theorem wrapping_may_be_deferred_bytes :
    1 ≤ 8 ∧ 8 ≤ 126 ∧
    [Lane.int 100, .int (-7), .int 3].foldl (Lane.wrapping (.int 8 .signless) Lane.mul) (.int 99) =
      .int (-28) ∧
    1 ≤ 1 ∧ 1 ≤ 126 ∧ wrapInt (-3) 1 .signless = 1 ∧
    [Lane.int 1].foldl (Lane.wrapping (.int 1 .signless) Lane.add) (.int 1) = .int 0 := by
  obtain ⟨-, -, -, hbytes⟩ :=
    wrapping_may_be_deferred (show 1 ≤ 8 by decide) (by decide) .signless
  obtain ⟨-, hbit, -, hbits⟩ :=
    wrapping_may_be_deferred (show 1 ≤ 1 by decide) (by decide) .signless
  have hmul := ((hbytes Lane.mul (Or.inr (Or.inr rfl))).2 99 [100, -7, 3]).2 (by simp)
  have hadd := ((hbits Lane.add (Or.inl rfl)).2 1 [1]).2 (by simp)
  have hread : wrapInt (-3) 1 .signless = 1 := (hbit (-3) 1).mpr ⟨by decide, by decide⟩
  exact ⟨by decide, by decide, hmul, by decide, by decide, hread, hadd⟩

end SimdLowering
