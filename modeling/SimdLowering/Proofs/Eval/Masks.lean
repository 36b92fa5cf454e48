/-
Vectors of bits and the words they are packed into.

A comparison on the target gives one word with a bit for each lane, and a select reads such
a word; the generic operations have a vector of bits in that place. Nothing is lost between
the two as long as the word has room for every lane: the packed number stays below two to
the number of lanes, so neither computing in 128 bits nor the range of the word changes it.
-/
import SimdLowering.Proofs.Eval.Instructions
import SimdLowering.Rules.Extremum

set_option autoImplicit false

namespace SimdLowering

namespace Frame

variable {bits : List Bool} {lanes : List Lane} {ty : Ty} {n i : Nat}

/-! ## Packing -/

theorem packBits_lt (bits : List Bool) : packBits bits < twoPow bits.length := by
  induction bits with
  | nil => exact twoPow_pos 0
  | cons b rest ih =>
    rw [packBits, List.length_cons, twoPow_succ]
    cases b <;> simp only [Bool.toNat_false, Bool.toNat_true] <;> omega

/-- The bits of a packed number are those that were packed. -/
theorem bitOf_packBits (bits : List Bool) (i : Nat) :
    bitOf (packBits bits) i = ((bits[i]?.getD false).toNat : Int) := by
  have nat : ∀ (bits : List Bool) (i : Nat),
      packBits bits / twoPow i % 2 = (bits[i]?.getD false).toNat := by
    intro bits
    induction bits with
    | nil => simp [packBits]
    | cons b rest ih =>
      intro i
      cases i with
      | zero => cases b <;> simp [packBits, twoPow_zero, Nat.add_mod]
      | succ i =>
        have hhalf : packBits (b :: rest) / 2 = packBits rest := by
          rw [packBits]
          cases b <;> simp only [Bool.toNat_false, Bool.toNat_true] <;> omega
        rw [twoPow_succ, Nat.mul_comm, ← Nat.div_div_eq_div_mul, hhalf, List.getElem?_cons_succ]
        exact ih i
  rw [bitOf, ← nat bits i]
  norm_cast

/-- A number without a sign that has room in the width is in range. -/
theorem wrapInt_unsigned {v : Int} {width : Nat} (h₀ : 0 ≤ v) (h : v < twoPow width) :
    wrapInt v width .unsigned = v := by
  simp only [wrapInt, true_or, if_true]
  split
  · rfl
  · exact Int.emod_eq_of_lt h₀ h

theorem twoPow_le {m n : Nat} (h : m ≤ n) : twoPow m ≤ twoPow n :=
  Nat.pow_le_pow_right (by decide) h

theorem wrap128_eq_self {v : Int} (h₀ : 0 ≤ v) (h : v < twoPow 127) : wrap128 v = v := by
  have hpow : (twoPow 128 : Int) = twoPow 127 * 2 := by exact_mod_cast twoPow_succ 127
  rw [wrap128, Int.bmod_eq_of_le]
  · omega
  · omega

/-- A word without a sign holds a mask if it has a bit for each lane. -/
theorem shapeAs_ui_maskLane {width : Nat} (hlen : bits.length ≤ width) (hw : width ≤ 126) :
    shapeAs (.ui width) [maskLane bits] = some (.scalar (.int (packBits bits))) := by
  have hlt := packBits_lt bits
  have hle := twoPow_le hlen
  have hle' := twoPow_le (Nat.le_succ_of_le hw)
  have hwraps : (ElemKind.ofTy (.ui width)).wraps = true := by
    simpa [ElemKind.ofTy, Ty.elementType, ElemKind.wraps] using by omega
  have h128 : wrap128 (packBits bits) = packBits bits :=
    wrap128_eq_self (Int.natCast_nonneg _)
      (by exact_mod_cast Nat.lt_of_lt_of_le hlt (Nat.le_trans hle hle'))
  have hwrap : wrapInt (packBits bits) width .unsigned = packBits bits :=
    wrapInt_unsigned (Int.natCast_nonneg _) (by exact_mod_cast Nat.lt_of_lt_of_le hlt hle)
  rw [shapeAs_of_not_isVector rfl hwraps, maskLane, h128]
  change some (RtValue.scalar (.int (wrapInt (packBits bits) width .unsigned))) = _
  rw [hwrap]

/-- A mask type holds as many bits as there are lanes, up to sixty-four of them. -/
theorem shapeAs_maskLane (hlen : bits.length ≤ n) (hn : n ≤ 64) :
    shapeAs (Rules.maskType n) [maskLane bits] = some (.scalar (.int (packBits bits))) := by
  unfold Rules.maskType
  split
  · exact shapeAs_ui_maskLane (by omega) (by omega)
  · exact shapeAs_ui_maskLane (by omega) (by omega)

/-- A single truth value is a number that has one bit. -/
theorem eq_maskLane_of_normalize {lane : Lane} (h : lane.normalize (.ofTy (.i 1)) = lane) :
    lane = maskLane [decide (lane.asInt ≠ 0)] := by
  obtain ⟨heq, hwrap⟩ := Lane.eq_int_of_normalize h
  have hbit : lane.asInt = 0 ∨ lane.asInt = 1 := by
    have hmod : wrapInt lane.asInt 1 .signless = lane.asInt % 2 := rfl
    omega
  rcases hbit with h0 | h1
  · rw [heq, h0]
    rfl
  · rw [heq, h1]
    rfl

/-- Unpacking gives back the lanes that were packed. -/
theorem map_bitOf_packBits (bits : List Bool) :
    ((List.range bits.length).map fun i => Lane.int (bitOf (packBits bits) i)) =
      bits.map Lane.ofBool := by
  refine List.ext_getElem (by simp) fun i h _ => ?_
  have hi : i < bits.length := by simpa using h
  simp only [List.getElem_map, List.getElem_range, bitOf_packBits, List.getElem?_eq_getElem hi,
    Option.getD_some, Lane.ofBool]
  cases bits[i] <;> rfl

/-! ## Choosing lanes -/

/-- Only what the condition says of lanes of the first branch matters. -/
theorem chooseLanes_congr {holds holds' : Nat → Bool} {onTrue onFalse : List Lane}
    (h : ∀ i, i < onTrue.length → holds i = holds' i) :
    chooseLanes holds onTrue onFalse = chooseLanes holds' onTrue onFalse := by
  refine mapM_congr fun ⟨lane, i⟩ hp => ?_
  have hi : i < onTrue.length := by
    have := List.mk_mem_zipIdx_iff_getElem?.mp hp
    exact (List.getElem?_eq_some_iff.mp this).1
  simp only [h i hi]

/-- The lanes of the first branch where the condition holds, and those of the second
elsewhere. -/
def pickLanes (holds : Nat → Bool) (onTrue onFalse : List Lane) : List Lane :=
  onTrue.zipIdx.map fun (lane, i) => if holds i then lane else onFalse.getD i default

/-- Lanes are chosen from two branches, if the second is not shorter than the first. -/
theorem chooseLanes_eq_ok {holds : Nat → Bool} {onTrue onFalse : List Lane}
    (h : onTrue.length ≤ onFalse.length) :
    chooseLanes holds onTrue onFalse = .ok (pickLanes holds onTrue onFalse) := by
  refine mapM_eq_ok fun (lane, i) hp => ?_
  have hlt : i < onTrue.length := List.snd_lt_of_mem_zipIdx hp
  have hother : onFalse[i]? = some (onFalse.getD i default) := by
    rw [List.getD_eq_getElem?_getD, List.getElem?_eq_getElem (by omega), Option.getD_some]
  dsimp only
  rw [hother]
  split <;> rfl

/-- What is picked from branches whose lanes are in range is a value as it is. -/
theorem shapeAs_pickLanes {holds : Nat → Bool} {onTrue onFalse : List Lane}
    (hty : ty.isVector = true) (hw : onTrue = [] ∨ (ElemKind.ofTy ty).wraps = true)
    (hlen : onTrue.length ≤ onFalse.length)
    (ht : ∀ c ∈ onTrue, c.normalize (.ofTy ty) = c)
    (hf : ∀ c ∈ onFalse, c.normalize (.ofTy ty) = c) :
    shapeAs ty (pickLanes holds onTrue onFalse) =
      some (.vector (pickLanes holds onTrue onFalse)) := by
  have hfit : ∀ c ∈ pickLanes holds onTrue onFalse, c.normalize (.ofTy ty) = c := by
    intro c hc
    obtain ⟨⟨lane, i⟩, hp, rfl⟩ := List.mem_map.mp hc
    have hi : i < onFalse.length := Nat.lt_of_lt_of_le (List.snd_lt_of_mem_zipIdx hp) hlen
    dsimp only
    split
    · exact ht lane (List.fst_mem_of_mem_zipIdx hp)
    · rw [List.getD_eq_getElem?_getD, List.getElem?_eq_getElem hi]
      exact hf _ (List.getElem_mem hi)
  exact shapeAs_of_normal hty (hw.imp_left fun h => by rw [h]; rfl) hfit

/-- As many lanes are chosen as the first branch has. -/
theorem length_chooseLanes {holds : Nat → Bool} {onTrue onFalse l : List Lane}
    (h : chooseLanes holds onTrue onFalse = .ok l) : l.length = onTrue.length := by
  rw [← (forall₂_of_mapM h).length_eq, List.length_zipIdx]

end Frame

end SimdLowering
