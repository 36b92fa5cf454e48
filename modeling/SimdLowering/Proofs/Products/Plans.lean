/-
The plans for products, evaluated.

A product is taken in an accumulator that holds it, and only then brought down, by a shift that
rounds and takes the nearest lane in range, or moved back as it is. The eight-bit multiplier
reads full registers, so there each factor is followed by zeros. The accumulator has as many
lanes as the factors had before, and the product of the zeros is never read.
-/
import SimdLowering.Proofs.Fusion.Arithmetic

set_option autoImplicit false

namespace SimdLowering

open SimdLowering.Frame

variable {n bits width padTo : Nat} {sign : Signedness} {ty t srcTy : Ty} {x y u : Fin n → Int}
  {g : Graph} {ρ : Env} {Γ : List Known} {a b : Source} {ka kb k : Known} {l : List Lane}
  {p : Plan (Operand Source)}

/-! ## Lanes in front -/

/-- The lanes of the value begin with the given integers. -/
def Known.BeginsWith (k : Known) (x : Fin n → Int) : Prop := (RtValue.ofInts x).lanes <+: k.lanes

/-- The operand of a step holds the given integers and nothing more. -/
def Source.HoldsInts (g : Graph) (ρ : Env) (Γ : List Known) (a : Source) (x : Fin n → Int) : Prop :=
  ∃ k, a.Holds g ρ Γ k ∧ k.lanes = (RtValue.ofInts x).lanes

theorem Lane.normalize_zero : (Lane.int 0).normalize (.int bits sign) = .int 0 := by
  have hpos := twoPow_cast_pos (bits - 1)
  have hwrap : wrapInt 0 bits sign = 0 := by
    rw [wrapInt, Int.zero_emod]
    split
    · rfl
    · exact if_pos (Or.inr (Or.inr hpos))
  exact congrArg Lane.int hwrap

/-- Zeros are in the range of every integer type. -/
theorem normalize_of_mem_zeros {m : Nat} {lane : Lane} (h : lane ∈ List.replicate m (Lane.int 0)) :
    lane.normalize (.int bits sign) = lane := by
  rw [List.eq_of_mem_replicate h]
  exact Lane.normalize_zero

theorem normalize_of_mem_ofInts (hb : 1 < bits) (hsmall : bits < 128)
    (hx : ∀ i, InLane sign bits (x i)) {lane : Lane} (h : lane ∈ (RtValue.ofInts x).lanes) :
    lane.normalize (.int bits sign) = lane := by
  obtain ⟨i, rfl⟩ := List.mem_ofFn.mp h
  exact congrArg Lane.int ((wrapInt_eq_self_iff_inLane hb hsmall).mpr (hx i))

/-- A product reads no more lanes than the accumulator has, so it does not matter what the
factors hold after those. -/
theorem evaluates_leadingProduct (hb : 1 < bits) (hsmall : bits < 127) (hsign : sign ≠ .unsigned)
    (ha : a.Holds g ρ Γ ka) (hc : b.Holds g ρ Γ kb) (hx : ka.BeginsWith x) (hy : kb.BeginsWith y)
    (hxy : ∀ i, InRange bits (x i * y i)) :
    Evaluates g ρ Γ (Instr.mulElem (.vector n (.int bits sign)) a b)
      ⟨.vector n (.int bits sign), .ofInts fun i => x i * y i⟩ := by
  obtain ⟨l, hl⟩ := hx
  obtain ⟨r, hr⟩ := hy
  have hcount : laneCount (.vector n (.int bits sign)) = n := rfl
  -- The zipped lanes are cut to those of the type, and there both operands begin as given.
  have hlanes : (List.zipWith Lane.mul ka.lanes kb.lanes).take n =
      List.ofFn fun i => .int (x i * y i) := by
    rw [← hl, ← hr, List.zipWith_append (by simp only [RtValue.length_ofInts]),
      RtValue.lanes_ofInts, RtValue.lanes_ofInts, zipWith_ofFn, List.take_left' List.length_ofFn]
    refine congrArg List.ofFn (funext fun i => ?_)
    exact congrArg Lane.int (wrap128_eq_self ((hxy i).mono (by omega)))
  have long : ∀ {z : Fin n → Int} {s s' : List Lane}, (RtValue.ofInts z).lanes ++ s = s' →
      n ≤ s'.length := by
    rintro z s s' rfl
    rw [List.length_append, RtValue.length_ofInts]
    exact Nat.le_add_right n _
  refine .of_operands rfl rfl rfl (.cons ha (.cons hc .nil)) ?_
  refine (eval_product (Or.inr rfl)).mpr ⟨?_, ?_, ?_⟩
  · exact hcount ▸ long hl
  · exact hcount ▸ long hr
  · rw [hcount, hlanes]
    exact shapeAs_ofInts hb hsmall fun i => (hxy i).inLane hsign

/-! ## Products -/

theorem accumulatorOf_vector :
    accumulatorOf (.vector n (.int width sign)) = .vector n (.i (accumulatorWidth width)) := rfl

theorem accumulatorWidth_bounds (h : width ≤ 32) :
    2 * width ≤ accumulatorWidth width ∧ 1 < accumulatorWidth width ∧
      accumulatorWidth width < 127 := by
  unfold accumulatorWidth
  split <;> omega

section

variable (hlow : 1 < width) (hhigh : width ≤ 32) (hsign : sign ≠ .unsigned)
  (hx : ∀ i, InRange width (x i)) (hy : ∀ i, InRange width (y i))
  (ha : ∀ Γ, a.HoldsInts g ρ Γ x) (hb : ∀ Γ, b.HoldsInts g ρ Γ y)
include hlow hhigh hx hy ha hb

omit ha hb in
/-- The accumulator holds every product. -/
theorem inRange_accumulatedProduct (i : Fin n) :
    InRange (accumulatorWidth width) (x i * y i) :=
  (inRange_product (Nat.lt_of_succ_lt hlow) (hx i) (hy i)).mono (accumulatorWidth_bounds hhigh).1

/-- The product of two full registers. -/
theorem plainProduct_yields : (Rules.plainProduct a b (.vector n (.int width sign))).Makes
    (Evaluates g ρ) Γ (Yielding g ρ
      ⟨.vector n (.i (accumulatorWidth width)), .ofInts fun i => x i * y i⟩) := by
  obtain ⟨-, hone, hsmall⟩ := accumulatorWidth_bounds hhigh
  obtain ⟨ka, ha, hla⟩ := ha Γ
  obtain ⟨kb, hb, hlb⟩ := hb Γ
  refine Evaluates.emits ?_
  rw [accumulatorOf_vector]
  exact evaluates_leadingProduct hone hsmall (by decide) ha hb ⟨[], by rw [hla, List.append_nil]⟩
    ⟨[], by rw [hlb, List.append_nil]⟩ (inRange_accumulatedProduct hlow hhigh hx hy)

include hsign

/-- The product of two half registers, each followed by zeros. -/
theorem paddedProduct_yields (hwide : n ≤ 512 / padTo) :
    (Rules.paddedProduct a b (.vector n (.int width sign)) padTo).Makes (Evaluates g ρ) Γ
      (Yielding g ρ ⟨.vector n (.i (accumulatorWidth width)), .ofInts fun i => x i * y i⟩) := by
  obtain ⟨-, hone, hsmall⟩ := accumulatorWidth_bounds hhigh
  -- What a factor is followed by.
  let zeros (m : Nat) : List Lane := List.replicate m (.int 0)
  have shapeZeros : ∀ m m' : Nat, shapeAs (.vector m (.int width sign)) (zeros m') =
      some (.vector (zeros m')) := fun m m' =>
    shapeAs_of_normal rfl (.inr (ElemKind.wraps_vector (by omega) (by omega) sign m))
      fun _ => normalize_of_mem_zeros
  have shapePadded : ∀ (z : Fin n → Int) (k : Known), k.lanes = (RtValue.ofInts z).lanes →
      (∀ i, InRange width (z i)) →
      shapeAs (.vector (512 / padTo) (.int width sign)) (k.lanes ++ zeros n) =
        some (.vector ((RtValue.ofInts z).lanes ++ zeros n)) := by
    intro z k hk hz
    rw [hk]
    refine shapeAs_of_normal rfl
      (.inr (ElemKind.wraps_vector (by omega) (by omega) sign (512 / padTo))) fun lane hlane => ?_
    rcases List.mem_append.mp hlane with h | h
    · exact normalize_of_mem_ofInts hlow (by omega) (fun i => (hz i).inLane hsign) h
    · exact normalize_of_mem_zeros h
  have begins : ∀ (t : Ty) (z : Fin n → Int),
      Known.BeginsWith ⟨t, .vector ((RtValue.ofInts z).lanes ++ zeros n)⟩ z :=
    fun _ _ => List.prefix_append _ _
  -- The steps, one after the other.
  refine Evaluates.then (k := ⟨.int width sign, .scalar (.int 0)⟩) ?_ fun zero hzero => ?_
  · refine evaluates_constantInt ?_
    change shapeAs (.int width sign) [.int 0] = _
    have hwraps : (ElemKind.ofTy (.int width sign)).wraps = true :=
      ElemKind.wraps_int (by omega) (by omega) sign
    rw [shapeAs_of_not_isVector rfl hwraps]
    exact congrArg (fun l => some (RtValue.scalar l)) Lane.normalize_zero
  refine Evaluates.then
    (k := ⟨.vector (512 / padTo) (.int width sign), .vector (zeros (512 / padTo))⟩) ?_
    fun splat hsplat => ?_
  · exact evaluates_broadcastScalar hzero.1 rfl (shapeZeros _ _)
  refine Evaluates.then (k := ⟨.vector n (.int width sign), .vector (zeros n)⟩) ?_
    fun half hhalf => ?_
  · refine evaluates_ext hsplat.1 (show 0 + 1 < twoPow 64 by decide) ?_ ?_ ?_
    · refine Nat.lt_of_le_of_lt ?_ (show 512 < twoPow 64 by decide)
      rw [Nat.zero_add, Nat.one_mul]
      exact hwide.trans (Nat.div_le_self 512 padTo)
    · change (0 + 1) * n ≤ (zeros (512 / padTo)).length
      rw [List.length_replicate]
      omega
    · have htake : ((zeros (512 / padTo)).drop (0 * n)).take n = zeros n := by
        rw [Nat.zero_mul, List.drop_zero, List.take_replicate, Nat.min_eq_left hwide]
      exact (congrArg _ htake).trans (shapeZeros n n)
  obtain ⟨ka, ha, hla⟩ := ha (((Γ ++ _) ++ _) ++ _)
  refine Evaluates.then (evaluates_concat ha hhalf.1 (shapePadded x ka hla hx))
    fun left hleft => ?_
  obtain ⟨kb, hb, hlb⟩ := hb ((((Γ ++ _) ++ _) ++ _) ++ _)
  refine Evaluates.then (evaluates_concat hb hhalf.snoc.1 (shapePadded y kb hlb hy))
    fun right hright => ?_
  refine Evaluates.emits ?_
  rw [accumulatorOf_vector]
  exact evaluates_leadingProduct hone hsmall (by decide) hleft.snoc.1 hright.1 (begins _ x)
    (begins _ y) (inRange_accumulatedProduct hlow hhigh hx hy)

end

/-! ## What becomes of a product -/

/-- A product that comes down by a shift: it is rounded, and of what that gives the nearest
integer in range is taken. -/
theorem shiftedDown_makes_lanes {shift : Nat} (hlow : 1 < width) (hsmall : width < 127)
    (hsign : sign ≠ .unsigned) (hshift : shift < bits) (hbits : bits < 127)
    (hu : ∀ i, InRange bits (u i))
    (hp : p.Makes (Evaluates g ρ) [] (Yielding g ρ ⟨.vector n (.i bits), .ofInts u⟩)) :
    (Rules.shiftedDown (.vector n (.int width sign)) shift p).Makes (Evaluates g ρ) [] fun Γ d =>
      Evaluates g ρ Γ d ⟨.vector n (.int width sign), .ofInts fun i =>
        saturateInt (shiftRounded (u i) shift) width sign⟩ := by
  refine hp.bind fun Δ o _ ho => ?_
  have hdown : ∀ i, InRange width (saturateInt (shiftRounded (u i) shift) width sign) := by
    intro i
    have := twoPow_cast_pos (width - 1)
    rw [saturateInt, if_neg (by omega), if_neg hsign, InRange]
    omega
  exact Evaluates.ends (evaluates_shiftDown hlow (by omega) hshift hbits ho.1 hu fun i =>
    (hdown i).inLane hsign)

/-- A product that is moved back: it stays as it is, if it is in range. -/
theorem movedBack_makes_lanes (hlow : 1 < width) (hsmall : width < 127) (hsign : sign ≠ .unsigned)
    (hu : ∀ i, InRange width (u i))
    (hp : p.Makes (Evaluates g ρ) [] (Yielding g ρ ⟨t, .ofInts u⟩)) :
    (Rules.movedBack (.vector n (.int width sign)) p).Makes (Evaluates g ρ) [] fun Γ d =>
      Evaluates g ρ Γ d ⟨.vector n (.int width sign), .ofInts u⟩ := by
  refine hp.bind fun Δ o _ ho => ?_
  exact Evaluates.ends (evaluates_cast ho.1 false
    (shapeAs_ofInts hlow hsmall fun i => (hu i).inLane hsign))

end SimdLowering
