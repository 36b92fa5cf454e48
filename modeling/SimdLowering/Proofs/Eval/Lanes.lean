/-
Lanes in the range of their type.

Every instruction ends by bringing its lanes into the range of the type of its result. Most
of what rewriting needs to know about arithmetic follows from two facts about this last
step: it changes nothing when it is done twice, and for integers it only depends on the
residue modulo two to the width. So it does not matter how often, or in which wider type, a
sum was brought into range on the way.

A value fits a type when its lanes are in range and there are as many as the type asks for.
-/
import SimdLowering.Eval.Frame
import SimdLowering.Proofs.Number.Rounding
import SimdLowering.Proofs.Runs

set_option autoImplicit false

namespace SimdLowering

variable {v w : Int} {bits : Nat} {sign sign' : Signedness} {kind : ElemKind} {a a' b b' : Lane}
  {ty : Ty} {lanes lanes' : List Lane} {x : RtValue}

/-! ## Kinds of lanes -/

namespace ElemKind

/-- An integer width that is neither zero nor a hundred and twenty-seven has a range. -/
theorem wraps_int (h₀ : bits ≠ 0) (h : bits ≠ 127) (sign : Signedness) :
    (int bits sign).wraps = true := by
  simp [wraps, h₀, h]

/-- So has a vector of such integers. -/
theorem wraps_vector (h₀ : bits ≠ 0) (h : bits ≠ 127) (sign : Signedness) (n : Nat) :
    (ofTy (.vector n (.int bits sign))).wraps = true :=
  wraps_int h₀ h sign

/-- What can be brought into range can be read without a sign and put in order. -/
theorem views_of_wraps (h : kind.wraps = true) : kind.views = true := by
  cases kind with
  | int bits sign => exact (Bool.and_eq_true_iff.mp h).1
  | _ => rfl

/-- What wraps around can be ordered. -/
theorem orders_of_wraps (h : kind.wraps = true) : kind.orders = true := by
  cases kind with
  | int bits sign =>
    have hbits := (Bool.and_eq_true_iff.mp h).1
    cases sign with
    | unsigned => exact hbits
    | _ => rfl
  | _ => rfl

/-- So it can be folded, too. -/
theorem folds_of_wraps (h : kind.wraps = true) (combining : CombiningKind) :
    combining.folds kind = true := by
  cases combining with
  | add | mul => rfl
  | minui | maxui => exact views_of_wraps h
  | minsi | maxsi | minf | maxf => exact orders_of_wraps h

end ElemKind

/-! ## Integers -/

theorem twoPow_cast_pos (bits : Nat) : (0 : Int) < twoPow bits := by
  exact_mod_cast twoPow_pos bits

/-- Wrapping keeps the residue. -/
theorem wrapInt_emod : wrapInt v bits sign % twoPow bits = v % twoPow bits := by
  simp only [wrapInt]
  split_ifs
  · rfl
  · exact Int.emod_emod_of_dvd v (Int.dvd_refl _)
  · rw [Int.sub_emod_right]
    exact Int.emod_emod_of_dvd v (Int.dvd_refl _)

/-- Wrapping to less than the full width only looks at the residue. -/
theorem wrapInt_congr (hb : bits < 128) (h : v % twoPow bits = w % twoPow bits) :
    wrapInt v bits sign = wrapInt w bits sign := by
  simp only [wrapInt, if_neg (Nat.not_le.mpr hb), h]

/-- To bring an integer into range twice is to do it once. -/
theorem wrapInt_wrapInt : wrapInt (wrapInt v bits sign) bits sign = wrapInt v bits sign := by
  by_cases hb : bits < 128
  · exact wrapInt_congr hb wrapInt_emod
  · simp only [wrapInt, if_pos (Nat.not_lt.mp hb)]

/-- A number that is not negative and leaves the highest bit free is in range. -/
theorem wrapInt_eq_self (hb : 0 < bits) (h₀ : 0 ≤ v) (h : v < twoPow (bits - 1)) :
    wrapInt v bits sign = v := by
  have hpow : (twoPow bits : Int) = twoPow (bits - 1) * 2 := by
    obtain ⟨n, rfl⟩ := Nat.exists_eq_succ_of_ne_zero (Nat.ne_of_gt hb)
    exact_mod_cast twoPow_succ n
  have hm : v % twoPow bits = v := Int.emod_eq_of_lt h₀ (by omega)
  simp only [wrapInt, hm]
  split_ifs with h₁ h₂
  · rfl
  · rfl
  · exact absurd (Or.inr (Or.inr h)) h₂

/-- Computing in 128 bits keeps the residue of every narrower width. -/
theorem wrap128_emod (hb : bits ≤ 128) : wrap128 v % twoPow bits = v % twoPow bits := by
  have hdvd : (twoPow bits : Int) ∣ (twoPow 128 : Nat) := by
    exact_mod_cast Nat.pow_dvd_pow 2 hb
  rw [wrap128, Int.bmod_def]
  split
  · exact Int.emod_emod_of_dvd v hdvd
  · rw [Int.sub_emod, Int.emod_emod_of_dvd v hdvd, Int.emod_eq_zero_of_dvd hdvd, Int.sub_zero,
      Int.emod_emod_of_dvd v (Int.dvd_refl _)]

/-! ## Lanes -/

namespace Lane

/-- Bringing a lane into range twice is doing it once. -/
theorem normalize_normalize (kind : ElemKind) (a : Lane) :
    (a.normalize kind).normalize kind = a.normalize kind := by
  cases kind with
  | int bits sign => exact congrArg int wrapInt_wrapInt
  | float format => exact congrArg float (roundFloat_roundFloat _ format)
  | index => rfl

/-- The lanes hold integers with the same residue. -/
def Congruent (bits : Nat) (a b : Lane) : Prop :=
  ∃ x y, a = int x ∧ b = int y ∧ x % twoPow bits = y % twoPow bits

/-- Congruence goes both ways. -/
theorem Congruent.symm (h : Congruent bits a b) : Congruent bits b a := by
  obtain ⟨x, y, hx, hy, hxy⟩ := h
  exact ⟨y, x, hy, hx, hxy.symm⟩

/-- And it can be chained. -/
theorem Congruent.trans {c : Lane} (h : Congruent bits a b) (h' : Congruent bits b c) :
    Congruent bits a c := by
  obtain ⟨x, y, rfl, rfl, hxy⟩ := h
  obtain ⟨y', z, hy, rfl, hyz⟩ := h'
  obtain rfl := int.inj hy
  exact ⟨x, z, rfl, rfl, hxy.trans hyz⟩

/-- What an integer lane is brought to has its residue. -/
theorem congruent_normalize (v : Int) (bits : Nat) (sign : Signedness) :
    Congruent bits ((int v).normalize (.int bits sign)) (int v) :=
  ⟨_, v, rfl, rfl, wrapInt_emod⟩

/-- Lanes with the same residue are brought to the same lane. -/
theorem Congruent.normalize (hb : bits < 128) (h : Congruent bits a b) :
    a.normalize (.int bits sign) = b.normalize (.int bits sign) := by
  obtain ⟨x, y, rfl, rfl, hxy⟩ := h
  exact congrArg int (wrapInt_congr hb hxy)

/-- Sums go by residues. -/
theorem Congruent.add (hb : bits ≤ 128) (h : Congruent bits a a') (h' : Congruent bits b b') :
    Congruent bits (a.add b) (a'.add b') := by
  obtain ⟨x, y, rfl, rfl, hxy⟩ := h
  obtain ⟨x', y', rfl, rfl, hxy'⟩ := h'
  refine ⟨_, _, rfl, rfl, ?_⟩
  rw [wrap128_emod hb, wrap128_emod hb, Int.add_emod, hxy, hxy', ← Int.add_emod]

/-- Differences do. -/
theorem Congruent.sub (hb : bits ≤ 128) (h : Congruent bits a a') (h' : Congruent bits b b') :
    Congruent bits (a.sub b) (a'.sub b') := by
  obtain ⟨x, y, rfl, rfl, hxy⟩ := h
  obtain ⟨x', y', rfl, rfl, hxy'⟩ := h'
  refine ⟨_, _, rfl, rfl, ?_⟩
  rw [wrap128_emod hb, wrap128_emod hb, Int.sub_emod, hxy, hxy', ← Int.sub_emod]

/-- And products. -/
theorem Congruent.mul (hb : bits ≤ 128) (h : Congruent bits a a') (h' : Congruent bits b b') :
    Congruent bits (a.mul b) (a'.mul b') := by
  obtain ⟨x, y, rfl, rfl, hxy⟩ := h
  obtain ⟨x', y', rfl, rfl, hxy'⟩ := h'
  refine ⟨_, _, rfl, rfl, ?_⟩
  rw [wrap128_emod hb, wrap128_emod hb, Int.mul_emod, hxy, hxy', ← Int.mul_emod]

/-- A lane that is in the range of an integer type is an integer. -/
theorem eq_int_of_normalize (h : a.normalize (.int bits sign) = a) :
    a = int a.asInt ∧ wrapInt a.asInt bits sign = a.asInt := by
  have ha : a = int (wrapInt a.asInt bits sign) := h.symm
  have hint : wrapInt a.asInt bits sign = a.asInt := by
    conv_rhs => rw [ha]
    rfl
  exact ⟨by rw [← hint]; exact ha, hint⟩

/-- A lane in range is congruent to itself. -/
theorem congruent_self (h : a.normalize (.int bits sign) = a) : Congruent bits a a :=
  ⟨a.asInt, a.asInt, (eq_int_of_normalize h).1, (eq_int_of_normalize h).1, rfl⟩

end Lane

/-- A sixteen-bit float lane is in the range of single precision. -/
theorem Lane.normalize_single {format : FloatFormat} (h : format.width = 16)
    (ha : a.normalize (.float format) = a) : a.normalize (.float .f32) = a := by
  rw [← ha]
  exact congrArg Lane.float (roundFloat_single _ h)

/-- It does not show that a lane passed through single precision on its way to sixteen
bits. -/
theorem Lane.normalize_of_single {format : FloatFormat} (h : format.width = 16) (a : Lane) :
    (a.normalize (.float .f32)).normalize (.float format) = a.normalize (.float format) :=
  congrArg Lane.float (roundFloat_of_single _ h)

/-- A relation between lanes that an operation respects holds of all lanes after it. -/
theorem forall₂_zipWith {R : Lane → Lane → Prop} {f : Lane → Lane → Lane} {l l' r r' : List Lane}
    (hf : ∀ a a' b b', R a a' → R b b' → R (f a b) (f a' b')) (hl : List.Forall₂ R l l')
    (hr : List.Forall₂ R r r') : List.Forall₂ R (List.zipWith f l r) (List.zipWith f l' r') := by
  induction hl generalizing r r' with
  | nil => exact .nil
  | cons hab _ ih =>
    cases hr with
    | nil => exact .nil
    | cons hcd hr => exact .cons (hf _ _ _ _ hab hcd) (ih hr)

/-! ## Values -/

namespace RtValue

/-- The lanes are in the range of the type, and there are as many as its lane layout has. -/
structure Fits (x : RtValue) (ty : Ty) : Prop where
  lanes : ∀ a ∈ x.lanes, a.normalize (.ofTy ty) = a
  length : ∀ shape, ty.vectorShape = some shape → x.lanes.length = shape.lanes

/-- The lanes of a value that fits are in range already. -/
theorem Fits.map_normalize (h : x.Fits ty) : x.lanes.map (Lane.normalize (.ofTy ty)) = x.lanes :=
  (List.map_congr_left h.lanes).trans (List.map_id _)

end RtValue

/-- What has a shape is a vector. -/
theorem isVector_of_vectorShape {shape : VectorShape} (h : ty.vectorShape = some shape) :
    ty.isVector = true := by
  cases ty <;> first | rfl | cases h

/-- And has as many lanes as its shape. -/
theorem laneCount_eq {shape : VectorShape} (h : ty.vectorShape = some shape) :
    Frame.laneCount ty = shape.lanes := by
  rw [Frame.laneCount, h]
  rfl

/-- A lane layout names the element type of the vector, and the width of the element. -/
theorem ofTy_eq_of_vectorShape {shape : VectorShape} (h : ty.vectorShape = some shape) :
    ElemKind.ofTy ty = ElemKind.ofTy shape.elem ∧ (ElemKind.ofTy ty).bits = shape.elemBits ∧
      ty = .vector shape.lanes shape.elem ∧
      (shape.isFloat = false → ∃ sign, ElemKind.ofTy ty = .int shape.elemBits sign) := by
  cases ty with
  | vector n elem =>
    cases elem with
    | int width sign =>
      obtain rfl := Option.some.inj h
      exact ⟨rfl, rfl, rfl, fun _ => ⟨sign, rfl⟩⟩
    | float format =>
      obtain rfl := Option.some.inj h
      exact ⟨rfl, rfl, rfl, fun hf => by cases hf⟩
    | _ => cases h
  | _ => cases h

/-- It is of floats if its shape is. -/
theorem isFloat_of_vectorShape {shape : VectorShape} (h : ty.vectorShape = some shape) :
    ty.elementType.isFloat = shape.isFloat := by
  cases ty with
  | vector n elem =>
    obtain ⟨bits, -, rfl⟩ := Option.map_eq_some_iff.mp h
    rfl
  | _ => cases h

/-- A lane layout of floats names their format. -/
theorem exists_format_of_vectorShape {shape : VectorShape} (h : ty.vectorShape = some shape)
    (hf : shape.isFloat = true) :
    ∃ format, ty = .vector shape.lanes (.float format) ∧ format.width = shape.elemBits := by
  cases ty with
  | vector n elem =>
    cases elem with
    | float format =>
      obtain rfl := Option.some.inj h
      exact ⟨format, rfl, rfl⟩
    | int width sign =>
      obtain rfl := Option.some.inj h
      cases hf
    | _ => cases h
  | _ => cases h

/-- A lane layout of integers names their width. -/
theorem exists_int_of_vectorShape {shape : VectorShape} (h : ty.vectorShape = some shape)
    (hf : ty.elementType.isFloat = false) : ∃ n width sign,
      ty = .vector n (.int width sign) ∧ shape = ⟨n, .int width sign, width, false⟩ := by
  cases ty with
  | vector n elem =>
    cases elem with
    | int width sign =>
      obtain rfl := Option.some.inj h
      exact ⟨n, width, sign, rfl, rfl⟩
    | float format => cases hf
    | _ => cases h
  | _ => cases h

namespace Frame

/-- Where the lanes can be brought into range, that is done and the rest goes by the type. -/
theorem shapeAs_eq (hw : lanes = [] ∨ (ElemKind.ofTy ty).wraps = true) : shapeAs ty lanes =
    if ty.isVector then some (.vector (lanes.map (Lane.normalize (.ofTy ty))))
    else (lanes.map (Lane.normalize (.ofTy ty))).head?.map .scalar := by
  unfold shapeAs
  rw [if_pos (by simpa using hw)]

/-- Lanes that have been shaped could be brought into range. -/
theorem wraps_of_shapeAs (h : shapeAs ty lanes = some x) :
    lanes = [] ∨ (ElemKind.ofTy ty).wraps = true := by
  unfold shapeAs at h
  split at h
  · next hw => simpa using hw
  · cases h

/-- Lanes that are brought to the same are shaped to the same. -/
theorem shapeAs_congr (h : lanes.map (Lane.normalize (.ofTy ty)) =
    lanes'.map (Lane.normalize (.ofTy ty))) : shapeAs ty lanes = shapeAs ty lanes' := by
  have hempty : lanes.isEmpty = lanes'.isEmpty := by
    rw [← List.isEmpty_map (f := Lane.normalize (.ofTy ty)), h, List.isEmpty_map]
  unfold shapeAs
  rw [h, hempty]

/-- The lanes of a shaped value are those given, in range; of a scalar there is the first. -/
theorem lanes_of_shapeAs (h : shapeAs ty lanes = some x) :
    x.lanes <+: lanes.map (Lane.normalize (.ofTy ty)) ∧
      (ty.isVector = true → x.lanes = lanes.map (Lane.normalize (.ofTy ty))) := by
  rw [shapeAs_eq (wraps_of_shapeAs h)] at h
  split at h
  · obtain rfl := Option.some.inj h
    exact ⟨List.prefix_refl _, fun _ => rfl⟩
  · next hv =>
    refine ⟨?_, fun hv' => absurd hv' hv⟩
    obtain ⟨a, ha, rfl⟩ := Option.map_eq_some_iff.mp h
    obtain ⟨rest, hrest⟩ := List.head?_eq_some_iff.mp ha
    exact ⟨rest, hrest.symm⟩

/-- A vector is shaped from any lanes that can be brought into range. -/
theorem shapeAs_of_isVector (h : ty.isVector = true)
    (hw : lanes = [] ∨ (ElemKind.ofTy ty).wraps = true) :
    shapeAs ty lanes = some (.vector (lanes.map (Lane.normalize (.ofTy ty)))) := by
  rw [shapeAs_eq hw, if_pos h]

/-- A vector of lanes that are in range is shaped to itself. -/
theorem shapeAs_of_normal (hv : ty.isVector = true)
    (hw : lanes = [] ∨ (ElemKind.ofTy ty).wraps = true)
    (h : ∀ a ∈ lanes, a.normalize (.ofTy ty) = a) : shapeAs ty lanes = some (.vector lanes) := by
  rw [shapeAs_of_isVector hv hw, List.map_congr_left h, List.map_id']

/-- A scalar is shaped from its first lane. -/
theorem shapeAs_of_not_isVector (h : ty.isVector = false) (hw : (ElemKind.ofTy ty).wraps = true)
    (a : Lane) (lanes : List Lane) :
    shapeAs ty (a :: lanes) = some (.scalar (a.normalize (.ofTy ty))) := by
  rw [shapeAs_eq (Or.inr hw), h]
  rfl

/-- A shaped value fits its type, if there were enough lanes. -/
theorem fits_of_shapeAs (h : shapeAs ty lanes = some x)
    (hlen : ∀ shape, ty.vectorShape = some shape → lanes.length = shape.lanes) : x.Fits ty := by
  obtain ⟨hpre, hvector⟩ := lanes_of_shapeAs h
  refine ⟨fun a ha => ?_, fun shape hs => ?_⟩
  · obtain ⟨c, -, rfl⟩ := List.mem_map.mp (hpre.subset ha)
    exact Lane.normalize_normalize _ c
  · rw [hvector (isVector_of_vectorShape hs), List.length_map]
    exact hlen shape hs

/-- What can be shaped can be brought into range again. -/
theorem wraps_lanes (h : shapeAs ty lanes = some x) :
    x.lanes = [] ∨ (ElemKind.ofTy ty).wraps = true := by
  refine (wraps_of_shapeAs h).imp_left fun hnil => ?_
  have hpre := (lanes_of_shapeAs h).1
  rwa [hnil, List.map_nil, List.prefix_nil] at hpre

/-- Shaping lanes that are in range a second time gives the same value. -/
theorem shapeAs_lanes (h : shapeAs ty lanes = some x) : shapeAs ty x.lanes = some x := by
  obtain ⟨hpre, hvector⟩ := lanes_of_shapeAs h
  have hself : x.lanes.map (Lane.normalize (.ofTy ty)) = x.lanes := by
    refine (List.map_congr_left fun a ha => ?_).trans (List.map_id _)
    obtain ⟨c, -, rfl⟩ := List.mem_map.mp (hpre.subset ha)
    exact Lane.normalize_normalize _ c
  rw [shapeAs_eq (wraps_lanes h), hself]
  rw [shapeAs_eq (wraps_of_shapeAs h)] at h
  split at h
  · obtain rfl := Option.some.inj h
    rw [if_pos ‹_›]
    rfl
  · obtain ⟨a, ha, rfl⟩ := Option.map_eq_some_iff.mp h
    rw [if_neg ‹_›]
    rfl

/-- The lanes of a vector that fits are shaped to the same lanes. -/
theorem shapeAs_of_fits (h : x.Fits ty) (hv : ty.isVector = true)
    (hw : x.lanes = [] ∨ (ElemKind.ofTy ty).wraps = true) :
    shapeAs ty x.lanes = some (.vector x.lanes) := by
  rw [shapeAs_of_isVector hv hw, h.map_normalize]

/-- An evaluation ends with lanes that are shaped to the type of the result. -/
theorem finish_eq_ok {f : Frame} : f.finish lanes = .ok x ↔
    ∃ ty, f.resultTy = some ty ∧ shapeAs ty lanes = some x := by
  unfold finish result
  constructor
  · intro h
    obtain ⟨ty, hty, h⟩ := bind_eq_ok.mp h
    split at hty
    · next t ht =>
      obtain rfl := Except.ok.inj hty
      refine ⟨t, ht, ?_⟩
      split at h
      · next hs =>
        obtain rfl := Except.ok.inj h
        exact hs
      · split at h <;> cases h
    · cases hty
  · rintro ⟨ty, hty, h⟩
    rw [hty]
    simp only [bind, Except.bind, h]
    rfl

end Frame

end SimdLowering
