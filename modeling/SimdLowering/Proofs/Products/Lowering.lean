/-
Integer products, lowered.

A product is taken in one of three ways. Where both factors were sign-extended from lanes of the
same width, eight or sixteen bits, and the result has 32 lanes of 32 bits, the product is taken
of what they were extended from: it fits the narrow accumulator, whose lanes are as wide as those
of the result, and so it is moved back as it is and no shift has a say. All other products are
taken of the factors themselves and brought down by the shift. Of either kind some are padded.

Nothing is assumed of the rest of the function: it is enough that the run gets to the product.
-/
import SimdLowering.Proofs.Fusion.Lowering
import SimdLowering.Proofs.Integral.Vocabulary
import SimdLowering.Proofs.Products.Arrival
import SimdLowering.Proofs.Products.Plans
import SimdLowering.Proofs.Rules.Multiply

set_option autoImplicit false

namespace SimdLowering

open SimdLowering.Rules

variable {n bits width : Nat} {sign : Signedness} {x y : Fin n → Int}

/-- If the type is a vector of numbers, they are integers that are read with a sign. -/
def Ty.SignedLanes (ty : Ty) : Prop :=
  ∀ shape, ty.vectorShape = some shape →
    ∃ bits sign, shape.elem = .int bits sign ∧ sign ≠ .unsigned

/-- An extension brings the lanes of its first operand into the range of its result. -/
theorem Frame.shape_of_extsi {f : Frame} {v : RtValue} (hk : f.kind = .extsi)
    (h : f.eval = .ok v) : ∃ slot s ty, f.slots[0]? = some slot ∧ slot.value = some s ∧
      f.resultTy = some ty ∧ shapeAs ty s.lanes = some v := by
  rw [eval, hk] at h
  obtain ⟨src, hsrc, h⟩ := bind_eq_ok.mp h
  obtain ⟨kind, -, h⟩ := bind_eq_ok.mp h
  obtain ⟨ty, -, h⟩ := bind_eq_ok.mp h
  obtain ⟨lanes, hlanes, h⟩ := bind_eq_ok.mp h
  simp only [convertLanes, hk] at hlanes
  obtain rfl := Except.ok.inj hlanes
  obtain ⟨ty', hty', hshape⟩ := finish_eq_ok.mp h
  obtain ⟨s, hs, rfl⟩ := map_eq_ok.mp hsrc
  unfold operand at hs
  split at hs
  · next slot hslot =>
    unfold slotValue at hs
    split at hs
    · next s' hs' =>
      obtain rfl := Except.ok.inj hs
      exact ⟨slot, s', ty', hslot, hs', hty', hshape⟩
    · cases hs
  · cases hs

/-- Lanes that are in the range of a narrow type are not changed by an extension. -/
theorem RtValue.Fits.lanes_of_widened {m : Nat} {sign' : Signedness} {s : RtValue}
    (hlow : 1 < bits) (hhigh : bits ≤ width) (hsmall : width < 128) (hsign : sign ≠ .unsigned)
    (hsign' : sign' ≠ .unsigned) (hs : s.Fits (.vector m (.int bits sign')))
    (h : Frame.shapeAs (.vector n (.int width sign)) s.lanes = some (.ofInts x)) :
    s.lanes = (RtValue.ofInts x).lanes ∧ m = n ∧ ∀ i, InRange bits (x i) := by
  -- The narrow lanes are in range of the wider type already, so widening changes nothing.
  have hnormal : s.lanes.map (Lane.normalize (.ofTy (.vector n (.int width sign)))) = s.lanes := by
    refine (List.map_congr_left fun a ha => ?_).trans (List.map_id _)
    obtain ⟨ha, hwrap⟩ := Lane.eq_int_of_normalize (hs.lanes a ha)
    have hrange := (wrapInt_eq_self_iff hlow (by omega) hsign').mp hwrap
    rw [ha]
    exact congrArg Lane.int
      ((wrapInt_eq_self_iff (by omega) hsmall hsign).mpr (hrange.mono hhigh))
  have hlanes := (Frame.lanes_of_shapeAs h).2 rfl
  rw [hnormal] at hlanes
  refine ⟨hlanes.symm, ?_, fun i => ?_⟩
  · rw [← RtValue.length_ofInts (x := x), hlanes]
    exact (hs.length _ rfl).symm
  · have hmem : Lane.int (x i) ∈ s.lanes := by
      rw [← hlanes]
      exact List.mem_ofFn.mpr ⟨i, rfl⟩
    exact (wrapInt_eq_self_iff hlow (by omega) hsign').mp (Lane.int.inj (hs.lanes _ hmem))

namespace Graph

variable {g g' : Graph} {gone : List OpId} {func mul op : OpId} {entry : BlockId}
  {lhs rhs v source product : ValueId} {args : List RtValue} {ρ : Env} {shift : Int}
  {sizes sizes' : AccessSizes} {edits : Edits}

/-! ## What factors are extended from -/

/-- Both factors of a product with 32 lanes of 32 bits are sign-extended from lanes of the same
width, which is eight or sixteen bits. -/
def NarrowFactors (g : Graph) (n width : Nat) (lhs rhs : ValueId) : Prop :=
  (n, width) = (32, 32) ∧ ∃ bits ∈ [8, 16], g.WidenedFrom bits lhs ∧ g.WidenedFrom bits rhs

/-- A pair with a width other than zero is found exactly if both values are extended from lanes
that have it. -/
theorem extendedPair?_eq_some {l r : ValueId} (hbits : bits ≠ 0) :
    extendedPair? g lhs rhs .extsi = .ok (some (l, r, bits)) ↔
      (g.extensionSource? lhs .extsi = .ok (some l) ∧ laneBits g l = .ok bits) ∧
        g.extensionSource? rhs .extsi = .ok (some r) ∧ laneBits g r = .ok bits := by
  -- A width that is not zero is that of a shape.
  have bits_of : ∀ {s shape}, g.valueShape? s = .ok (some shape) →
      laneBits g s = .ok shape.elemBits := by
    intro s shape hshape
    rw [laneBits, hshape]
    rfl
  have shaped : ∀ {s}, laneBits g s = .ok bits →
      ∃ shape, g.valueShape? s = .ok (some shape) ∧ shape.elemBits = bits := by
    intro s hs
    obtain ⟨shape?, hshape, hs⟩ := bind_eq_ok.mp hs
    cases shape? with
    | none => exact absurd (Except.ok.inj hs).symm hbits
    | some shape => exact ⟨shape, hshape, Except.ok.inj hs⟩
  unfold extendedPair?
  constructor
  · intro h
    obtain ⟨l?, hl, h⟩ := bind_eq_ok.mp h
    cases l? with
    | none => cases h
    | some l' =>
      obtain ⟨r?, hr, h⟩ := bind_eq_ok.mp h
      cases r? with
      | none => cases h
      | some r' =>
        obtain ⟨ls?, hls, h⟩ := bind_eq_ok.mp h
        cases ls? with
        | none => cases h
        | some ls =>
          obtain ⟨rs?, hrs, h⟩ := bind_eq_ok.mp h
          obtain ⟨rs, rfl, hpair⟩ := Option.bind_eq_some_iff.mp (Except.ok.inj h)
          split at hpair
          · next heq =>
            cases hpair
            exact ⟨⟨hl, bits_of hls⟩, hr, heq ▸ bits_of hrs⟩
          · cases hpair
  · rintro ⟨⟨hl, hlb⟩, hr, hrb⟩
    obtain ⟨ls, hls, hlbits⟩ := shaped hlb
    obtain ⟨rs, hrs, hrbits⟩ := shaped hrb
    simp only [hl, hr, hls, hrs, bind, Except.bind, pure, Except.pure, Option.bind_some, hlbits,
      hrbits, if_true]

/-! ## A product with known factors -/

/-- The run of the function on the arguments gets to a product of two vectors of integers that
are read with a sign; the factors have the type of the product, and each holds as many integers
as that has lanes, all in range. -/
structure MultipliesAt (g : Graph) (func : OpId) (entry : BlockId) (args : List RtValue)
    (mul : OpId) (ρ : Env) (lhs rhs product : ValueId) (n width : Nat) (sign : Signedness)
    (x y : Fin n → Int) : Prop where
  arrives : g.Arrives func entry args mul ρ
  kind : g.kind mul = .muli
  operands : ∃ rest, g.operands mul = lhs :: rhs :: rest
  results : g.results mul = [product]
  typed : ∀ v ∈ [lhs, rhs, product], (g.value v).ty = .vector n (.int width sign)
  signed : sign ≠ .unsigned
  left : ρ.get? lhs = some (.ofInts x)
  right : ρ.get? rhs = some (.ofInts y)
  inRange : ∀ i, InRange width (x i) ∧ InRange width (y i)

/-- What the values are sign-extended from, where they are, is read with a sign itself, and is
bound to lanes that fit its type. -/
def SourcesFit (g : Graph) (ρ : Env) (vs : List ValueId) : Prop :=
  ∀ v ∈ vs, ∀ source, g.extensionSource? v .extsi = .ok (some source) →
    (g.value source).ty.SignedLanes ∧ ∀ s, ρ.get? source = some s → s.Fits (g.value source).ty

theorem holdsInts_of_get? (hv : g.HasValue v) (h : ρ.get? v = some (.ofInts x))
    (Γ : List Known) : (Source.value v).HoldsInts g ρ Γ x := by
  refine ⟨⟨(g.value v).ty, .ofInts x⟩, ⟨?_, h⟩, rfl⟩
  rw [value?_eq_some hv]
  rfl

namespace MultipliesAt

variable (hscene : Scene g gone func)
  (h : g.MultipliesAt func entry args mul ρ lhs rhs product n width sign x y)
include hscene h

omit hscene in
theorem mem_operands (hv : v ∈ [lhs, rhs]) : v ∈ g.operands mul := by
  obtain ⟨rest, hops⟩ := h.operands
  rw [hops]
  simp only [List.mem_cons, List.not_mem_nil, or_false] at hv ⊢
  rcases hv with rfl | rfl
  · exact Or.inl rfl
  · exact Or.inr (Or.inl rfl)

theorem atHand (hv : v ∈ [lhs, rhs]) : g.AtHand func mul v :=
  hscene.atHand_of_mem_operands h.arrives.inside (h.mem_operands hv)

omit hscene in
theorem binaryOperands : g.binaryOperands mul = .ok (lhs, rhs) := by
  obtain ⟨rest, hops⟩ := h.operands
  exact Graph.binaryOperands_eq hops

/-- A factor that is extended was computed before, from what its source is bound to. -/
theorem source_shapes (hv : v ∈ [lhs, rhs]) {z : RtValue} (hz : ρ.get? v = some z)
    (hsrc : g.extensionSource? v .extsi = .ok (some source)) : g.AtHand func mul source ∧
      ∃ s, ρ.get? source = some s ∧ Frame.shapeAs (g.value v).ty s.lanes = some z := by
  obtain ⟨d, hd, hslot, hsource⟩ := (hscene.extensionSource? h.arrives.inside
    (h.atHand hscene hv) .extsi (Nat.le_refl 1) rfl).of_eq_ok hsrc source rfl
  have hold := hscene.results_eq hd.inside (by rw [hd.kind]; decide) (by rw [hd.kind]; decide)
    hd.defines
  obtain ⟨w, z', hw, heval, hbind⟩ :=
    h.arrives.computes hscene.consistent hscene.ordered (h.mem_operands hv) hd.defines
  rw [hold] at hw
  obtain rfl : v = w := Option.some.inj hw
  obtain rfl : z' = z := Option.some.inj (hbind.symm.trans hz)
  -- An extension has one operand, and this is the source.
  obtain ⟨slot, s, ty, hslot', hs, hty, hshape⟩ := Frame.shape_of_extsi hd.kind heval
  refine ⟨hsource, s, ?_, ?_⟩
  · have hslots : (g.frame ρ d).slots[0]? =
        some ⟨source, (g.value? source).map Value.ty, ρ.get? source⟩ := by
      change ((g.operands d).map _)[0]? = _
      rw [List.getElem?_map, hslot]
      rfl
    obtain rfl := Option.some.inj (hslots.symm.trans hslot')
    exact hs
  · have hty : (g.resultTypes d).head? = some ty := hty
    rw [resultTypes, hold] at hty
    obtain rfl := Option.some.inj hty
    exact hshape

/-- A factor that is extended from narrow lanes holds the same integers as what it is extended
from, and they are in the range of those. -/
theorem source_holds (hfit : g.SourcesFit ρ [lhs, rhs]) (hv : v ∈ [lhs, rhs]) {z : Fin n → Int}
    (hz : ρ.get? v = some (.ofInts z))
    (hlow : 1 < bits) (hhigh : bits ≤ width) (hsmall : width < 128)
    (hsrc : g.extensionSource? v .extsi = .ok (some source))
    (hbits : laneBits g source = .ok bits) :
    (∃ sign', g.valueTy source = .ok (.vector n (.int bits sign')) ∧ sign' ≠ .unsigned) ∧
      (∀ i, InRange bits (z i)) ∧ ∀ Γ, (Source.value source).HoldsInts g ρ Γ z := by
  obtain ⟨hsource, s, hget, hshape⟩ := h.source_shapes hscene hv hz hsrc
  obtain ⟨hsigned, hfits⟩ := hfit v hv source hsrc
  -- The source is a vector of integers of the width.
  obtain ⟨m, sign', hsrcTy, hsign'⟩ : ∃ m sign', (g.value source).ty = .vector m (.int bits sign') ∧
      sign' ≠ .unsigned := by
    rw [laneBits_eq hscene hsource] at hbits
    obtain hbits := Except.ok.inj hbits
    cases hsh : (g.value source).ty.vectorShape with
    | none =>
      rw [hsh] at hbits
      have : (0 : Nat) = bits := hbits
      omega
    | some shape =>
      rw [hsh] at hbits
      obtain ⟨bits', sign', helem, hsign'⟩ := hsigned shape hsh
      obtain ⟨-, hwidth, hsrcTy, -⟩ := ofTy_eq_of_vectorShape hsh
      rw [helem] at hsrcTy
      obtain rfl : bits' = bits := by
        rw [← (show shape.elemBits = bits from hbits), ← hwidth, hsrcTy]
        rfl
      exact ⟨shape.lanes, sign', hsrcTy, hsign'⟩
  have hmem : v ∈ [lhs, rhs, product] := by
    rcases List.mem_pair.mp hv with rfl | rfl <;> simp
  rw [h.typed v hmem] at hshape
  obtain ⟨hlanes, rfl, hrange⟩ := RtValue.Fits.lanes_of_widened hlow hhigh hsmall h.signed hsign'
    (hsrcTy ▸ hfits s hget) hshape
  refine ⟨⟨sign', ?_, hsign'⟩, hrange, fun Γ => ⟨⟨(g.value source).ty, s⟩, ⟨?_, hget⟩, hlanes⟩⟩
  · rw [hscene.valueTy_eq hsource, hsrcTy]
  · rw [value?_eq_some (hsource.visible.hasValue hscene.consistent)]
    rfl

/-- What the factors hold can be used in a step. -/
theorem factors_hold (Γ : List Known) :
    (Source.value lhs).HoldsInts g ρ Γ x ∧ (Source.value rhs).HoldsInts g ρ Γ y :=
  ⟨holdsInts_of_get? ((h.atHand hscene (by simp)).visible.hasValue hscene.consistent) h.left Γ,
    holdsInts_of_get? ((h.atHand hscene (by simp)).visible.hasValue hscene.consistent) h.right Γ⟩

end MultipliesAt

/-! ## The decision -/

/-- A plan that ends with the product of each two lanes. -/
def ExactPlan (g : Graph) (ρ : Env) (ty : Ty) (x y : Fin n → Int) (p : Plan Step) : Prop :=
  p.Makes (Evaluates g ρ) [] fun Γ d => Evaluates g ρ Γ d ⟨ty, .ofInts fun i => x i * y i⟩

/-- A plan that ends with the product of each two lanes brought down. -/
def ShiftedPlan (g : Graph) (ρ : Env) (n width shift : Nat) (sign : Signedness) (x y : Fin n → Int)
    (p : Plan Step) : Prop :=
  p.Makes (Evaluates g ρ) [] fun Γ d => Evaluates g ρ Γ d
    ⟨.vector n (.int width sign), .ofInts fun i => fusedLane width shift (x i) (y i) 0⟩

section

variable (hscene : Scene g gone func)
  (h : g.MultipliesAt func entry args mul ρ lhs rhs product n width sign x y)
include hscene h

/-- The product of what both factors are extended from, moved back, is the product, padded or
not. -/
theorem MultipliesAt.exactPlan {l r : ValueId} {srcTy : Ty} {q : Plan (Operand Source)}
    (hfit : g.SourcesFit ρ [lhs, rhs]) (hbits : bits ∈ [8, 16]) (hwide : (n, width) = (32, 32))
    (hpair : extendedPair? g lhs rhs .extsi = .ok (some (l, r, bits)))
    (hty : g.valueTy l = .ok srcTy)
    (hq : q ∈ [paddedProduct (.value l) (.value r) srcTy 8,
      plainProduct (.value l) (.value r) srcTy]) :
    ExactPlan g ρ (.vector n (.int width sign)) x y
      (movedBack (.vector n (.int width sign)) q) := by
  obtain ⟨rfl, rfl⟩ := Prod.mk.inj hwide
  have hlow : 1 < bits ∧ bits ≤ 16 := by
    rcases List.mem_pair.mp hbits with rfl | rfl <;> decide
  obtain ⟨⟨hl, hlb⟩, hr, hrb⟩ := (extendedPair?_eq_some (by omega)).mp hpair
  obtain ⟨⟨sign', hlty, hsign'⟩, hx, hlhs⟩ :=
    h.source_holds hscene hfit (by simp) h.left hlow.1 (by omega) (by decide) hl hlb
  obtain ⟨-, hy, hrhs⟩ :=
    h.source_holds hscene hfit (by simp) h.right hlow.1 (by omega) (by decide) hr hrb
  obtain rfl := Except.ok.inj (hty.symm.trans hlty)
  -- Either way of multiplying yields the exact products in the accumulator.
  have hyields : q.Makes (Evaluates g ρ) [] (Yielding g ρ
      ⟨.vector 32 (.i (accumulatorWidth bits)), .ofInts fun i => x i * y i⟩) := by
    rcases List.mem_pair.mp hq with rfl | rfl
    · exact paddedProduct_yields hlow.1 (by omega) hsign' hx hy hlhs hrhs (by decide)
    · exact plainProduct_yields hlow.1 (by omega) hx hy hlhs hrhs
  have hsmall : ∀ i, InRange 32 (x i * y i) := fun i =>
    (inRange_product (Nat.lt_of_succ_lt hlow.1) (hx i) (hy i)).mono (by omega)
  exact movedBack_makes_lanes (by decide) (by decide) h.signed hsmall hyields

/-- The product of the factors, padded or not, brought down by a shift below the width of the
accumulator. -/
theorem MultipliesAt.shiftedPlan {s : Nat} {q : Plan (Operand Source)} (hlow : 1 < width)
    (hhigh : width ≤ 32) (hlanes : n ≤ 32) (hs : s < accumulatorWidth width)
    (hq : q ∈ [paddedProduct (.value lhs) (.value rhs) (.vector n (.int width sign)) 8,
      plainProduct (.value lhs) (.value rhs) (.vector n (.int width sign))]) :
    ShiftedPlan g ρ n width s sign x y (shiftedDown (.vector n (.int width sign)) s q) := by
  have hx : ∀ i, InRange width (x i) := fun i => (h.inRange i).1
  have hy : ∀ i, InRange width (y i) := fun i => (h.inRange i).2
  have hlhs := fun Γ => (h.factors_hold hscene Γ).1
  have hrhs := fun Γ => (h.factors_hold hscene Γ).2
  -- Either way of multiplying yields the exact products in the accumulator.
  have hyields : q.Makes (Evaluates g ρ) [] (Yielding g ρ
      ⟨.vector n (.i (accumulatorWidth width)), .ofInts fun i => x i * y i⟩) := by
    rcases List.mem_pair.mp hq with rfl | rfl
    · exact paddedProduct_yields hlow hhigh h.signed hx hy hlhs hrhs (by omega)
    · exact plainProduct_yields hlow hhigh hx hy hlhs hrhs
  have hdown : (fun i => fusedLane width s (x i) (y i) 0) =
      fun i => saturateInt (shiftRounded (x i * y i) s) width sign := funext fun i => by
    rw [← saturateInt_fused (by omega) h.signed, Int.zero_mul, Int.add_zero]
  rw [ShiftedPlan, hdown]
  exact shiftedDown_makes_lanes hlow (by omega) h.signed hs (accumulatorWidth_bounds hhigh).2.2
    (inRange_accumulatedProduct hlow hhigh hx hy) hyields

/-- How a product of one of the four shapes is planned: exactly, if both factors are extended
from narrow lanes, and brought down otherwise. -/
theorem MultipliesAt.intProductPlan_evaluates {p : Plan Step} {shape : VectorShape}
    (hshape : (n, width) ∈ [(32, 8), (32, 16), (16, 32), (32, 32)])
    (hpair : shape.pair = (n, width))
    (hp : intProductPlan g shape lhs rhs (.vector n (.int width sign)) shift = .ok p) :
    (g.NarrowFactors n width lhs rhs → g.SourcesFit ρ [lhs, rhs] →
        ExactPlan g ρ (.vector n (.int width sign)) x y p) ∧
      (¬ g.NarrowFactors n width lhs rhs → ∀ s : Nat, shift = s → s < accumulatorWidth width →
        ShiftedPlan g ρ n width s sign x y p) := by
  have hbounds : 1 < width ∧ width ≤ 32 ∧ n ≤ 32 := by
    simp only [List.mem_cons, Prod.mk.injEq, List.not_mem_nil, or_false] at hshape
    omega
  have shifted : ∀ {q}, shiftedDown (.vector n (.int width sign)) shift q = p →
      q ∈ [paddedProduct (.value lhs) (.value rhs) (.vector n (.int width sign)) 8,
        plainProduct (.value lhs) (.value rhs) (.vector n (.int width sign))] →
      ∀ s : Nat, shift = s → s < accumulatorWidth width → ShiftedPlan g ρ n width s sign x y p := by
    rintro q rfl hq s rfl hs
    exact h.shiftedPlan hscene hbounds.1 hbounds.2.1 hbounds.2.2 hs hq
  unfold intProductPlan at hp
  rw [hpair] at hp
  dsimp only at hp
  by_cases hwide : (n, width) = (32, 32)
  · rw [if_pos hwide] at hp
    obtain ⟨pair, hfound, hp⟩ := bind_eq_ok.mp hp
    -- The factors are narrow exactly if a pair of such a width is found.
    have narrow : g.NarrowFactors n width lhs rhs ↔
        ∃ l r, ∃ bits ∈ [8, 16], pair = some (l, r, bits) := by
      constructor
      · rintro ⟨-, bits, hbits, ⟨l, hl⟩, ⟨r, hr⟩⟩
        have hne : bits ≠ 0 := by
          rintro rfl
          exact absurd hbits (by decide)
        have hpair := (extendedPair?_eq_some hne).mpr ⟨hl, hr⟩
        exact ⟨l, r, bits, hbits, Except.ok.inj (hfound.symm.trans hpair)⟩
      · rintro ⟨l, r, bits, hbits, rfl⟩
        have hne : bits ≠ 0 := by
          rintro rfl
          exact absurd hbits (by decide)
        obtain ⟨hl, hr⟩ := (extendedPair?_eq_some hne).mp hfound
        exact ⟨hwide, bits, hbits, ⟨l, hl⟩, ⟨r, hr⟩⟩
    split at hp
    · next l r =>
      obtain ⟨ty, hty, hp⟩ := bind_eq_ok.mp hp
      obtain rfl := Except.ok.inj hp
      refine ⟨fun _ hfit => ?_, fun hnot => absurd (narrow.mpr ⟨l, r, 8, by simp, rfl⟩) hnot⟩
      exact h.exactPlan hscene hfit (by simp) hwide hfound hty (List.mem_cons_self ..)
    · next l r =>
      obtain ⟨ty, hty, hp⟩ := bind_eq_ok.mp hp
      obtain rfl := Except.ok.inj hp
      refine ⟨fun _ hfit => ?_, fun hnot => absurd (narrow.mpr ⟨l, r, 16, by simp, rfl⟩) hnot⟩
      exact h.exactPlan hscene hfit (by simp) hwide hfound hty (by simp)
    · next hnone8 hnone16 =>
      refine ⟨fun hnarrow => ?_, fun _ => shifted (Except.ok.inj hp) (by simp)⟩
      obtain ⟨l, r, bits, hbits, hpair⟩ := narrow.mp hnarrow
      rcases List.mem_pair.mp hbits with rfl | rfl
      · exact absurd hpair (hnone8 l r)
      · exact absurd hpair (hnone16 l r)
  · rw [if_neg hwide] at hp
    refine ⟨fun hnarrow => absurd hnarrow.1 hwide, fun _ => ?_⟩
    split at hp
    · exact shifted (Except.ok.inj hp) (List.mem_cons_self ..)
    · exact shifted (Except.ok.inj hp) (by simp)

/-- Take any product of two vectors of integers, read with a sign, that the rule for products
rewrites, and any run that gets to it. The product has one of four shapes. If both factors are
sign-extended from narrow lanes of the same width, what the rule has made gives exactly the
product of each two lanes, whatever the shift is. Otherwise, for a shift below the width of the
accumulator, it gives the rounded product, as the nearest integer in range. In either case it
gives no lane more than the product has. -/
theorem mulIToMulElem_lanes (hrun : (mulIToMulElem shift).run g mul sizes =
    .ok (g', sizes', .matched edits)) :
    (n, width) ∈ [(32, 8), (32, 16), (16, 32), (32, 32)] ∧
      (g.NarrowFactors n width lhs rhs → g.SourcesFit ρ [lhs, rhs] →
        g'.MadeToGive ρ edits (.ofInts fun i => x i * y i)) ∧
      (¬ g.NarrowFactors n width lhs rhs →
        ∀ s : Nat, shift = s → s < accumulatorWidth width →
          g'.MadeToGive ρ edits (.ofInts fun i => fusedLane width s (x i) (y i) 0)) := by
  obtain ⟨-, decision, hlook, hperform⟩ := Rule.run_ofDecision_eq_ok.mp hrun
  have hty := h.typed product (by simp)
  rw [resultShape?_fused h.results hty] at hlook
  dsimp only at hlook
  split at hlook
  -- With another shape the rule declines, so it did not match.
  · cases hlook
    cases (Prod.mk.inj hperform).2
  · next hguard =>
    have hshape : (n, width) ∈ [(32, 8), (32, 16), (16, 32), (32, 32)] := by
      simp only [Bool.or_eq_true, not_or, Bool.not_eq_true', Bool.not_eq_false, isNarrowProduct,
        isWideProduct, Bool.and_eq_true, beq_iff_eq] at hguard
      simp only [List.mem_cons, Prod.mk.injEq, List.not_mem_nil, or_false]
      omega
    -- Both operands and the result type are there, so what is left is the plan.
    rw [h.binaryOperands, firstResultType_eq h.results, hty] at hlook
    obtain ⟨_, hfactors, hlook⟩ := bind_eq_ok.mp hlook
    obtain rfl := Except.ok.inj hfactors
    obtain ⟨_, htype, hlook⟩ := bind_eq_ok.mp hlook
    obtain rfl := Except.ok.inj htype
    obtain ⟨p, hp, hlook⟩ := bind_eq_ok.mp hlook
    obtain rfl : Decision.follow p = decision := Except.ok.inj hlook
    obtain ⟨hexact, hshifted⟩ := h.intProductPlan_evaluates hscene hshape rfl hp
    obtain ⟨rfl, hedits⟩ := Prod.mk.inj hperform
    obtain rfl := Outcome.matched.inj hedits
    refine ⟨hshape, fun hnarrow hfit => ?_, fun hnot s hs hlt => ?_⟩
    · exact madeToGive_of_evaluates hscene.consistent (.of_makes (hexact hnarrow hfit))
    · exact madeToGive_of_evaluates hscene.consistent (.of_makes (hshifted hnot s hs hlt))

end

end Graph

/-- The history of a function that extends two vectors of bytes and returns their product. -/
def byteProductHistory : List Edit :=
  [.createBlock [.vector 32 (.i 8), .vector 32 (.i 8)],
    .createOp (Instr.extsi ⟨0⟩ (.vector 32 (.i 32))), .append ⟨0⟩ ⟨0⟩,
    .createOp (Instr.extsi ⟨1⟩ (.vector 32 (.i 32))), .append ⟨0⟩ ⟨1⟩,
    .createOp (Instr.binary .muli ⟨⟨2⟩, .vector 32 (.i 32)⟩ ⟨3⟩), .append ⟨0⟩ ⟨2⟩,
    .createOp (Instr.ret [⟨4⟩]), .append ⟨0⟩ ⟨3⟩, .createRegion [⟨0⟩],
    .createOp (Instr.func "byte_product" ⟨0⟩)]

/-- The graph the history ends with. -/
def byteProductGraph : Graph where
  ops := #[⟨.extsi, [⟨0⟩], [⟨2⟩], .empty, [], some ⟨0⟩⟩,
    ⟨.extsi, [⟨1⟩], [⟨3⟩], .empty, [], some ⟨0⟩⟩,
    ⟨.muli, [⟨2⟩, ⟨3⟩], [⟨4⟩], .empty, [], some ⟨0⟩⟩, ⟨.ret, [⟨4⟩], [], .empty, [], some ⟨0⟩⟩,
    ⟨.func, [], [], .ofList [(AttrName.symName, .str "byte_product")], [⟨0⟩], none⟩]
  values := #[⟨.argument ⟨0⟩ 0, .vector 32 (.i 8)⟩, ⟨.argument ⟨0⟩ 1, .vector 32 (.i 8)⟩,
    ⟨.result ⟨0⟩ 0, .vector 32 (.i 32)⟩, ⟨.result ⟨1⟩ 0, .vector 32 (.i 32)⟩,
    ⟨.result ⟨2⟩ 0, .vector 32 (.i 32)⟩]
  blocks := #[⟨[⟨0⟩, ⟨1⟩], [⟨0⟩, ⟨1⟩, ⟨2⟩, ⟨3⟩], some ⟨0⟩⟩]
  regions := #[⟨[⟨0⟩], some ⟨4⟩⟩]
  chains := #[[⟨⟨0⟩, 0⟩], [⟨⟨1⟩, 0⟩], [⟨⟨2⟩, 0⟩], [⟨⟨2⟩, 1⟩], [⟨⟨3⟩, 0⟩]]

theorem byteProductGraph_history : Edit.replay byteProductHistory = .ok (byteProductGraph, []) := by
  cbv

theorem byteProductGraph_validates : byteProductGraph.Validates ⟨4⟩ :=
  .of_replay byteProductGraph_history rfl (by cbv)

theorem byteProductGraph_scene : Graph.Scene byteProductGraph [] ⟨4⟩ := by
  refine (Graph.Upright.of_replay byteProductGraph_history (Graph.hasValue_of_uses (Nat.le_refl 5))
    (by decide) byteProductGraph_validates fun op hop => ?_).scene
  have hlist : byteProductGraph.nested ⟨4⟩ = [⟨0⟩, ⟨1⟩, ⟨2⟩, ⟨3⟩] := by decide
  have hmem := hlist ▸ Graph.mem_nested_iff.mpr hop
  have hmade : byteProductGraph.Made op := by
    simp only [List.mem_cons, List.not_mem_nil, or_false] at hmem
    rcases hmem with rfl | rfl | rfl | rfl
    · exact ⟨_, .extsi ⟨0⟩ (.vector 32 (.i 32)), rfl, rfl, rfl, rfl, rfl⟩
    · exact ⟨_, .extsi ⟨1⟩ (.vector 32 (.i 32)), rfl, rfl, rfl, rfl, rfl⟩
    · exact ⟨_, .binary .muli ⟨2⟩ ⟨3⟩ (by decide), rfl, rfl, rfl, rfl, rfl⟩
    · exact ⟨_, .ret [⟨4⟩], rfl, rfl, rfl, rfl, rfl⟩
  exact hmade.wellShaped

/-- The least bytes times themselves, with the largest shift there is: the product is exact. -/
theorem mulIToMulElem_lanes_bytes : ∃ g' edits ρ,
    (mulIToMulElem 31).run byteProductGraph ⟨2⟩ .empty = .ok (g', .empty, .matched edits) ∧
      byteProductGraph.MultipliesAt ⟨4⟩ ⟨0⟩ [.ofInts fun _ : Fin 32 => -128,
        .ofInts fun _ : Fin 32 => -128] ⟨2⟩ ρ ⟨2⟩ ⟨3⟩ ⟨4⟩ 32 32 .signless (fun _ => -128)
          (fun _ => -128) ∧
      g'.MadeToGive ρ edits (.ofInts fun _ : Fin 32 => 16384) := by
  have hrun : ∃ r, (mulIToMulElem 31).run byteProductGraph ⟨2⟩ .empty =
      .ok (((Decision.rewrite r).perform byteProductGraph).1, .empty,
        ((Decision.rewrite r).perform byteProductGraph).2) :=
    ⟨_, Rule.run_ofDecision (by rfl) _⟩
  obtain ⟨r, hrun⟩ := hrun
  -- Both arguments hold the least bytes, and so do their extensions.
  let least : RtValue := .ofInts fun _ : Fin 32 => -128
  let ρ₀ : Env := Env.empty.bindAll [(⟨0⟩, least), (⟨1⟩, least)]
  have hleft : byteProductGraph.evalOp ρ₀ ⟨0⟩ = .ok least := by rfl
  have hright : byteProductGraph.evalOp (ρ₀.bind ⟨2⟩ least) ⟨1⟩ = .ok least := by rfl
  have hevaluated : byteProductGraph.evalOps [⟨0⟩, ⟨1⟩] ρ₀ =
      .ok ((ρ₀.bind ⟨2⟩ least).bind ⟨3⟩ least) :=
    Graph.evalOps_cons_eq_ok.mpr ⟨least, ⟨2⟩, [], hleft, rfl, Graph.evalOps_singleton hright rfl⟩
  have hmul : byteProductGraph.MultipliesAt ⟨4⟩ ⟨0⟩ [least, least] ⟨2⟩
      ((ρ₀.bind ⟨2⟩ least).bind ⟨3⟩ least) ⟨2⟩ ⟨3⟩ ⟨4⟩ 32 32 .signless (fun _ => -128)
        (fun _ => -128) :=
    { arrives := ⟨⟨rfl, ⟨0⟩, rfl, rfl⟩, rfl, [⟨0⟩, ⟨1⟩], [⟨3⟩], rfl, hevaluated⟩
      kind := rfl
      operands := ⟨[], rfl⟩
      results := rfl
      typed := by decide
      signed := by decide
      left := rfl
      right := rfl
      inRange := fun _ => by decide }
  have hnarrow : byteProductGraph.NarrowFactors 32 32 ⟨2⟩ ⟨3⟩ :=
    ⟨rfl, 8, by simp, ⟨⟨0⟩, rfl, rfl⟩, ⟨⟨1⟩, rfl, rfl⟩⟩
  have hfits : least.Fits (.vector 32 (.i 8)) :=
    fits_ofInts (by decide) (by decide) (by decide) fun _ => by decide
  have hsources : byteProductGraph.SourcesFit ((ρ₀.bind ⟨2⟩ least).bind ⟨3⟩ least) [⟨2⟩, ⟨3⟩] := by
    have signed : (Ty.vector 32 (.i 8)).SignedLanes := by
      rintro shape hshape
      cases hshape
      exact ⟨8, .signless, rfl, by decide⟩
    intro v hv source hsource
    rcases List.mem_pair.mp hv with rfl | rfl
    · cases hsource
      exact ⟨signed, fun s hs => Option.some.inj hs ▸ hfits⟩
    · cases hsource
      exact ⟨signed, fun s hs => Option.some.inj hs ▸ hfits⟩
  obtain ⟨-, hexact, -⟩ := Graph.mulIToMulElem_lanes byteProductGraph_scene hmul hrun
  exact ⟨_, _, _, hrun, hmul, hexact hnarrow hsources⟩

end SimdLowering
