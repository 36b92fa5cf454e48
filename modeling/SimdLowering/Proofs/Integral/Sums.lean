/-
The rules for sums and differences compute what they replace.

On the first generation one lanewise instruction is put for another. On the second the
result may come about in the accumulator, whose lanes have thirty-two bits: there each lane
is the right one modulo two to the thirty-two, and the move back brings it into the range of
the type, which undoes whatever the detour did. Sixteen-bit floats go through single
precision, and rounding to sixteen bits starts there anyway.

The one way that saturates is taken for a single operand that was extended from sixteen
bits, and integer functions have no such sum.
-/
import SimdLowering.Proofs.Integral.Stage
import SimdLowering.Proofs.Rules.AddSub

set_option autoImplicit false

namespace SimdLowering

namespace Rules

open SimdLowering.Graph SimdLowering.Frame

variable {gen : Generation} {g : Graph} {gone : List OpId} {func op : OpId} {entry : BlockId}
  {lhs rhs old v source : ValueId} {args ans : List RtValue} {ρ : Env} {Γ : List Known}
  {ka kb k : Known} {l r o : Operand Source} {a b : Source} {ty : Ty} {x : RtValue} {sum : Bool}
  {shape : VectorShape} {L R : List Lane} {kind : OpKind} {bits : Nat}

/-- What the rules for a kind do to two lanes. -/
def sumLane (sum : Bool) : Lane → Lane → Lane := if sum then Lane.add else Lane.sub

/-- The kinds of integer sums and differences. -/
def sumKinds : List OpKind := [.addi, .subi]

theorem lanewiseFunction_of_sum (hk : kind ∈ sumKinds) (ty : Ty) :
    lanewiseFunction ty kind = some (sumLane (isSum kind)) := by
  rcases List.mem_pair.mp hk with rfl | rfl <;> rfl

theorem congruent_sumLane {c d c' d' : Lane} (h : Lane.Congruent 32 c c')
    (h' : Lane.Congruent 32 d d') : Lane.Congruent 32 (sumLane sum c d) (sumLane sum c' d') := by
  cases sum
  · exact h.sub (by decide) h'
  · exact h.add (by decide) h'

/-! ## The plans -/

theorem evaluates_elemStep (ho : Yielding g ρ ka Γ o) (hb : b.Holds g ρ Γ kb)
    (hty : ka.ty = k.ty) (hla : laneCount k.ty ≤ ka.lanes.length)
    (hlb : laneCount k.ty ≤ kb.lanes.length)
    (h : shapeAs k.ty ((List.zipWith (sumLane sum) ka.lanes kb.lanes).take (laneCount k.ty)) =
      some k.value) : Evaluates g ρ Γ (elemStep sum o b) k := by
  cases sum
  · exact evaluates_lanewise (f := Lane.sub) rfl ho hb hty hla hlb (fun _ => rfl) h
  · exact evaluates_lanewise (f := Lane.add) rfl ho hb hty hla hlb (fun _ => rfl) h

theorem evaluates_elemStep_vector (ho : Yielding g ρ ka Γ o) (hb : b.Holds g ρ Γ kb)
    (hv : ka.ty.isVector = true) (hw : (ElemKind.ofTy ka.ty).wraps = true)
    (hla : laneCount ka.ty ≤ ka.lanes.length) (hlb : laneCount ka.ty ≤ kb.lanes.length) :
    Evaluates g ρ Γ (elemStep sum o b) ⟨ka.ty, .vector
      (((List.zipWith (sumLane sum) ka.lanes kb.lanes).take (laneCount ka.ty)).map
        (Lane.normalize (.ofTy ka.ty)))⟩ :=
  evaluates_elemStep ho hb rfl hla hlb (shapeAs_of_isVector hv (.inr hw))

/-- Instructions without a selection read their lanes in order. -/
theorem ofAttrs_standard {kind : OpKind} :
    Shuffle.ofAttrs (Shuffle.standard.applyTo false (Draft.pureOp kind [a, b] ty)).attrs =
      .standard := by
  change Shuffle.ofAttrs (AttrDict.ofList Shuffle.standard.baseAttrs) = .standard
  decide

theorem evaluates_shuffled (ha : a.Holds g ρ Γ ka) (hb : b.Holds g ρ Γ kb)
    (hla : laneCount ty ≤ ka.lanes.length) (hlb : laneCount ty ≤ kb.lanes.length)
    (h : shapeAs ty ((List.zipWith (sumLane sum) ka.lanes kb.lanes).take (laneCount ty)) =
      some x) :
    Evaluates g ρ Γ ((if sum then Instr.add else Instr.sub) ty a b .standard) ⟨ty, x⟩ := by
  cases sum
  · refine .of_operands (d := Instr.sub ty a b .standard) rfl rfl rfl (.cons ha (.cons hb .nil)) ?_
    exact (eval_sub ofAttrs_standard).trans ((lanewise_ofKnown ..).mpr ⟨hla, hlb, h⟩)
  · refine .of_operands (d := Instr.add ty a b .standard) rfl rfl rfl (.cons ha (.cons hb .nil)) ?_
    exact (eval_add ofAttrs_standard).trans ((lanewise_ofKnown ..).mpr ⟨hla, hlb, h⟩)

/-- A sum of thirty-two-bit lanes that are right but for the range, cast to the type. -/
theorem combineAndCast_evaluates {sign sign' : Signedness} (hl : Yielding g ρ ka Γ l)
    (hr : Yielding g ρ kb Γ r) (hka : ElemKind.ofTy ka.ty = .int 32 sign)
    (hvec : ka.ty.isVector = true) (hn : laneCount ka.ty = laneCount ty)
    (hty : ElemKind.ofTy ty = .int 32 sign')
    (hL : List.Forall₂ (Lane.Congruent 32) ka.lanes L)
    (hR : List.Forall₂ (Lane.Congruent 32) kb.lanes R)
    (hla : laneCount ty ≤ L.length) (hlb : laneCount ty ≤ R.length)
    (h : shapeAs ty ((List.zipWith (sumLane sum) L R).take (laneCount ty)) = some x) :
    (combineAndCast sum ty l r).Makes (Evaluates g ρ) Γ fun Γ d => Evaluates g ρ Γ d ⟨ty, x⟩ := by
  have hka' : laneCount ka.ty ≤ ka.lanes.length := by rw [hn, hL.length_eq]; exact hla
  have hkb' : laneCount ka.ty ≤ kb.lanes.length := by rw [hn, hR.length_eq]; exact hlb
  have hw : (ElemKind.ofTy ka.ty).wraps = true := hka ▸ ElemKind.wraps_int (by decide)
    (by decide) sign
  refine (evaluates_elemStep_vector hl hr.1 hvec hw hka' hkb').then fun o ho =>
    (evaluates_cast ho.1 false ?_).ends
  rw [← h]
  refine shapeAs_congr ?_
  rw [hty, hka]
  -- Lane by lane, both sums have the same residue.
  have hpairs : List.Forall₂ (Lane.Congruent 32)
      ((List.zipWith (sumLane sum) ka.lanes kb.lanes).take (laneCount ka.ty))
      ((List.zipWith (sumLane sum) L R).take (laneCount ty)) := by
    rw [hn]
    exact List.forall₂_take _ (forall₂_zipWith (fun _ _ _ _ => congruent_sumLane) hL hR)
  change List.map _ (List.map _ _) = _
  rw [← List.forall₂_eq_eq_eq, List.map_map, List.forall₂_map_left_iff,
    List.forall₂_map_right_iff]
  refine hpairs.imp fun c d hcd => ?_
  obtain ⟨m, n, rfl, rfl, hmn⟩ := hcd
  exact ((Lane.congruent_normalize m 32 sign).trans ⟨m, n, rfl, rfl, hmn⟩).normalize (by decide)

/-- The value is the sum or difference of two values that fit its type. -/
structure IsSumOf (sum : Bool) (ka kb k : Known) : Prop where
  leftTy : ka.ty = k.ty
  rightTy : kb.ty = k.ty
  leftFits : ka.Fits
  rightFits : kb.Fits
  leftLanes : laneCount k.ty ≤ ka.lanes.length
  rightLanes : laneCount k.ty ≤ kb.lanes.length
  shaped : shapeAs k.ty ((List.zipWith (sumLane sum) ka.lanes kb.lanes).take (laneCount k.ty)) =
    some k.value

section Plans

variable (hs : IsSumOf sum ka kb k)
include hs

theorem elemStep_evaluates (hl : Yielding g ρ ka Γ l) (hb : b.Holds g ρ Γ kb) :
    Evaluates g ρ Γ (elemStep sum l b) k :=
  evaluates_elemStep hl hb hs.leftTy hs.leftLanes hs.rightLanes hs.shaped

/-- Unless there are no lanes, those of the sum were brought into range, and the operands have the
same type. -/
theorem operands_wrap (hshape : k.ty.vectorShape = some shape) :
    (ka.lanes = [] ∨ (ElemKind.ofTy k.ty).wraps = true) ∧
      (kb.lanes = [] ∨ (ElemKind.ofTy k.ty).wraps = true) := by
  have hla : ka.lanes.length = shape.lanes := hs.leftFits.length shape (hs.leftTy ▸ hshape)
  have hlb : kb.lanes.length = shape.lanes := hs.rightFits.length shape (hs.rightTy ▸ hshape)
  rcases wraps_of_shapeAs hs.shaped with hnone | hw
  · have hlen := congrArg List.length hnone
    rw [List.length_take, List.length_zipWith, laneCount_eq hshape, hla, hlb,
      List.length_nil] at hlen
    exact ⟨.inl (List.eq_nil_of_length_eq_zero (by omega)),
      .inl (List.eq_nil_of_length_eq_zero (by omega))⟩
  · exact ⟨.inr hw, .inr hw⟩

/-- Views hold the same lanes, and what was brought into range once is in range. -/
theorem throughViews_evaluates (hshape : k.ty.vectorShape = some shape) (ha : a.Holds g ρ Γ ka)
    (hb : b.Holds g ρ Γ kb) :
    (throughViews sum k.ty a b).Makes (Evaluates g ρ) Γ fun Γ d => Evaluates g ρ Γ d k := by
  have hv := isVector_of_vectorShape hshape
  obtain ⟨hwa, hwb⟩ := operands_wrap hs hshape
  have hla : shapeAs k.ty ka.lanes = some (.vector ka.lanes) := by
    rw [← hs.leftTy] at hv hwa ⊢
    exact shapeAs_of_fits hs.leftFits hv hwa
  have hlb : shapeAs k.ty kb.lanes = some (.vector kb.lanes) := by
    rw [← hs.rightTy] at hv hwb ⊢
    exact shapeAs_of_fits hs.rightFits hv hwb
  refine (evaluates_cast ha true hla).then fun l hl => ?_
  refine (evaluates_cast hb.snoc true hlb).then fun r hr => ?_
  have hstep : Evaluates g ρ _ (elemStep sum l r.ref) k :=
    evaluates_elemStep hl.snoc hr.1 rfl hs.leftLanes hs.rightLanes hs.shaped
  exact hstep.then fun o ho => (evaluates_cast ho.1 false (shapeAs_lanes hs.shaped)).ends

/-- Sixteen-bit floats are added in single precision and brought back. -/
theorem oneNarrow_evaluates {n : Nat} {format : FloatFormat}
    (hty : k.ty = .vector n (.float format))
    (hwidth : format.width = 16) (ha : a.Holds g ρ Γ ka) (hb : b.Holds g ρ Γ kb) :
    (oneNarrow sum k.ty (accumulatorOf k.ty) true a b).Makes (Evaluates g ρ) Γ
      fun Γ d => Evaluates g ρ Γ d k := by
  have hacc : accumulatorOf k.ty = .vector n (.float .f32) := by
    rw [hty]
    cases format <;> rfl
  have hkind : ElemKind.ofTy k.ty = .float format := by rw [hty]; rfl
  have hcount : laneCount (.vector n (.float .f32)) = laneCount k.ty := by rw [hty]; rfl
  -- The lanes are in the range of single precision already.
  have hsingle : ∀ {c : Known}, c.Fits → c.ty = k.ty →
      shapeAs (.vector n (.float .f32)) c.lanes = some (.vector c.lanes) := by
    intro c hc hcty
    refine shapeAs_of_fits (x := c.value) ⟨fun d hd => ?_, fun s hs => ?_⟩ rfl (.inr rfl)
    · have hd := hc.lanes d hd
      rw [hcty, hkind] at hd
      exact Lane.normalize_single hwidth hd
    · obtain rfl := Option.some.inj hs
      exact hc.length ⟨n, .float format, format.width, true⟩ (by rw [hcty, hty]; rfl)
  rw [hacc]
  refine (evaluates_floatUps ha 0 rfl (hsingle hs.leftFits hs.leftTy)).then fun l hl => ?_
  refine (evaluates_floatUps hb.snoc 0 rfl (hsingle hs.rightFits hs.rightTy)).then fun r hr => ?_
  refine (evaluates_elemStep_vector hl.snoc hr.1 rfl rfl (hcount ▸ hs.leftLanes)
    (hcount ▸ hs.rightLanes)).then fun o ho => (evaluates_floatSrs ho.1 0 hkind ?_).ends
  rw [← hs.shaped, ← hcount]
  refine shapeAs_congr ?_
  rw [hkind]
  change List.map _ (List.map _ _) = _
  rw [List.map_map]
  exact List.map_congr_left fun d _ => Lane.normalize_of_single hwidth d

end Plans

/-! ## Operands that were extended -/

/-- Moved into the accumulator, the lanes of an integer have the residues they have when it
is extended to thirty-two bits. -/
theorem accumulator_congruent {lanes : List Lane} {sign sign' : Signedness} {width : Nat}
    (hfit : ∀ c ∈ lanes, c.normalize (.int width sign') = c) :
    List.Forall₂ (Lane.Congruent 32)
      ((lanes.map fun c => Lane.int (wrap128 c.asInt)).map (Lane.normalize (.int 32 .signless)))
      (lanes.map (Lane.normalize (.int 32 sign))) := by
  rw [List.map_map, List.forall₂_map_left_iff, List.forall₂_map_right_iff]
  refine List.forall₂_same.mpr fun c hc => ?_
  have hint := (Lane.eq_int_of_normalize (hfit c hc)).1
  rw [hint]
  refine (Lane.congruent_normalize _ 32 .signless).trans (.trans ?_
    (Lane.congruent_normalize _ 32 sign).symm)
  exact ⟨_, _, rfl, rfl, wrap128_emod (by decide)⟩

/-- The source of an extension, as far as a sum has to know it. Its lanes are integers in the range
of its type, as many as those of the value, and the value holds them in its own range. -/
structure ExtendedLanes (g : Graph) (ρ : Env) (v source : ValueId) : Prop where
  holds : ∀ Γ, (Source.value source).Holds g ρ Γ (g.known ρ source)
  fits : (g.known ρ source).Fits
  noFloat : (g.value source).ty.elementType.isFloat = false
  sameLanes : (g.value source).ty.SameLanes (g.value v).ty
  shaped : shapeAs (g.value v).ty (g.known ρ source).lanes = some (g.known ρ v).value

/-- The source is a vector of as many integers. -/
theorem ExtendedLanes.exists_sourceTy (h : ExtendedLanes g ρ v source)
    (hshape : (g.value v).ty.vectorShape = some shape)
    (hwidth : ((g.value source).ty.vectorShape.map VectorShape.elemBits).getD 0 = bits)
    (hbits : bits ≠ 0) : ∃ sign, (g.value source).ty = .vector shape.lanes (.int bits sign) := by
  have hlanes := h.sameLanes
  rw [Ty.SameLanes, hshape] at hlanes
  obtain ⟨narrow, hnarrow, hn⟩ := Option.map_eq_some_iff.mp hlanes
  obtain ⟨-, -, hty, -⟩ := ofTy_eq_of_vectorShape hnarrow
  have hnofloat := h.noFloat
  rw [hnarrow] at hwidth
  rw [hty] at hnofloat hnarrow ⊢
  rw [hn] at hnarrow ⊢
  -- Its lanes are integers: it is neither of floats nor of anything else that has a shape.
  cases helem : narrow.elem with
  | int width sign =>
    rw [helem] at hnarrow
    obtain rfl := Option.some.inj hnarrow
    obtain rfl : width = bits := hwidth
    exact ⟨sign, rfl⟩
  | float format =>
    rw [helem] at hnofloat
    cases hnofloat
  | _ =>
    rw [helem] at hnarrow
    cases hnarrow

/-- An extension of narrow lanes is moved into the accumulator as if it had been done there. -/
theorem ups_evaluates (h : ExtendedLanes g ρ v source)
    (hwidth : ((g.value source).ty.vectorShape.map VectorShape.elemBits).getD 0 = bits)
    (hbits : isNarrowWidth bits = true) (hshape : (g.value v).ty.vectorShape = some shape)
    (hwide : shape.elemBits = 32) (hint : shape.isFloat = false) :
    accumulatorOf (g.value source).ty = .vector shape.lanes (.i 32) ∧
      ∃ y : RtValue, (∀ Γ, Evaluates g ρ Γ
        (Instr.ups (.vector shape.lanes (.i 32)) (.value source) 0)
        ⟨.vector shape.lanes (.i 32), y⟩) ∧
      List.Forall₂ (Lane.Congruent 32) y.lanes (g.known ρ v).lanes := by
  have hsmall : bits = 8 ∨ bits = 16 := by
    simpa only [isNarrowWidth, Bool.or_eq_true, beq_iff_eq] using hbits
  obtain ⟨sign, hsign⟩ := h.exists_sourceTy hshape hwidth (by omega)
  obtain ⟨-, -, -, hkind⟩ := ofTy_eq_of_vectorShape hshape
  obtain ⟨sign', hsign'⟩ := hkind hint
  rw [hwide] at hsign'
  have hvlanes := (lanes_of_shapeAs h.shaped).2 (isVector_of_vectorShape hshape)
  refine ⟨?_, .vector (((g.known ρ source).lanes.map fun c => Lane.int (wrap128 c.asInt)).map
    (Lane.normalize (.int 32 .signless))), fun Γ => ?_, ?_⟩
  · rw [hsign]
    exact congrArg (fun w => Ty.vector shape.lanes (.i w)) (if_pos (by omega))
  · exact evaluates_ups (h.holds Γ) rfl (shapeAs_of_isVector rfl (.inr rfl))
  · change List.Forall₂ _ (List.map _ _) _
    rw [show (g.known ρ v).lanes = _ from hvlanes, hsign']
    have hfit : ∀ c ∈ (g.known ρ source).lanes, c.normalize (.int bits sign) = c := by
      have := h.fits.lanes
      rwa [show (g.known ρ source).ty = _ from hsign] at this
    exact accumulator_congruent hfit

/-- If one operand is extended from some width and the other is not extended at all, then one is
extended from this width and the other is not. -/
theorem not_widenedFrom_iff {root : OpId} (h : Scene g gone root) {onLeft : Bool}
    (he : ExtendedFrom g root op (if onLeft then lhs else rhs) source .extsi bits)
    (hother : ∃ x, g.extensionSource? (if onLeft then rhs else lhs) .extsi = .ok x ∧ x = none) :
    ¬ (g.WidenedFrom bits lhs ↔ g.WidenedFrom bits rhs) := by
  obtain ⟨x, hx, rfl⟩ := hother
  have hwidened : g.WidenedFrom bits (if onLeft then lhs else rhs) := ⟨source, he.found h⟩
  have hnot : ¬ g.WidenedFrom bits (if onLeft then rhs else lhs) := by
    rintro ⟨s, hs, -⟩
    rw [hx] at hs
    cases hs
  intro hiff
  cases onLeft
  · exact hnot (hiff.mpr hwidened)
  · exact hnot (hiff.mp hwidened)

/-! ## The rules -/

/-- A vector of thirty-two-bit integers that fits has the residues of its own lanes. -/
theorem forall₂_congruent_self {k : Known} (hk : k.Fits) {sign : Signedness}
    (hkind : ElemKind.ofTy k.ty = .int 32 sign) :
    List.Forall₂ (Lane.Congruent 32) k.lanes k.lanes := by
  have hfit : ∀ c ∈ k.lanes, c.normalize (.int 32 sign) = c := by
    rw [← hkind]
    exact hk.lanes
  exact List.forall₂_same.mpr fun c hc => Lane.congruent_self (hfit c hc)

/-- However an integer sum is planned, the plan computes it, unless one operand is extended from
sixteen bits and the other is not extended. -/
theorem IntSum.evaluates {p : Plan Step} (hs : IsSumOf sum (g.known ρ lhs) (g.known ρ rhs) k)
    (hshape : k.ty.vectorShape = some shape) (hint : shape.isFloat = false)
    (holds : ∀ v ∈ [lhs, rhs], ∀ Γ, (Source.value v).Holds g ρ Γ (g.known ρ v))
    (hext : ∀ v ∈ [lhs, rhs], ∀ source bits, ExtendedFrom g func op v source .extsi bits →
      ExtendedLanes g ρ v source)
    (hone : ∀ (onLeft : Bool) (source : ValueId), shape.pair = (16, 32) →
      ExtendedFrom g func op (if onLeft then lhs else rhs) source .extsi 16 →
      ¬ ∃ x, g.extensionSource? (if onLeft then rhs else lhs) .extsi = .ok x ∧ x = none)
    (hp : IntSum g func op sum shape k.ty lhs rhs p) :
    p.Makes (Evaluates g ρ) [] fun Γ d => Evaluates g ρ Γ d k := by
  have hv := isVector_of_vectorShape hshape
  have hl : (g.value lhs).ty = k.ty := hs.leftTy
  have hr : (g.value rhs).ty = k.ty := hs.rightTy
  have holdL := holds lhs (by simp)
  have holdR := holds rhs (by simp)
  obtain ⟨-, -, -, hkind⟩ := ofTy_eq_of_vectorShape hshape
  obtain ⟨sign, hsign⟩ := hkind hint
  cases hp with
  | direct => exact (elemStep_evaluates hs ⟨holdL _, rfl⟩ (holdR _)).ends
  | views => exact (throughViews_evaluates hs hshape (holdL []) (holdR []) :)
  -- Both operands come from narrow lanes: each goes up by itself.
  | @both ls rs bits hwide hnarrow hls hrs =>
    rw [hwide] at hsign
    obtain ⟨hacc, y, hy, hyl⟩ := ups_evaluates (hext lhs (by simp) ls bits hls) hls.width hnarrow
      (hl ▸ hshape) hwide hint
    obtain ⟨-, z, hz, hzr⟩ := ups_evaluates (hext rhs (by simp) rs bits hrs) hrs.width hnarrow
      (hr ▸ hshape) hwide hint
    rw [hacc]
    refine (hy []).then fun l hyield => (hz _).then fun r hyield' => ?_
    exact combineAndCast_evaluates hyield.snoc hyield' rfl rfl (laneCount_eq hshape).symm hsign
      hyl hzr hs.leftLanes hs.rightLanes hs.shaped
  -- One comes from eight bits and goes up, the other one is viewed as it is.
  | @one onLeft source hwide hsource =>
    rw [hwide] at hsign
    have hwraps : ∀ {lanes : List Lane}, lanes = [] ∨ (ElemKind.ofTy k.ty).wraps = true :=
      fun {_} => .inr (hsign ▸ ElemKind.wraps_int (by decide) (by decide) sign)
    cases onLeft
    · obtain ⟨hacc, z, hz, hzr⟩ := ups_evaluates (hext rhs (by simp) source 8 hsource)
        hsource.width rfl (hr ▸ hshape) hwide hint
      rw [hacc]
      refine (hz []).then fun r hyield' => ?_
      refine (evaluates_cast (holdL _) true (shapeAs_of_fits (hl ▸ hs.leftFits) hv hwraps)).then
        fun l hyield => ?_
      have hself := forall₂_congruent_self hs.leftFits (hl ▸ hsign)
      exact combineAndCast_evaluates hyield hyield'.snoc hsign hv rfl hsign hself hzr hs.leftLanes
        hs.rightLanes hs.shaped
    · obtain ⟨hacc, y, hy, hyl⟩ := ups_evaluates (hext lhs (by simp) source 8 hsource)
        hsource.width rfl (hl ▸ hshape) hwide hint
      rw [hacc]
      refine (hy []).then fun l hyield => ?_
      refine (evaluates_cast (holdR _) true (shapeAs_of_fits (hr ▸ hs.rightFits) hv hwraps)).then
        fun r hyield' => ?_
      have hself := forall₂_congruent_self hs.rightFits (hr ▸ hsign)
      exact combineAndCast_evaluates hyield.snoc hyield' rfl rfl (laneCount_eq hshape).symm hsign
        hyl hself hs.leftLanes hs.rightLanes hs.shaped
  -- One from sixteen bits alone was excluded.
  | narrow hwide hsource hother => exact (hone _ _ hwide hsource hother).elim

/-! ## In an integer function -/

section

variable (h : g.IntegralStage gen gone func entry args ans ρ op old)
include h

/-- What an integer sum or difference computes. -/
theorem isSumOf (hk : g.kind op ∈ sumKinds) (hops : g.operands op = [lhs, rhs])
    (hl : (g.value lhs).ty = (g.value old).ty) (hr : (g.value rhs).ty = (g.value old).ty) :
    IsSumOf (isSum (g.kind op)) (g.known ρ lhs) (g.known ρ rhs) (g.known ρ old) := by
  obtain ⟨⟨hla, hlb, -⟩, hshaped⟩ := h.eval_lanewise hops (lanewiseFunction_of_sum hk _)
  exact ⟨hl, hr, h.fits_operand (by simp [hops]), h.fits_operand (by simp [hops]), hla, hlb,
    hshaped⟩

/-- What its operands are extended from. -/
theorem extendedLanes (hv : v ∈ g.operands op) (he : ExtendedFrom g func op v source .extsi bits) :
    ExtendedLanes g ρ v source := by
  obtain ⟨d, hd, hslot⟩ := he.reaches
  have hstage := h.enter hd (h.atHand hv) rfl nofun nofun
  obtain ⟨hfits, hnofloat, hlanes, heval⟩ := hstage.extsi hd.kind hslot
  exact ⟨fun Γ => h.toStage.holds he.readable, hfits, hnofloat, hlanes, heval⟩

/-- A sum with a single operand that was extended from sixteen bits is not there. -/
theorem not_extendedFrom (hk : g.kind op ∈ sumKinds) (hops : g.operands op = [lhs, rhs])
    {onLeft : Bool} (he : ExtendedFrom g func op (if onLeft then lhs else rhs) source .extsi 16) :
    ¬ ∃ x, g.extensionSource? (if onLeft then rhs else lhs) .extsi = .ok x ∧ x = none :=
  fun hother =>
    not_widenedFrom_iff h.scene he hother (h.integral.widths (List.mem_pair.mp hk) lhs rhs hops)

/-- Nothing is extended from other floats here. -/
theorem not_extendedFrom_extf (hv : v ∈ g.operands op)
    (he : ExtendedFrom g func op v source .extf bits) : False := by
  have hfound := (he.found h.scene).1
  unfold extensionSource? at hfound
  rw [h.definedBy?_eq_none (k := .extf) rfl (by decide) hv] at hfound
  cases hfound

/-- However a float sum is planned, the plan computes it. -/
theorem FloatSum.evaluates {p : Plan Step} (hk : g.kind op ∈ sumKinds)
    (hops : g.operands op = [lhs, rhs]) (hl : (g.value lhs).ty = (g.value old).ty)
    (hr : (g.value rhs).ty = (g.value old).ty) (hshape : (g.value old).ty.vectorShape = some shape)
    (hfloat : shape.isFloat = true)
    (hp : FloatSum g func op (isSum (g.kind op)) shape (g.value old).ty lhs rhs p) :
    p.Makes (Evaluates g ρ) [] fun Γ d => Evaluates g ρ Γ d (g.known ρ old) := by
  have hs := isSumOf h hk hops hl hr
  have hlmem : lhs ∈ g.operands op := by simp [hops]
  have hrmem : rhs ∈ g.operands op := by simp [hops]
  have holdL : (Source.value lhs).Holds g ρ [] (g.known ρ lhs) := h.toStage.holds (h.atHand hlmem)
  have holdR : (Source.value rhs).Holds g ρ [] (g.known ρ rhs) := h.toStage.holds (h.atHand hrmem)
  -- Among integers nothing is extended from floats, so two cases do not occur.
  cases hp with
  | views => exact (throughViews_evaluates hs hshape holdL holdR :)
  | both _ hls _ => exact (not_extendedFrom_extf h hlmem hls).elim
  | @one onLeft _ _ _ hsource =>
    cases onLeft
    · exact (not_extendedFrom_extf h hrmem hsource).elim
    · exact (not_extendedFrom_extf h hlmem hsource).elim
  | narrow hwidth =>
    obtain ⟨format, hty, hformat⟩ := exists_format_of_vectorShape hshape hfloat
    exact (oneNarrow_evaluates hs hty (hformat.trans hwidth) holdL holdR :)

/-- The rule of the second generation computes the sums and differences it replaces. -/
theorem addSubToElem_computes (hk : g.kind op ∈ sumKinds) :
    (addSubToElem (g.kind op)).ComputesAt g op ρ (g.known ρ old) := by
  obtain ⟨hbinary, hroot⟩ : g.kind op ∈ integralBinaries ∧
    g.kind op ∈ lanewiseRoots (g.kind op) := by
    rcases List.mem_pair.mp hk with e | e <;> rw [e] <;> decide
  obtain ⟨lhs, rhs, hops, hl, hr⟩ := h.binary hbinary
  obtain ⟨look, hrule, hlook⟩ := exists_addSubToElem_look (g.kind op)
  rw [hrule]
  refine .ofDecision h.scene.consistent
    (((hlook g gone func op h.scene h.inside hroot).mono ?_).unless)
  rintro d (rfl | ⟨shape, lhs', rhs', old', p, hp, rfl⟩)
  · trivial
  -- The rule has found the operands and the result that there are.
  obtain ⟨hold, hleft, hright, -, -, hshape, hplanned⟩ := hp
  rw [hops] at hleft hright
  obtain rfl : lhs = lhs' := Option.some.inj hleft
  obtain rfl : rhs = rhs' := Option.some.inj hright
  obtain rfl : old = old' := List.singleton_inj.mp (h.hold.symm.trans hold)
  rcases hplanned with ⟨hfloat, -, hsum⟩ | ⟨hint, -, hsum⟩
  · exact .of_makes (FloatSum.evaluates h hk hops hl hr hshape hfloat hsum)
  · have hmem : ∀ {v}, v ∈ [lhs, rhs] → v ∈ g.operands op := fun hv => hops ▸ hv
    exact .of_makes (IntSum.evaluates (isSumOf h hk hops hl hr) hshape hint
      (fun v hv Γ => h.toStage.holds (h.atHand (hmem hv)))
      (fun v hv source bits he => extendedLanes h (hmem hv) he)
      (fun onLeft source _ he => not_extendedFrom h hk hops he) hsum)

/-- The rule of the first generation computes the sums and differences it replaces. -/
theorem shuffledAddSub_computes (hk : g.kind op ∈ sumKinds) :
    (shuffledAddSub (g.kind op)).ComputesAt g op ρ (g.known ρ old) := by
  refine .ofDecision h.scene.consistent (Yields.unless ?_)
  have hbinary : g.kind op ∈ integralBinaries := by
    rcases List.mem_pair.mp hk with e | e <;> rw [e] <;> decide
  obtain ⟨lhs, rhs, hops, hl, hr⟩ := h.binary hbinary
  have hlmem : lhs ∈ g.operands op := by simp [hops]
  have hrmem : rhs ∈ g.operands op := by simp [hops]
  have hs := isSumOf h hk hops hl hr
  split
  · exact .ok trivial
  rw [binaryOperands_eq hops]
  refine Yields.bind (.ok rfl) fun p hp => ?_
  subst hp
  dsimp only
  -- There are no products to fuse with, so the rule has its plan either way.
  rw [h.macOperands?_eq_none hlmem hrmem, firstResultType_eq h.hold]
  have hl := h.toStage.holds (Γ := []) (h.atHand hlmem)
  have hr := h.toStage.holds (Γ := []) (h.atHand hrmem)
  have hfinal : Decision.Computes g ρ (g.known ρ old) (.follow (pure
      ((if isSum (g.kind op) then Instr.add else Instr.sub) (g.value old).ty (.value lhs)
        (.value rhs) .standard))) :=
    .of_makes (evaluates_shuffled hl hr hs.leftLanes hs.rightLanes hs.shaped :).ends
  split
  · exact .ok hfinal
  · exact .ok hfinal

end

end Rules

end SimdLowering
