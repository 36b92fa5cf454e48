/-
Sums and differences of integers, lowered.

The second generation has five ways to plan one. Four of them end with a cast, which drops the
high bits as the operation itself does, so whatever detour the lanes took, they come out right.
The fifth is for sixteen lanes of thirty-two bits of which one side is extended from sixteen: both
sides go up to sixty-four bits, where the sum is exact, and come down by a shift, which takes the
nearest lane. So there a sum that overflows saturates, and the operation would have wrapped it.

As with products, nothing is assumed of the rest of the function: it is enough that the run
gets to the operation.
-/
import SimdLowering.Proofs.Doubling.Arithmetic
import SimdLowering.Proofs.Integral.Sums
import SimdLowering.Proofs.Products.Arrival

set_option autoImplicit false

namespace SimdLowering

open SimdLowering.Rules SimdLowering.Frame

variable {n bits : Nat} {sign : Signedness} {x y : Fin n → Int} {g g' : Graph} {ρ : Env}
  {Γ : List Known} {a b : Source} {sum onLeft : Bool} {v : Int}

/-! ## Exact sums -/

/-- A sum or difference of integers. -/
def exactSum (sum : Bool) (v w : Int) : Int := if sum then v + w else v - w

/-- A sum or difference of the lanes of the one side that is extended and of the other, in their
order. -/
def sidedSum (sum onLeft : Bool) (v w : Int) : Int :=
  if onLeft then exactSum sum v w else exactSum sum w v

theorem sumLane_int (v w : Int) :
    sumLane sum (.int v) (.int w) = .int (wrap128 (exactSum sum v w)) := by
  cases sum <;> rfl

theorem exactSum_bounds (sum : Bool) {v w p : Int} (hv : -p ≤ v ∧ v < p) (hw : -p ≤ w ∧ w < p) :
    -(2 * p) ≤ exactSum sum v w ∧ exactSum sum v w < 2 * p := by
  cases sum
  · change -(2 * p) ≤ v - w ∧ v - w < 2 * p
    omega
  · change -(2 * p) ≤ v + w ∧ v + w < 2 * p
    omega

/-- A sum with a side of at most seventeen bits overflows by less than a turn. -/
theorem sidedSum_near {w : Int} (hsign : sign ≠ .unsigned) (hv : InRange 17 v)
    (hw : InLane sign 32 w) :
    leastLane sign 32 - twoPow 32 < sidedSum sum onLeft v w ∧
      sidedSum sum onLeft v w < greatestLane sign 32 + twoPow 32 := by
  have h16 : (twoPow (17 - 1) : Int) = 65536 := by decide
  have h31 : (twoPow (32 - 1) : Int) = 2147483648 := by decide
  have h32 : (twoPow 32 : Int) = 4294967296 := by decide
  obtain ⟨hvl, hvh⟩ := hv
  obtain ⟨hwl, hwh⟩ := (inLane_iff hsign).mp hw
  rw [leastLane, greatestLane, if_neg hsign, if_neg hsign]
  cases sum <;> cases onLeft <;> simp only [sidedSum, exactSum, if_true, if_false,
    Bool.false_eq_true] <;> omega

/-- Lanes that have the residues of integers sum up to the sums of those, brought into range. -/
theorem shapeAs_sum {L R : List Lane} (hL : List.Forall₂ (Lane.Congruent 32) L
    (RtValue.ofInts x).lanes)
    (hR : List.Forall₂ (Lane.Congruent 32) R (RtValue.ofInts y).lanes) :
    shapeAs (.vector n (.int 32 sign)) ((List.zipWith (sumLane sum) L R).take n) =
      some (.ofInts fun i => wrapInt (exactSum sum (x i) (y i)) 32 sign) := by
  have hlanes : List.zipWith (sumLane sum) (RtValue.ofInts x).lanes (RtValue.ofInts y).lanes =
      List.ofFn fun i => .int (wrap128 (exactSum sum (x i) (y i))) := by
    rw [RtValue.lanes_ofInts, RtValue.lanes_ofInts, zipWith_ofFn]
    exact congrArg List.ofFn (funext fun i => sumLane_int _ _)
  have hpairs := forall₂_zipWith (f := sumLane sum) (fun _ _ _ _ => congruent_sumLane) hL hR
  rw [hlanes] at hpairs
  have hlen : (List.zipWith (sumLane sum) L R).length = n := hpairs.length_eq.trans List.length_ofFn
  rw [List.take_of_length_le hlen.le, shapeAs_of_isVector rfl
    (Or.inr (ElemKind.wraps_vector (by decide) (by decide) sign n))]
  refine congrArg (fun l => some (RtValue.vector l)) ?_
  -- Lane by lane both have the residue of the exact sum.
  have hnormal : List.Forall₂ (fun c d => c.normalize (.int 32 sign) = d)
      (List.zipWith (sumLane sum) L R)
      (List.ofFn fun i => .int (wrapInt (exactSum sum (x i) (y i)) 32 sign)) := by
    refine List.forall₂_iff_get.mpr ⟨by rw [hlen, List.length_ofFn], fun i hi hi' => ?_⟩
    have hc := hpairs.get hi (by simpa using hi')
    simp only [List.get_eq_getElem, List.getElem_ofFn] at hc ⊢
    have hexact : Lane.Congruent 32 _ (.int (exactSum sum (x ⟨i, _⟩) (y ⟨i, _⟩))) :=
      hc.trans ⟨_, _, rfl, rfl, wrap128_emod (by decide)⟩
    exact hexact.normalize (by decide)
  exact List.forall₂_eq_eq_eq ▸ List.forall₂_map_left_iff.mpr hnormal

/-- A sum that stays in range. -/
theorem evaluates_exactSum {t : Ty} {o : Operand Source} (hlow : 1 < bits) (hsmall : bits < 127)
    (hsign : sign ≠ .unsigned)
    (ho : Yielding g ρ ⟨.vector n (.int bits sign), .ofInts x⟩ Γ o)
    (hb : b.Holds g ρ Γ ⟨t, .ofInts y⟩)
    (hsum : ∀ i, InRange bits (exactSum sum (x i) (y i))) :
    Evaluates g ρ Γ (elemStep sum o b)
      ⟨.vector n (.int bits sign), .ofInts fun i => exactSum sum (x i) (y i)⟩ := by
  -- The sum does not leave the word, so lanes are computed exactly.
  have hlanes : List.zipWith (sumLane sum) (RtValue.ofInts x).lanes (RtValue.ofInts y).lanes =
      List.ofFn fun i => .int (exactSum sum (x i) (y i)) := by
    rw [RtValue.lanes_ofInts, RtValue.lanes_ofInts, zipWith_ofFn]
    refine congrArg List.ofFn (funext fun i => ?_)
    rw [sumLane_int, wrap128_eq_self ((hsum i).mono (by omega))]
  have hcount : laneCount (.vector n (.int bits sign)) = n := rfl
  refine evaluates_elemStep ho hb rfl ?_ ?_ ?_
  · exact Nat.le_of_eq RtValue.length_ofInts.symm
  · exact Nat.le_of_eq RtValue.length_ofInts.symm
  · change shapeAs _ (List.take (laneCount (.vector n (.int bits sign)))
      (List.zipWith _ (RtValue.ofInts x).lanes (RtValue.ofInts y).lanes)) = _
    rw [hlanes, List.take_of_length_le (by simp [hcount])]
    exact shapeAs_ofInts hlow hsmall fun i => (hsum i).inLane hsign

/-- The fifth plan: exact in sixty-four bits, and down to the nearest lane. -/
theorem oneNarrow_saturates (ha : ∀ Γ, a.HoldsInts g ρ Γ x) (hb : ∀ Γ, b.HoldsInts g ρ Γ y)
    (hx : ∀ i, InRange 33 (x i)) (hy : ∀ i, InRange 33 (y i)) :
    (oneNarrow sum (.vector n (.int 32 sign)) (.vector n (.i 64)) onLeft a b).Makes
      (Evaluates g ρ) Γ fun Γ d => Evaluates g ρ Γ d ⟨.vector n (.int 32 sign),
        .ofInts fun i => clampLane sign 32 (sidedSum sum onLeft (x i) (y i))⟩ := by
  have hless : Signedness.signless ≠ .unsigned := by decide
  have hsum : ∀ v w, InRange 33 v → InRange 33 w → InRange 64 (exactSum sum v w) := by
    intro v w hv hw
    have hroom : (2 * twoPow (33 - 1) : Int) ≤ twoPow (64 - 1) := by decide
    have := exactSum_bounds sum hv hw
    exact ⟨by omega, by omega⟩
  refine (evaluates_raised (by decide) (by decide) hless (ha _)
    fun i => (hx i).mono (by decide)).then fun l hl => ?_
  refine (evaluates_raised (by decide) (by decide) hless (hb _)
    fun i => (hy i).mono (by decide)).then fun r hr => ?_
  cases onLeft
  · have hroom := fun i => hsum _ _ (hy i) (hx i)
    refine (evaluates_exactSum (by decide) (by decide) hless hr hl.snoc.1 hroom).then fun o ho => ?_
    exact (evaluates_lowered (by decide) (by decide) (by decide) ho.1 hroom).ends
  · have hroom := fun i => hsum _ _ (hx i) (hy i)
    refine (evaluates_exactSum (by decide) (by decide) hless hl.snoc hr.1 hroom).then fun o ho => ?_
    exact (evaluates_lowered (by decide) (by decide) (by decide) ho.1 hroom).ends

/-- The lanes of an instruction on integers have a range. -/
theorem wraps_of_isElementwise {ty : Ty} {shape : VectorShape} (hs : ty.vectorShape = some shape)
    (hint : shape.isFloat = false) (helem : shape.isElementwise = true) :
    (ElemKind.ofTy ty).wraps = true := by
  obtain ⟨n, width, sign, rfl, rfl⟩ :=
    exists_int_of_vectorShape hs ((isFloat_of_vectorShape hs).trans hint)
  rw [VectorShape.isElementwise, List.contains_iff_mem] at helem
  simp only [elementwiseShapes, VectorShape.pair, List.mem_cons, Prod.mk.injEq,
    List.not_mem_nil, or_false] at helem
  exact ElemKind.wraps_vector (by omega) (by omega) sign n

namespace Graph

variable {gone : List OpId} {func op : OpId} {entry : BlockId} {lhs rhs old source : ValueId}
  {args : List RtValue} {shape : VectorShape} {sizes sizes' : AccessSizes} {edits : Edits}

/-! ## A sum with known operands -/

/-- The run of the function on the arguments gets to a sum or difference of two vectors of
integers. The operands have the type of the result, and what they are sign-extended from, where
they are, are vectors of as many integers, and bound to lanes that fit. -/
structure SumsAt (g : Graph) (func : OpId) (entry : BlockId) (args : List RtValue) (op : OpId)
    (ρ : Env) (lhs rhs old : ValueId) (shape : VectorShape) : Prop
    extends g.Ready func entry args op ρ where
  kind : g.kind op ∈ sumKinds
  operands : g.operands op = [lhs, rhs]
  results : g.results op = [old]
  typed : ∀ v ∈ [lhs, rhs], (g.value v).ty = (g.value old).ty
  shaped : (g.value old).ty.vectorShape = some shape
  integral : shape.isFloat = false
  extended : ∀ v ∈ [lhs, rhs], ∀ source, g.extensionSource? v .extsi = .ok (some source) →
    (g.value source).ty.elementType.isFloat = false ∧
      (g.value source).ty.SameLanes (g.value v).ty ∧
      ∀ s, ρ.get? source = some s → s.Fits (g.value source).ty

/-- It has sixteen lanes of thirty-two bits. One side is extended from sixteen bits, and the other
is not extended. -/
structure WidensOne (g : Graph) (shape : VectorShape) (lhs rhs : ValueId) (onLeft : Bool)
    (source : ValueId) : Prop where
  pair : shape.pair = (16, 32)
  extended : g.extensionSource? (if onLeft then lhs else rhs) .extsi = .ok (some source)
  width : laneBits g source = .ok 16
  other : g.extensionSource? (if onLeft then rhs else lhs) .extsi = .ok none

theorem mem_pair_side (lhs rhs : ValueId) (onLeft : Bool) :
    (if onLeft then lhs else rhs) ∈ [lhs, rhs] ∧ (if onLeft then rhs else lhs) ∈ [lhs, rhs] := by
  cases onLeft <;> simp

namespace SumsAt

variable (hscene : Scene g gone func) (h : g.SumsAt func entry args op ρ lhs rhs old shape)
include h

theorem fits {v : ValueId} (hv : v ∈ [lhs, rhs]) : (g.known ρ v).Fits :=
  h.toReady.fits (h.operands ▸ hv)

include hscene

theorem atHand {v : ValueId} (hv : v ∈ [lhs, rhs]) : g.AtHand func op v :=
  h.toReady.atHand hscene (h.operands ▸ hv)

/-- What an operand is extended from. -/
theorem extendedLanes {v : ValueId} (hv : v ∈ [lhs, rhs])
    (he : ExtendedFrom g func op v source .extsi bits) : ExtendedLanes g ρ v source := by
  have hview := h.arrives.vantage hscene
  obtain ⟨d, hd, hslot⟩ := he.reaches
  obtain ⟨hnofloat, hlanes, hfits⟩ := h.extended v hv source (he.found hscene).1
  have hold := hscene.results_eq hd.inside (by rw [hd.kind]; decide) (by rw [hd.kind]; decide)
    hd.defines
  have heval := hview.eval (h.atHand hscene hv).visible hold
  obtain ⟨rest, hops⟩ : ∃ rest, g.operands d = source :: rest := by
    cases hops : g.operands d with
    | nil =>
      rw [hops] at hslot
      cases hslot
    | cons w rest =>
      rw [hops] at hslot
      exact ⟨rest, by rw [Option.some.inj hslot]⟩
  -- The extension is computed from the lanes that the source is known to have.
  rw [hd.kind, knownOperands, hops, List.map_cons] at heval
  refine ⟨fun Γ => hview.holds he.readable, ?_, hnofloat, hlanes,
    (eval_convert (Or.inl rfl)).mp heval⟩
  exact hfits _ (get?_known (hview.bound source he.readable.visible))

/-- What the sum evaluates to. -/
theorem isSumOf {x : RtValue} (hx : shapeAs (g.value old).ty ((List.zipWith
      (sumLane (isSum (g.kind op))) (g.known ρ lhs).lanes (g.known ρ rhs).lanes).take
        (laneCount (g.value old).ty)) = some x) :
    g.evalOp ρ op = .ok x ∧
      IsSumOf (isSum (g.kind op)) (g.known ρ lhs) (g.known ρ rhs) ⟨(g.value old).ty, x⟩ := by
  have hl := h.typed lhs (by simp)
  have hr := h.typed rhs (by simp)
  have hcount := laneCount_eq h.shaped
  have hlanesL : (g.known ρ lhs).lanes.length = shape.lanes :=
    (h.fits (by simp)).length shape (by rw [← h.shaped, ← hl]; rfl)
  have hlanesR : (g.known ρ rhs).lanes.length = shape.lanes :=
    (h.fits (by simp)).length shape (by rw [← h.shaped, ← hr]; rfl)
  refine ⟨?_, hl, hr, h.fits (by simp), h.fits (by simp), hcount ▸ hlanesL.ge, hcount ▸ hlanesR.ge,
    hx⟩
  refine h.toReady.evalOp_eq hscene h.results ?_
  rw [knownOperands, h.operands]
  refine (eval_lanewise (lanewiseFunction_of_sum h.kind _)).mpr
    ⟨⟨by omega, by omega, fun _ => ?_⟩, hx⟩
  rcases List.mem_pair.mp h.kind with e | e <;> rw [e] <;> rfl

/-- Only lanes that have a range are summed by what the rule has made. -/
theorem wraps_of_run (hrun : (addSubToElem (g.kind op)).run g op sizes =
    .ok (g', sizes', .matched edits)) : (ElemKind.ofTy (g.value old).ty).wraps = true := by
  have hroot : g.kind op ∈ lanewiseRoots (g.kind op) := by
    rcases List.mem_pair.mp h.kind with e | e <;> rw [e] <;> decide
  obtain ⟨look, hrule, hlook⟩ := exists_addSubToElem_look (g.kind op)
  rw [hrule] at hrun
  obtain ⟨-, d, hd, hperform⟩ := Rule.run_ofDecision_eq_ok.mp hrun
  rcases (hlook g gone func op hscene h.arrives.inside hroot).of_eq_ok hd with
    rfl | ⟨shape', lhs', rhs', old', p, hp, rfl⟩
  · cases (Prod.mk.inj hperform).2
  obtain rfl : old = old' := List.singleton_inj.mp (h.results.symm.trans hp.result)
  obtain rfl : shape = shape' := Option.some.inj (h.shaped.symm.trans hp.shaped)
  rcases hp.planned with ⟨hfloat, -, -⟩ | ⟨-, helem, -⟩
  · rw [h.integral] at hfloat
    cases hfloat
  · exact wraps_of_isElementwise h.shaped h.integral helem

/-- Where one side is widened, the fifth plan is the one that is taken. -/
theorem intSumPlan?_of_widensOne (hone : g.WidensOne shape lhs rhs onLeft source) :
    intSumPlan? g sum shape (g.value old).ty lhs rhs =
      .ok (some (oneNarrow sum (g.value old).ty (accumulatorOf (g.value old).ty) onLeft
        (.value source) (.value (if onLeft then rhs else lhs)))) := by
  obtain ⟨hlanes, hbits⟩ := Prod.mk.inj hone.pair
  have helem : shape.isElementwise = true := by
    rw [VectorShape.isElementwise, hone.pair]
    decide
  obtain ⟨dl, hdl, -⟩ := hscene.definingOp? h.arrives.inside (h.atHand hscene (v := lhs) (by simp))
  obtain ⟨dr, hdr, -⟩ := hscene.definingOp? h.arrives.inside (h.atHand hscene (v := rhs) (by simp))
  have hone' : oneExtendedPlan g sum shape (g.value old).ty lhs rhs onLeft source =
      .ok (oneNarrow sum (g.value old).ty (accumulatorOf (g.value old).ty) onLeft
        (.value source) (.value (if onLeft then rhs else lhs))) := by
    simp only [oneExtendedPlan, hone.width, bind, Except.bind, hlanes]
    rfl
  -- The extension is an operation, so the operands are not both without one.
  have hdefined : ∀ {v d}, g.definingOp? v = .ok d →
      g.extensionSource? v .extsi = .ok (some source) → d.isNone = false := by
    intro v d hd hv
    cases d with
    | some d => rfl
    | none =>
      rw [extensionSource?, definedBy?, hd] at hv
      cases hv
  unfold intSumPlan?
  rw [helem, hscene.source_eq (h.atHand hscene (v := lhs) (by simp)),
    hscene.source_eq (h.atHand hscene (v := rhs) (by simp)), hdl, hdr]
  cases onLeft
  · have hr := hone.extended
    have hl := hone.other
    simp only [Bool.false_eq_true, if_false] at hl hr
    have hsome := hdefined hdr hr
    simp [hbits, hl, hr, hone', hsome, bind, Except.bind, pure, Except.pure]
  · have hl := hone.extended
    have hr := hone.other
    simp only [if_true] at hl hr
    have hsome := hdefined hdl hl
    simp [hbits, hl, hr, hone', hsome, bind, Except.bind, pure, Except.pure]

/-- The integers on the two sides: those that the widened one is extended from, whose residues it
has, and those of the other. -/
theorem widened_lanes (hone : g.WidensOne shape lhs rhs onLeft source) :
    ∃ (sign : Signedness) (x y : Fin 16 → Int), (g.value old).ty = .vector 16 (.int 32 sign) ∧
      (g.known ρ source).lanes = (RtValue.ofInts x).lanes ∧
      (g.known ρ (if onLeft then rhs else lhs)).lanes = (RtValue.ofInts y).lanes ∧
      List.Forall₂ (Lane.Congruent 32) (g.known ρ (if onLeft then lhs else rhs)).lanes
        (RtValue.ofInts x).lanes ∧
      (∀ i, InRange 17 (x i)) ∧ ∀ i, InLane sign 32 (y i) := by
  obtain ⟨hside, hother⟩ := mem_pair_side lhs rhs onLeft
  obtain ⟨hlanes, hbits⟩ := Prod.mk.inj hone.pair
  obtain ⟨-, hfrom⟩ := (Rules.extendedFrom (k := .extsi) hscene h.arrives.inside
    (h.atHand hscene hside) (Nat.le_refl 1) rfl).of_eq_ok hone.extended source rfl
  -- One operand was extended from narrow lanes; the other one has lanes of the result.
  have he := hfrom 16 hone.width
  have hext := h.extendedLanes hscene hside he
  obtain ⟨sign, hty⟩ : ∃ sign, (g.value old).ty = .vector 16 (.int 32 sign) := by
    obtain ⟨m, width, sign, hty, rfl⟩ := exists_int_of_vectorShape h.shaped
      ((isFloat_of_vectorShape h.shaped).trans h.integral)
    exact ⟨sign, by rw [hty, show m = 16 from hlanes, show width = 32 from hbits]⟩
  have hsideTy := h.typed _ hside
  obtain ⟨sign', hsourceTy⟩ := hext.exists_sourceTy (by rw [hsideTy, h.shaped]) he.width (by decide)
  rw [hlanes] at hsourceTy
  have hfits : (g.known ρ source).value.Fits (.vector 16 (.int 16 sign')) := hsourceTy ▸ hext.fits
  have hfits' : (g.known ρ (if onLeft then rhs else lhs)).value.Fits (.vector 16 (.int 32 sign)) :=
    hty ▸ h.typed _ hother ▸ h.fits hother
  obtain ⟨x, hx, hxrange⟩ := hfits.exists_ofInts (by decide) (by decide)
  obtain ⟨y, hy, hyrange⟩ := hfits'.exists_ofInts (by decide) (by decide)
  refine ⟨sign, x, y, hty, hx, hy, ?_, fun i => (hxrange i).inRange, hyrange⟩
  -- Extending changes no lane, except for wrapping it to the width of the result.
  have hv := (lanes_of_shapeAs hext.shaped).2 (by rw [hsideTy, hty]; rfl)
  change List.Forall₂ _ (RtValue.lanes _) _
  rw [hv, hsideTy, hty, show (g.known ρ source).lanes = _ from hx, List.forall₂_map_left_iff]
  refine List.forall₂_same.mpr fun c hc => ?_
  obtain ⟨i, rfl⟩ := List.mem_ofFn.mp hc
  exact Lane.congruent_normalize (x i) 32 sign

end SumsAt

/-! ## The rule -/

/-- Take any sum or difference of integers, any run that gets to it and any lanes. Unless it widens
one side, what the rule has made gives what the operation gives: the sum of each two lanes with
its high bits dropped. -/
theorem sum_keeps (hscene : Scene g gone func)
    (h : g.SumsAt func entry args op ρ lhs rhs old shape)
    (hone : ∀ onLeft source, ¬ g.WidensOne shape lhs rhs onLeft source)
    (hrun : (addSubToElem (g.kind op)).run g op sizes = .ok (g', sizes', .matched edits)) :
    ∃ x, g.evalOp ρ op = .ok x ∧ g'.MadeToGive ρ edits x := by
  have hroot : g.kind op ∈ lanewiseRoots (g.kind op) := by
    rcases List.mem_pair.mp h.kind with e | e <;> rw [e] <;> decide
  have hview := h.arrives.vantage hscene
  obtain ⟨heval, hsum⟩ := h.isSumOf hscene
    (shapeAs_of_isVector (isVector_of_vectorShape h.shaped) (Or.inr (h.wraps_of_run hscene hrun)))
  refine ⟨_, heval, ?_⟩
  obtain ⟨look, hrule, hlook⟩ := exists_addSubToElem_look (g.kind op)
  rw [hrule] at hrun
  refine madeToGive_of_run (F := fun _ => True) (k := ⟨(g.value old).ty, _⟩) hscene.consistent ?_
    hrun
  refine ((hlook g gone func op hscene h.arrives.inside hroot).mono ?_).unless
  rintro d (rfl | ⟨shape', lhs', rhs', old', p, hp, rfl⟩)
  · trivial
  -- The rule has found the operands and the result that there are.
  obtain ⟨hold, hleft, hright, -, -, hshape, hplanned⟩ := hp
  rw [h.operands] at hleft hright
  obtain rfl : lhs = lhs' := Option.some.inj hleft
  obtain rfl : rhs = rhs' := Option.some.inj hright
  obtain rfl : old = old' := List.singleton_inj.mp (h.results.symm.trans hold)
  obtain rfl : shape = shape' := Option.some.inj (h.shaped.symm.trans hshape)
  rcases hplanned with ⟨hfloat, -, -⟩ | ⟨hint, -, hplan⟩
  · rw [h.integral] at hfloat
    cases hfloat
  · refine .of_makes (IntSum.evaluates hsum h.shaped hint
      (fun v hv Γ => hview.holds (h.atHand hscene hv))
      (fun v hv source bits he => h.extendedLanes hscene hv he) ?_ hplan)
    rintro onLeft source hpair he ⟨-, hother, rfl⟩
    obtain ⟨hfound, hwidth⟩ := he.found hscene
    exact hone onLeft source ⟨hpair, hfound, hwidth, hother⟩

/-- If it widens one side, what the rule has made gives the nearest lane to the exact sum, where
the operation drops the high bits. So, read with a sign, it is kept exactly where no lane
overflows. -/
theorem sum_saturates (hscene : Scene g gone func)
    (h : g.SumsAt func entry args op ρ lhs rhs old shape)
    (hone : g.WidensOne shape lhs rhs onLeft source)
    (hrun : (addSubToElem (g.kind op)).run g op sizes = .ok (g', sizes', .matched edits)) :
    ∃ (sign : Signedness) (x y : Fin 16 → Int), (g.value old).ty = .vector 16 (.int 32 sign) ∧
      (g.known ρ source).lanes = (RtValue.ofInts x).lanes ∧
      (g.known ρ (if onLeft then rhs else lhs)).lanes = (RtValue.ofInts y).lanes ∧
      g.evalOp ρ op = .ok (.ofInts fun i =>
        wrapInt (sidedSum (isSum (g.kind op)) onLeft (x i) (y i)) 32 sign) ∧
      g'.MadeToGive ρ edits (.ofInts fun i =>
        clampLane sign 32 (sidedSum (isSum (g.kind op)) onLeft (x i) (y i))) ∧
      (sign ≠ .unsigned → ∀ i, wrapInt (sidedSum (isSum (g.kind op)) onLeft (x i) (y i)) 32 sign =
          clampLane sign 32 (sidedSum (isSum (g.kind op)) onLeft (x i) (y i)) ↔
        InLane sign 32 (sidedSum (isSum (g.kind op)) onLeft (x i) (y i))) := by
  obtain ⟨hside, hother⟩ := mem_pair_side lhs rhs onLeft
  have hat : ∀ {v}, v ∈ [lhs, rhs] → g.AtHand func op v := h.atHand hscene
  obtain ⟨sign, x, y, hty, hx, hy, hwidened, hxrange, hyrange⟩ := h.widened_lanes hscene hone
  -- The sum itself goes by residues, so it may be computed from the exact lanes.
  refine ⟨sign, x, y, hty, hx, hy, ?_, ?_, fun hsign i => ?_⟩
  · have hsame : List.Forall₂ (Lane.Congruent 32)
        (g.known ρ (if onLeft then rhs else lhs)).lanes (RtValue.ofInts y).lanes := by
      rw [hy]
      refine List.forall₂_same.mpr fun c hc => ?_
      obtain ⟨i, rfl⟩ := List.mem_ofFn.mp hc
      exact ⟨_, _, rfl, rfl, rfl⟩
    refine (h.isSumOf hscene ?_).1
    rw [hty]
    cases onLeft
    · exact shapeAs_sum hsame hwidened
    · exact shapeAs_sum hwidened hsame
  -- What the rule puts in its place is the plan that narrows.
  · have hview := h.arrives.vantage hscene
    obtain ⟨hsource, -⟩ := (Rules.extendedFrom (k := .extsi) hscene h.arrives.inside (hat hside)
      (Nat.le_refl 1) rfl).of_eq_ok hone.extended source rfl
    refine madeToGive_of_run (F := fun _ => True) (k := ⟨(g.value old).ty, _⟩) hscene.consistent
      (Yields.unless ?_) hrun
    rw [resultShape?_eq h.results, h.shaped, Graph.binaryOperands_eq h.operands]
    refine Yields.bind (.ok rfl) fun pair hpair => ?_
    subst hpair
    refine (leftForFusion_spec hscene h.arrives.inside (hat (by simp)) (hat (by simp))).bind
      fun left _ => ?_
    split
    · exact .pure trivial
    rw [firstResultType_eq h.results]
    refine Yields.bind (P := (· = (g.value old).ty)) (.ok rfl) fun ty hty' => ?_
    subst hty'
    rw [h.integral, if_neg Bool.false_ne_true, h.intSumPlan?_of_widensOne hscene hone]
    refine .pure (.of_makes ?_)
    rw [hty]
    exact oneNarrow_saturates (fun Γ => ⟨_, hview.holds hsource, hx⟩)
      (fun Γ => ⟨_, hview.holds (hat hother), hy⟩) (fun i => (hxrange i).mono (by decide))
      fun i => (hyrange i).inRange
  -- The two agree exactly if the sum is in range already.
  · obtain ⟨hlow, hhigh⟩ := sidedSum_near hsign (hxrange i) (hyrange i)
    exact wrapInt_eq_clampLane_iff (by decide) (by decide) hlow hhigh

end Graph

end SimdLowering
