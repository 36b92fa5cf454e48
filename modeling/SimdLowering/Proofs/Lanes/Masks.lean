/-
Selects and comparisons of floats, lowered.

On the second generation both go through a word with a bit for each lane. A select by a vector of
truth values packs it, and takes from each branch the lanes that the select took. A select by a
single truth value is lowered in the same way, but a scalar is not packed: it is passed on as the
word, where it is the bit of the first lane. So it decides on that lane only, and all others come
from the second branch.

A comparison of floats is done with an integer predicate, which the target reads as one of floats
again. Of the predicates that are accepted, two do not come back as they were: equal or unordered
comes back as equal and ordered, and unequal and ordered as unequal or unordered. Those say the
opposite where a lane is not a number, and the same everywhere else.
-/
import SimdLowering.Proofs.Integral.Extrema
import SimdLowering.Proofs.Products.Arrival
import Mathlib.Data.List.Zip

set_option autoImplicit false

namespace SimdLowering

/-! ## Predicates there and back -/

section Predicates

open SimdLowering.Rules

variable {p : FloatPredicate} {q : IntPredicate} {a b : Float}

/-- The integer predicate is read as the one it stands for, but for two. -/
theorem floatTwin_of_intPredicateFor? (h : intPredicateFor? p = some q) (hueq : p ≠ .ueq)
    (hone : p ≠ .one) : q.floatTwin = p := by
  cases p <;> cases h <;> first | rfl | exact absurd rfl hueq | exact absurd rfl hone

/-- Of numbers it says the same in any case. -/
theorem floatTwin_holds (h : intPredicateFor? p = some q) (ha : a.isNaN = false)
    (hb : b.isNaN = false) : q.floatTwin.holds a b = p.holds a b := by
  cases p <;> cases h <;> simp only [IntPredicate.floatTwin, FloatPredicate.holds, ha, hb,
    Bool.or_self, Bool.not_false, Bool.true_and, Bool.false_or]

/-- Where one of the two is not a number, the two predicates that are not kept are told the
opposite. -/
theorem floatTwin_holds_of_isNaN (h : intPredicateFor? p = some q) (hp : p = .ueq ∨ p = .one)
    (hnan : (a.isNaN || b.isNaN) = true) : q.floatTwin.holds a b = !p.holds a b := by
  rcases hp with rfl | rfl <;> cases h <;>
    simp only [IntPredicate.floatTwin, FloatPredicate.holds, hnan, Bool.not_true, Bool.false_and,
      Bool.true_or, Bool.not_false]

/-- What each two lanes, read as floats, are told. -/
def truths (holds : Float → Float → Bool) (l r : List Lane) : List Lane :=
  List.zipWith (fun a b => Lane.ofBool (holds a.asFloat b.asFloat)) l r

/-- Two tests tell all lanes the same exactly if they tell each two the same. -/
theorem truths_inj {holds holds' : Float → Float → Bool} {l r : List Lane}
    (hlen : l.length = r.length) : truths holds l r = truths holds' l r ↔
      List.Forall₂ (fun a b => holds a.asFloat b.asFloat = holds' a.asFloat b.asFloat) l r := by
  constructor
  · intro h
    induction l generalizing r with
    | nil =>
      rw [List.length_eq_zero_iff.mp hlen.symm]
      exact .nil
    | cons a l ih =>
      cases r with
      | nil => cases hlen
      | cons b r =>
        obtain ⟨hhead, htail⟩ := List.cons.inj h
        refine .cons ?_ (ih (Nat.succ.inj hlen) htail)
        cases ha : holds a.asFloat b.asFloat <;> cases hb : holds' a.asFloat b.asFloat <;>
          simp [ha, hb, Lane.ofBool] at hhead ⊢
  · intro h
    exact List.zipWith_congr _ _ _ _ (h.imp fun _ _ hab => congrArg Lane.ofBool hab)

/-- The predicate that comes back tells all lanes what the given one does, exactly if it is the
same or all lanes are numbers. -/
theorem truths_floatTwin_iff {l r : List Lane} (h : intPredicateFor? p = some q)
    (hlen : l.length = r.length) : truths q.floatTwin.holds l r = truths p.holds l r ↔
      (p ≠ .ueq ∧ p ≠ .one) ∨
        List.Forall₂ (fun a b => a.asFloat.isNaN = false ∧ b.asFloat.isNaN = false) l r := by
  constructor
  · intro hsame
    -- The two predicates in question disagree exactly where an operand is no number.
    by_cases hp : p = .ueq ∨ p = .one
    · refine Or.inr (((truths_inj hlen).mp hsame).imp fun a b hab => ?_)
      by_contra hnan
      have hnot := floatTwin_holds_of_isNaN h hp (a := a.asFloat) (b := b.asFloat) (by
        rw [Bool.or_eq_true]
        by_contra hneither
        simp only [not_or, Bool.not_eq_true] at hneither
        exact hnan hneither)
      rw [hab] at hnot
      exact Bool.not_ne_self _ hnot.symm
    · exact Or.inl (not_or.mp hp)
  · rintro (⟨hueq, hone⟩ | hnumbers)
    · rw [floatTwin_of_intPredicateFor? h hueq hone]
    · exact (truths_inj hlen).mpr (hnumbers.imp fun a b hab => floatTwin_holds h hab.1 hab.2)

end Predicates

namespace Graph

open SimdLowering.Rules SimdLowering.Frame

variable {g g' : Graph} {gone : List OpId} {func op : OpId} {entry : BlockId}
  {cond onTrue onFalse lhs rhs : ValueId} {args : List RtValue} {ρ : Env} {ty : Ty} {n : Nat}
  {sizes sizes' : AccessSizes} {edits : Edits}

/-! ## Selects -/

/-- The run of the function on the arguments gets to a select between two vectors. -/
structure SelectsAt (g : Graph) (func : OpId) (entry : BlockId) (args : List RtValue) (op : OpId)
    (ρ : Env) (cond onTrue onFalse : ValueId) (ty : Ty) : Prop
    extends g.Ready func entry args op ρ where
  selects : g.kind op = .select
  operands : ∃ rest, g.operands op = cond :: onTrue :: onFalse :: rest
  trueTy : (g.value onTrue).ty = ty
  falseTy : (g.value onFalse).ty = ty

namespace SelectsAt

variable (hscene : Scene g gone func)
  (h : g.SelectsAt func entry args op ρ cond onTrue onFalse ty)
include h

omit hscene in
theorem mem_operands {v : ValueId} (hv : v ∈ [cond, onTrue, onFalse]) : v ∈ g.operands op := by
  obtain ⟨rest, hops⟩ := h.operands
  rw [hops, show cond :: onTrue :: onFalse :: rest = [cond, onTrue, onFalse] ++ rest from rfl]
  exact List.mem_append_left _ hv

omit hscene in
/-- The branches have as many lanes as their type, all of them in range. -/
theorem branch_fits {shape : VectorShape} (hshape : ty.vectorShape = some shape) {v : ValueId}
    (hv : v ∈ [onTrue, onFalse]) : (g.known ρ v).lanes.length = shape.lanes ∧
      ∀ c ∈ (g.known ρ v).lanes, c.normalize (.ofTy ty) = c := by
  have hty : (g.known ρ v).ty = ty := by
    rcases List.mem_pair.mp hv with rfl | rfl
    · exact h.trueTy
    · exact h.falseTy
  have hfit := h.fits (h.mem_operands (List.mem_cons_of_mem _ hv))
  rw [hty] at hfit
  exact ⟨hfit.length shape hshape, hfit.lanes⟩

omit hscene in
/-- What is picked from the branches is a value of their type. -/
theorem shape_picked {shape : VectorShape} (hshape : ty.vectorShape = some shape)
    (hwraps : (ElemKind.ofTy ty).wraps = true) (holds : Nat → Bool) :
    chooseLanes holds (g.known ρ onTrue).lanes (g.known ρ onFalse).lanes =
        .ok (pickLanes holds (g.known ρ onTrue).lanes (g.known ρ onFalse).lanes) ∧
      shapeAs ty (pickLanes holds (g.known ρ onTrue).lanes (g.known ρ onFalse).lanes) =
        some (.vector (pickLanes holds (g.known ρ onTrue).lanes (g.known ρ onFalse).lanes)) := by
  obtain ⟨htlen, ht⟩ := h.branch_fits hshape (v := onTrue) (by simp)
  obtain ⟨hflen, hf⟩ := h.branch_fits hshape (v := onFalse) (by simp)
  have hlen := Nat.le_of_eq (htlen.trans hflen.symm)
  exact ⟨chooseLanes_eq_ok hlen,
    shapeAs_pickLanes (isVector_of_vectorShape hshape) (Or.inr hwraps) hlen ht hf⟩

include hscene

/-- The result has the type of the branches. -/
theorem exists_result : ∃ old, g.results op = [old] ∧ (g.value old).ty = ty := by
  obtain ⟨rest, hops⟩ := h.operands
  refine hscene.exists_result h.arrives.inside ?_
  rw [h.selects, ← h.trueTy, typesOf, hops]
  rfl

/-- The select evaluates to the lanes that its condition picks. -/
theorem evalOp_eq {shape : VectorShape} (hshape : ty.vectorShape = some shape)
    (hwraps : (ElemKind.ofTy ty).wraps = true) :
    g.evalOp ρ op = .ok (.vector (pickLanes (chosen (g.known ρ cond).lanes)
      (g.known ρ onTrue).lanes (g.known ρ onFalse).lanes)) := by
  obtain ⟨rest, hops⟩ := h.operands
  obtain ⟨old, hold, holdTy⟩ := h.exists_result hscene
  obtain ⟨hchosen, hpicked⟩ := h.shape_picked hshape hwraps (chosen (g.known ρ cond).lanes)
  refine h.toReady.evalOp_eq hscene hold ?_
  rw [h.selects, knownOperands, hops, holdTy]
  exact eval_select.mpr ⟨_, hchosen, hpicked⟩

/-- Where the rule for selects rewrites, the branches fill a register, and what it has made gives
what the plan for the select evaluates to. -/
theorem madeToGive (hrun : selectToSel.run g op sizes = .ok (g', sizes', .matched edits)) :
    ∃ shape, ty.vectorShape = some shape ∧ shape.isFullRegister = true ∧ ∀ x,
      ((selectPlan (maskType shape.lanes) (.value cond) ⟨.value onTrue, ty⟩
        (.value onFalse)).Makes (Evaluates g ρ) [] fun Γ d => Evaluates g ρ Γ d ⟨ty, x⟩) →
      g'.MadeToGive ρ edits x := by
  obtain ⟨rest, hops⟩ := h.operands
  obtain ⟨old, hold, holdTy⟩ := h.exists_result hscene
  have hread : ∀ i v, [cond, onTrue, onFalse][i]? = some v → g.operandAt op i = .ok v := by
    intro i v hv
    obtain ⟨hi, rfl⟩ := List.getElem?_eq_some_iff.mp hv
    rw [operandAt_eq_ok, hops, show cond :: onTrue :: onFalse :: rest =
      [cond, onTrue, onFalse] ++ rest from rfl, List.getElem?_append_left hi]
    exact hv
  obtain ⟨-, r, hlook, hr⟩ := Rule.run_ofDecision_eq_matched.mp hrun
  rw [resultShape?_eq hold, holdTy] at hlook
  -- The rule declines where there is no shape, and where that is not one register.
  split at hlook
  · cases hlook
  next shape hshape =>
  obtain ⟨full, hfull, hlook⟩ := bind_eq_ok.mp hlook
  obtain ⟨-, rfl⟩ := fillsRegister_eq_ok.mp hfull
  split at hlook
  · cases hlook
  next hfull =>
  refine ⟨shape, hshape, by simpa using hfull, fun x hplan => ?_⟩
  rw [hread 0 cond rfl, hread 1 onTrue rfl, hread 2 onFalse rfl] at hlook
  have htmem := h.mem_operands (v := onTrue) (by simp)
  simp only [bind, Except.bind, sourceAfter_eq hscene (h.atHand hscene htmem), h.trueTy] at hlook
  obtain rfl := Decision.rewrite.inj (Except.ok.inj hlook)
  exact madeToGive_of_addRecipe (k := ⟨ty, x⟩) hscene.consistent (.of_makes hplan) hr

/-- The branches can be used in a step. -/
theorem branches_hold (Γ : List Known) :
    Yielding g ρ ⟨ty, (g.known ρ onTrue).value⟩ Γ ⟨.value onTrue, ty⟩ ∧
      (Source.value onFalse).Holds g ρ Γ (g.known ρ onFalse) := by
  refine ⟨⟨?_, rfl⟩, h.holds hscene (h.mem_operands (by simp))⟩
  have hhold := h.holds hscene (Γ := Γ) (h.mem_operands (v := onTrue) (by simp))
  rwa [known, h.trueTy] at hhold

end SelectsAt

/-- Take any select between two vectors by a vector with as many truth values, that the rule for
selects rewrites, and any run that gets to it. What the rule has made gives what the select
evaluates to. -/
theorem select_keeps (hscene : Scene g gone func)
    (h : g.SelectsAt func entry args op ρ cond onTrue onFalse ty)
    (hcond : (g.value cond).ty = .vector n (.i 1))
    (hn : ∀ shape, ty.vectorShape = some shape → shape.lanes = n)
    (hrun : selectToSel.run g op sizes = .ok (g', sizes', .matched edits)) :
    ∃ x, g.evalOp ρ op = .ok x ∧ g'.MadeToGive ρ edits x := by
  obtain ⟨shape, hshape, hfull, hgives⟩ := h.madeToGive hscene hrun
  obtain rfl := hn shape hshape
  have hwraps := wraps_of_isFullRegister hshape hfull
  refine ⟨_, h.evalOp_eq hscene hshape hwraps, hgives _ ?_⟩
  obtain ⟨ho, hb⟩ := h.branches_hold hscene []
  obtain ⟨hchosen, hpicked⟩ := h.shape_picked hshape hwraps (chosen (g.known ρ cond).lanes)
  have hcmem := h.mem_operands (v := cond) (by simp)
  have hclen : (g.known ρ cond).lanes.length = shape.lanes :=
    (h.fits hcmem).length ⟨shape.lanes, .i 1, 1, false⟩ (by rw [known, hcond]; rfl)
  exact selectPlan_evaluates (h.holds hscene hcmem) ho hb hcond hclen
    (h.branch_fits hshape (v := onTrue) (by simp)).1 (lanes_le_of_isFullRegister hfull) hchosen
    hpicked

/-- By a single truth value the select takes all lanes from one branch. What the rule has made
takes the first lane from that, and all others from the second branch. -/
theorem select_scalar (hscene : Scene g gone func)
    (h : g.SelectsAt func entry args op ρ cond onTrue onFalse ty)
    (hcond : (g.value cond).ty = .i 1) {lane : Lane} (hlane : ρ.get? cond = some (.scalar lane))
    (hrun : selectToSel.run g op sizes = .ok (g', sizes', .matched edits)) :
    g.evalOp ρ op = .ok (.vector (pickLanes (fun _ => decide (lane.asInt ≠ 0))
        (g.known ρ onTrue).lanes (g.known ρ onFalse).lanes)) ∧
      g'.MadeToGive ρ edits (.vector (pickLanes (fun i => i == 0 && decide (lane.asInt ≠ 0))
        (g.known ρ onTrue).lanes (g.known ρ onFalse).lanes)) := by
  obtain ⟨shape, hshape, hfull, hgives⟩ := h.madeToGive hscene hrun
  have hwraps := wraps_of_isFullRegister hshape hfull
  have hlanes := lanes_le_of_isFullRegister hfull
  have hcmem := h.mem_operands (v := cond) (by simp)
  have hknown : g.known ρ cond = ⟨.i 1, .scalar lane⟩ := by
    rw [known, hcond, hlane]
    rfl
  constructor
  · -- The select looks at the first lane of a condition that has no lane of its own.
    have hall : chosen [lane] = fun _ => decide (lane.asInt ≠ 0) := by
      funext i
      cases i <;> rfl
    rw [h.evalOp_eq hscene hshape hwraps, hknown, ← hall]
    rfl
  · -- The word that is made of it has no bit but the first.
    obtain ⟨ho, hb⟩ := h.branches_hold hscene []
    obtain ⟨hchosen, hpicked⟩ :=
      h.shape_picked hshape hwraps fun i => i == 0 && decide (lane.asInt ≠ 0)
    have hbound : (g.known ρ onTrue).lanes.length ≤ maskBits :=
      (h.branch_fits hshape (v := onTrue) (by simp)).1.trans_le (hlanes.trans (by decide))
    have hfit : lane.normalize (.ofTy (.i 1)) = lane := by
      have hc := (h.fits hcmem).lanes
      rw [hknown] at hc
      exact hc lane (List.mem_singleton_self lane)
    have hpos : 0 < shape.lanes := lanes_pos_of_isFullRegister hfull
    exact hgives _ (selectPlan_evaluates_scalar (hknown ▸ h.holds hscene hcmem) hfit ho hb hpos
      hlanes hbound hchosen hpicked)

/-! ## Comparisons of floats -/

theorem shapeAs_truths {holds : Float → Float → Bool} {l r : List Lane} (hl : l.length = n)
    (hr : r.length = n) : shapeAs (.vector n (.i 1)) ((truths holds l r).take n) =
      some (.vector (truths holds l r)) := by
  have hlen : (truths holds l r).length = n := by
    rw [truths, List.length_zipWith, hl, hr, Nat.min_self]
  have hfit : ∀ c ∈ truths holds l r, c.normalize (.ofTy (.vector n (.i 1))) = c := by
    intro c hc
    rw [truths, List.mem_iff_getElem] at hc
    obtain ⟨i, hi, rfl⟩ := hc
    rw [List.getElem_zipWith]
    cases holds _ _ <;> rfl
  rw [List.take_of_length_le (Nat.le_of_eq hlen)]
  exact shapeAs_of_normal rfl (Or.inr (ElemKind.wraps_vector (by decide) (by decide) _ n)) hfit

/-- The run of the function on the arguments gets to a comparison of two vectors of floats. -/
structure ComparesAt (g : Graph) (func : OpId) (entry : BlockId) (args : List RtValue) (op : OpId)
    (ρ : Env) (p : FloatPredicate) (lhs rhs : ValueId) (n : Nat) (format : FloatFormat) : Prop
    extends g.Ready func entry args op ρ where
  compares : g.kind op = .cmpf
  predicate : (g.attrs op).floatPredicate? = some p
  operands : ∃ rest, g.operands op = lhs :: rhs :: rest
  leftTy : (g.value lhs).ty = .vector n (.float format)
  rightTy : (g.value rhs).ty = .vector n (.float format)

namespace ComparesAt

variable {p : FloatPredicate} {format : FloatFormat} (hscene : Scene g gone func)
  (h : g.ComparesAt func entry args op ρ p lhs rhs n format)
include h

omit hscene in
theorem mem_operands : lhs ∈ g.operands op ∧ rhs ∈ g.operands op := by
  obtain ⟨rest, hops⟩ := h.operands
  rw [hops]
  exact ⟨List.mem_cons_self .., List.mem_cons_of_mem _ (List.mem_cons_self ..)⟩

omit hscene in
theorem lengths : (g.known ρ lhs).lanes.length = n ∧ (g.known ρ rhs).lanes.length = n := by
  obtain ⟨hl, hr⟩ := h.mem_operands
  exact ⟨(h.fits hl).length ⟨n, .float format, format.width, true⟩ (by rw [known, h.leftTy]; rfl),
    (h.fits hr).length ⟨n, .float format, format.width, true⟩ (by rw [known, h.rightTy]; rfl)⟩

include hscene

/-- The result has a truth value for each lane. -/
theorem exists_result : ∃ old, g.results op = [old] ∧ (g.value old).ty = .vector n (.i 1) := by
  obtain ⟨rest, hops⟩ := h.operands
  refine hscene.exists_result h.arrives.inside ?_
  rw [h.compares, typesOf, hops, List.map_cons, h.leftTy]
  rfl

/-- The comparison evaluates to what each two lanes are told. -/
theorem evalOp_eq : g.evalOp ρ op =
    .ok (.vector (truths p.holds (g.known ρ lhs).lanes (g.known ρ rhs).lanes)) := by
  obtain ⟨old, hold, holdTy⟩ := h.exists_result hscene
  obtain ⟨rest, hops⟩ := h.operands
  obtain ⟨hl, hr⟩ := h.lengths
  refine h.toReady.evalOp_eq hscene hold ?_
  rw [h.compares, knownOperands, hops, holdTy]
  exact (eval_cmpf h.predicate).mpr ⟨Nat.le_of_eq hl.symm, Nat.le_of_eq hr.symm,
    shapeAs_truths hl hr⟩

end ComparesAt

/-- Take any comparison of two vectors of floats that the rule for them rewrites, and any run that
gets to it. What the rule has made tells each two lanes what the predicate says that comes back
from the integer predicate. -/
theorem compare_twin {p : FloatPredicate} {format : FloatFormat} (hscene : Scene g gone func)
    (h : g.ComparesAt func entry args op ρ p lhs rhs n format)
    (hrun : (cmpToMask .cmpf).run g op sizes = .ok (g', sizes', .matched edits)) :
    ∃ q, intPredicateFor? p = some q ∧ g'.MadeToGive ρ edits
      (.vector (truths q.floatTwin.holds (g.known ρ lhs).lanes (g.known ρ rhs).lanes)) := by
  obtain ⟨old, hold, holdTy⟩ := h.exists_result hscene
  obtain ⟨rest, hops⟩ := h.operands
  obtain ⟨hl, hr⟩ := h.lengths
  obtain ⟨hlmem, hrmem⟩ := h.mem_operands
  obtain ⟨-, r, hlook, hmade⟩ := Rule.run_ofDecision_eq_matched.mp hrun
  have hshape : g.operandShape? op 0 = .ok (some ⟨n, .float format, format.width, true⟩) := by
    rw [hscene.operandShape? h.arrives.inside 0, hops]
    change Except.ok (g.value lhs).ty.vectorShape = _
    rw [h.leftTy]
    rfl
  obtain ⟨_, hfound, hlook⟩ := bind_eq_ok.mp hlook
  obtain rfl := Except.ok.inj (hshape.symm.trans hfound)
  dsimp only at hlook
  obtain ⟨full, hfull, hlook⟩ := bind_eq_ok.mp hlook
  obtain ⟨-, rfl⟩ := fillsRegister_eq_ok.mp hfull
  split at hlook
  · cases hlook
  next hfull =>
  simp only [choosePredicate, h.predicate, beq_self_eq_true, if_true] at hlook
  cases hq : intPredicateFor? p with
  | none =>
    -- A predicate without an integer counterpart is refused.
    rw [hq] at hlook
    cases hlook
  | some q =>
    rw [hq] at hlook
    simp only [binaryOperands_eq hops, firstResultType_eq hold, holdTy, bind, Except.bind] at hlook
    obtain rfl := Decision.rewrite.inj (Except.ok.inj hlook)
    -- The target reads the integer predicate as one of floats again.
    have htests : q.targetHolds (.ofTy (g.known ρ lhs).ty) =
        fun a b => q.floatTwin.holds a.asFloat b.asFloat := by
      rw [known, h.leftTy]
      rfl
    have hplan := comparePlan_evaluates (Γ := []) (h.holds hscene hlmem) (h.holds hscene hrmem) hl
      (Nat.le_of_eq hr.symm) (lanes_le_of_isFullRegister (by simpa using hfull))
      (fun _ => by rw [known, h.leftTy]; rfl) (by rw [htests]; exact shapeAs_truths hl hr)
    exact ⟨q, rfl, madeToGive_of_addRecipe hscene.consistent (.of_makes hplan) hmade⟩

/-- That is what the comparison evaluates to, for every predicate but the two that do not come
back, and for those as well if all lanes are numbers. -/
theorem compare_keeps {p : FloatPredicate} {format : FloatFormat} (hscene : Scene g gone func)
    (h : g.ComparesAt func entry args op ρ p lhs rhs n format)
    (hp : (p ≠ .ueq ∧ p ≠ .one) ∨ List.Forall₂ (fun a b => a.asFloat.isNaN = false ∧
      b.asFloat.isNaN = false) (g.known ρ lhs).lanes (g.known ρ rhs).lanes)
    (hrun : (cmpToMask .cmpf).run g op sizes = .ok (g', sizes', .matched edits)) :
    ∃ x, g.evalOp ρ op = .ok x ∧ g'.MadeToGive ρ edits x := by
  obtain ⟨q, hq, hmade⟩ := compare_twin hscene h hrun
  obtain ⟨hl, hr⟩ := h.lengths
  rw [(truths_floatTwin_iff hq (hl.trans hr.symm)).mpr hp] at hmade
  exact ⟨_, h.evalOp_eq hscene, hmade⟩

end Graph

end SimdLowering
