/-
What the target wants lowered and no rule lowers.

The checks of the target and the rules are separate tables, and they do not quite agree. On the
second generation a sum or difference with a product among its operands is left for a multiply-add,
but multiply-adds are made of two shapes of integer sums only; floats of other widths than those
there are accumulators for are asked for by their lanes alone; and so are reductions, whatever
combines them. On the first one a multiply-add needs an accumulator for its summand, and a splat
goes into a multiply-add only where its lanes have a selection.

`Unserved` lists these operations. Where the rules have come to rest, they are, apart from reads and
from what was refused, exactly what verification reports.
-/
import SimdLowering.Proofs.Fixpoint.Resting
import SimdLowering.Proofs.Target.Records
import SimdLowering.Proofs.Target.Verdicts

set_option autoImplicit false

namespace SimdLowering

open SimdLowering.Graph SimdLowering.Rules SimdLowering.FinalForm

/-! ## The two tables apart -/

/-- The kinds of sums and differences. -/
def sumKinds : List OpKind := [.addi, .subi, .addf, .subf]

/-- Shapes of sums and differences that may not stay on the second generation. -/
def sumIsDue (kind : OpKind) (s : VectorShape) : Bool :=
  if kind = .addi ∨ kind = .subi then s.isElementwise else s.lanes == 16

/-- Shapes that a sum or difference can be planned for. -/
def sumIsPlanned (s : VectorShape) : Bool :=
  if s.isFloat then s.lanes == 16 && (s.elemBits == 32 || s.elemBits == 16) else s.isElementwise

/-- Shapes of vectors whose reductions may not stay, unless they multiply. -/
def reductionIsDue (s : VectorShape) : Bool :=
  if s.isFloat then s.lanes == 16 || s.lanes == 32 else s.isElementwise

/-- What a tree is made of: minima and maxima of one register, sums of integers, and sums of
sixteen floats. -/
def HasTree (kind : CombiningKind) (s : VectorShape) : Prop :=
  ((kind.isMin = true ∨ kind.isMax = true) ∧ s.bits = 512) ∨
    (kind = .add ∧ s.isFloat = false ∧ s.isElementwise = true) ∨
    (kind = .add ∧ s.isFloat = true ∧ (s.pair = (16, 32) ∨ s.pair = (16, 16)))

namespace Graph

/-- The operation may not stay on the generation, and the generation has no rule that would do
anything with it. -/
inductive Unserved (g : Graph) (x : OpId) : Generation → Prop
  /-- An integer sum with one product, whose other summand is no vector. -/
  | summand {shape : VectorShape} {lhs rhs : ValueId} {mac : MacOperands} {ty : Ty} :
      g.kind x = .addi → g.resultShape? x = some shape → g.binaryOperands x = .ok (lhs, rhs) →
      g.macOperands? lhs rhs = .ok (some mac) → g.valueTy mac.acc = .ok ty →
      ty.vectorShape = none → Unserved g x .aie
  /-- A multiply-add that is fed by a splat of a lane nobody knows, or has lanes of a width without
  a selection. -/
  | splat {lhs v : ValueId} {splat extract : OpId} :
      g.kind x = .fma → pendingSplat? g x = .ok (some splat) → g.operandAt splat 0 = .ok v →
      g.definedBy? v .extract = .ok (some extract) → g.operandAt x 0 = .ok lhs →
      (g.extractPosition? extract = none ∨ ∃ ty, g.valueTy lhs = .ok ty ∧
        ∀ width, intWidth? ty.elementType = some width → width ≠ 16 ∧ width ≠ 32) →
      Unserved g x .aie
  /-- A sum or difference that is left for a multiply-add which is not made. -/
  | left {shape : VectorShape} {lhs rhs : ValueId} :
      g.kind x ∈ sumKinds → g.resultShape? x = some shape → sumIsDue (g.kind x) shape = true →
      g.binaryOperands x = .ok (lhs, rhs) → leftForFusion g lhs rhs = .ok true →
      ¬ (g.kind x = .addi ∧ (shape.pair = (32, 16) ∨ shape.pair = (16, 32)) ∧
        ∃ mac, g.macOperands? lhs rhs = .ok (some mac)) →
      Unserved g x .aieml
  /-- A sum or difference without an instruction for its lanes. -/
  | sum {shape : VectorShape} :
      g.kind x ∈ sumKinds → g.resultShape? x = some shape → sumIsDue (g.kind x) shape = true →
      sumIsPlanned shape = false → Unserved g x .aieml
  /-- A product of single-precision floats that do not come from sixteen bits. -/
  | product {shape : VectorShape} {lhs rhs : ValueId} {pair? : Option (ValueId × ValueId × Nat)} :
      g.kind x = .mulf → g.resultShape? x = some shape → shape.pair = (16, 32) →
      g.hasSingleUseBy x .addf = false → g.binaryOperands x = .ok (lhs, rhs) →
      extendedPair? g lhs rhs .extf = .ok pair? → (∀ l r, pair? ≠ some (l, r, 16)) →
      Unserved g x .aieml
  /-- A reduction that there is no tree for. -/
  | reduction {kind : CombiningKind} {shape : VectorShape} :
      g.kind x = .reduction → (g.attrs x).combiningKind? = some kind → kind ≠ .mul →
      g.operandShape? x 0 = .ok (some shape) → reductionIsDue shape = true → ¬ HasTree kind shape →
      Unserved g x .aieml
  /-- A splat of a lane nobody knows. -/
  | lane {v : ValueId} {extract : OpId} :
      g.kind x = .broadcast → g.operandAt x 0 = .ok v →
      g.definedBy? v .extract = .ok (some extract) → g.extractPosition? extract = none →
      Unserved g x .aieml
  /-- A comparison by nothing. -/
  | comparison {shape : VectorShape} :
      g.kind x = .cmpi ∨ g.kind x = .cmpf → g.operandShape? x 0 = .ok (some shape) →
      shape.isFullRegister = true → choosePredicate (g.kind x == .cmpf) (g.attrs x) = .absent →
      Unserved g x .aieml

end Graph

variable {o : LowerOptions} {g : Graph} {x : OpId} {c c' : AccessSizes} {shape : VectorShape}

/-! ## From the rules to the list -/

/-- Once a plan is worked on, the rule does not decline. -/
theorem follow_ne_decline {α : Type} {p : Except Fault α} {plan : α → Plan Step} :
    (do return Decision.follow (plan (← p))) ≠ Except.ok Decision.decline := by
  intro h
  obtain ⟨a, -, h⟩ := bind_eq_ok.mp h
  cases h

/-- Neither does a tree over one register, if its function suits. -/
theorem registerTree_ne_decline {combine : Operand Source → Source → Step} {v : Operand Source}
    (hbits : shape.bits = 512) : registerTree true combine shape v ≠ .ok .decline := by
  intro h
  obtain ⟨bits, hfit, h⟩ := bind_eq_ok.mp h
  obtain ⟨-, rfl⟩ := fitU32_eq_ok.mp hfit
  rw [if_pos hbits] at h
  exact follow_ne_decline h

/-- With the given sizes every rule for its kind has nothing to do with the operation. -/
def LowerOptions.PassesOver (o : LowerOptions) (g : Graph) (x : OpId) (c : AccessSizes) : Prop :=
  ∀ e ∈ o.ruleSet.forKind (g.kind x), ∃ c' outcome,
    e.rule.run g x c = .ok (g, c', outcome) ∧ outcome.Passes

section

variable (h : o.PassesOver g x c)
include h

/-- A rule that works by recipe has declined. -/
theorem LowerOptions.PassesOver.declines {rule : Rule} {name : String} {roots : List OpKind}
    {look : Graph → OpId → Except Fault Decision} (hrule : ∃ e ∈ o.ruleSet.entries, e.rule = rule)
    (hk : g.kind x ∈ rule.roots) (hlook : rule = .ofDecision name roots look) :
    look g x = .ok .decline := by
  obtain ⟨e, he, rfl⟩ := hrule
  obtain ⟨c', outcome, hrun, hpass⟩ := h e (RuleSet.mem_forKind.mpr ⟨he, hk⟩)
  rw [hlook] at hrun
  obtain ⟨-, decision, hdecision, hperform⟩ := Rule.run_ofDecision_eq_ok.mp hrun
  cases decision with
  | decline => exact hdecision
  | refuse reason =>
    cases hperform
    exact hpass.elim
  | rewrite r =>
    -- A recipe has a last step, so there would be something to do.
    obtain rfl := (Prod.mk.inj hperform).2
    simp [Outcome.Passes, Edits.isEmpty] at hpass

/-! ### Second generation -/

variable (ht : o.target = .aieml)
include ht

/-- A sum or difference of a shape that is due. -/
theorem unserved_of_sum (hk : g.kind x ∈ sumKinds) (hshape : g.resultShape? x = some shape)
    (hdue : sumIsDue (g.kind x) shape = true) : g.Unserved x .aieml := by
  -- There is a rule for each of the four kinds, and it has declined.
  have hmem : addSubToElem (g.kind x) ∈ aiemlRules o.shift ∧
      g.kind x ∈ (addSubToElem (g.kind x)).roots := by
    simp only [sumKinds, List.mem_cons, List.not_mem_nil, or_false] at hk
    rcases hk with hk | hk | hk | hk <;> rw [hk] <;> simp [aiemlRules] <;> decide
  have hlook := h.declines (exists_entry_of_mem ht hmem.1) hmem.2 rfl
  dsimp only at hlook
  rw [hshape] at hlook
  obtain ⟨⟨lhs, rhs⟩, hops, hlook⟩ := bind_eq_ok.mp hlook
  obtain ⟨left, hleft, hlook⟩ := bind_eq_ok.mp hlook
  cases left with
  | true =>
    refine .left hk hshape hdue hops hleft ?_
    -- It left the sum for fusion; then the rule that fuses has declined, too.
    rintro ⟨hadd, hfused, mac, hmac⟩
    have hfuse := h.declines (exists_entry_of_mem (r := mulAddToFmaElem o.shift) ht
      (by simp [aiemlRules])) (by rw [hadd]; exact List.mem_singleton_self _) rfl
    dsimp only at hfuse
    rw [hshape] at hfuse
    obtain ⟨p, hp, hfuse⟩ := bind_eq_ok.mp hfuse
    obtain rfl := Except.ok.inj (hops.symm.trans hp)
    obtain ⟨m, hm, hfuse⟩ := bind_eq_ok.mp hfuse
    obtain rfl := Except.ok.inj (hmac.symm.trans hm)
    dsimp only at hfuse
    rw [if_pos hfused] at hfuse
    obtain ⟨ty, -, hfuse⟩ := bind_eq_ok.mp hfuse
    obtain ⟨acc, -, hfuse⟩ := bind_eq_ok.mp hfuse
    cases hfuse
  | false =>
    obtain ⟨ty, -, hlook⟩ := bind_eq_ok.mp hlook
    refine .sum hk hshape hdue ?_
    -- It did not; then there is no plan.
    unfold sumIsPlanned
    split at hlook
    · next hfloat =>
      obtain ⟨plan?, hplan, hlook⟩ := bind_eq_ok.mp hlook
      rw [if_pos hfloat, ← isSome_floatSumPlan? hplan]
      cases plan? with
      | some plan => cases hlook
      | none => rfl
    · next hfloat =>
      obtain ⟨plan?, hplan, hlook⟩ := bind_eq_ok.mp hlook
      rw [if_neg hfloat, ← isSome_intSumPlan? hplan]
      cases plan? with
      | some plan => cases hlook
      | none => rfl

/-- A product of floats that does not wait for a sum. -/
theorem unserved_of_mulf (hk : g.kind x = .mulf) (hshape : g.resultShape? x = some shape)
    (hdue : isFloatProductShape shape = true) (hreader : g.hasSingleUseBy x .addf = false) :
    g.Unserved x .aieml := by
  have hlook := h.declines (exists_entry_of_mem (r := mulFToMulElem o.shift) ht
    (by simp [aiemlRules])) (by rw [hk]; exact List.mem_singleton_self _) rfl
  dsimp only at hlook
  rw [hshape, hreader] at hlook
  dsimp only at hlook
  rw [show isFloatProduct shape = true from hdue] at hlook
  obtain ⟨⟨lhs, rhs⟩, hops, hlook⟩ := bind_eq_ok.mp hlook
  obtain ⟨ty, -, hlook⟩ := bind_eq_ok.mp hlook
  split at hlook
  · cases hlook
  next hwide =>
  obtain ⟨pair?, hpair, hlook⟩ := bind_eq_ok.mp hlook
  simp only [isFloatProductShape, Bool.and_eq_true, beq_iff_eq, Bool.or_eq_true] at hdue
  refine .product hk hshape (Prod.ext hdue.1 (hdue.2.resolve_left hwide)) hreader hops hpair ?_
  rintro l r rfl
  obtain ⟨ty, -, hlook⟩ := bind_eq_ok.mp hlook
  cases hlook

/-- The decision about a reduction is that of the rule for its function and its lanes. -/
theorem LowerOptions.PassesOver.declines_reduction {rule : Rule} {name : String}
    {look : CombiningKind → VectorShape → Operand Source → Except Fault Decision}
    {kind : CombiningKind} (hk : g.kind x = .reduction) (hmem : rule ∈ aiemlRules o.shift)
    (hrule : rule = reductionRule name look) (hkind : (g.attrs x).combiningKind? = some kind)
    (hshape : g.operandShape? x 0 = .ok (some shape)) :
    ∃ v, look kind shape v = .ok .decline := by
  obtain rfl := hrule
  have hlook := h.declines (exists_entry_of_mem ht hmem)
    (by rw [hk]; exact List.mem_singleton_self _)
    rfl
  obtain ⟨input, hinput, hlook⟩ := bind_eq_ok.mp hlook
  unfold operandShape? at hshape
  unfold reductionInput? at hinput
  rw [hkind, List.head?_eq_getElem?] at hinput
  -- Check and rule read the same operand, so they see the same lanes.
  cases hv : (g.operands x)[0]? with
  | none =>
    rw [hv] at hshape
    cases hshape
  | some v =>
    rw [hv] at hshape hinput
    dsimp only at hshape hinput
    obtain ⟨source, hsource, hinput⟩ := bind_eq_ok.mp hinput
    obtain ⟨ty, hty, hsource⟩ := bind_eq_ok.mp hsource
    cases hsource
    obtain ⟨ty', hty', hshape⟩ := bind_eq_ok.mp hshape
    obtain rfl := Except.ok.inj (hty.symm.trans hty')
    cases hinput
    rw [Except.ok.inj hshape] at hlook
    exact ⟨_, hlook⟩

/-- A reduction of a shape that is due. -/
theorem unserved_of_reduction {kind : CombiningKind} (hk : g.kind x = .reduction)
    (hkind : (g.attrs x).combiningKind? = some kind) (hmul : kind ≠ .mul)
    (hshape : g.operandShape? x 0 = .ok (some shape)) (hdue : reductionIsDue shape = true) :
    g.Unserved x .aieml := by
  refine .reduction hk hkind hmul hshape hdue ?_
  -- For each combination that a rule covers, that rule would have matched.
  rintro (⟨hside, hbits⟩ | ⟨rfl, hint, helem⟩ | ⟨rfl, hfloat, hpair⟩)
  · rcases hside with hmin | hmax
    · obtain ⟨v, hlook⟩ := h.declines_reduction ht hk
        (show minReduction ∈ aiemlRules o.shift by simp [aiemlRules]) rfl hkind hshape
      rw [hmin] at hlook
      exact registerTree_ne_decline hbits hlook
    · obtain ⟨v, hlook⟩ := h.declines_reduction ht hk
        (show maxReduction ∈ aiemlRules o.shift by simp [aiemlRules]) rfl hkind hshape
      rw [hmax] at hlook
      exact registerTree_ne_decline hbits hlook
  · obtain ⟨v, hlook⟩ := h.declines_reduction ht hk
      (show intAddReduction ∈ aiemlRules o.shift by simp [aiemlRules]) rfl hkind hshape
    rw [if_neg (by simp [hint, helem])] at hlook
    split at hlook <;> exact follow_ne_decline hlook
  · rcases hpair with hpair | hpair
    · obtain ⟨v, hlook⟩ := h.declines_reduction ht hk
        (show f32AddReduction ∈ aiemlRules o.shift by simp [aiemlRules]) rfl hkind hshape
      rw [if_neg (by simp [hfloat, hpair])] at hlook
      exact follow_ne_decline hlook
    · obtain ⟨v, hlook⟩ := h.declines_reduction ht hk
        (show bf16AddReduction ∈ aiemlRules o.shift by simp [aiemlRules]) rfl hkind hshape
      rw [if_neg (by simp [hfloat, hpair])] at hlook
      exact follow_ne_decline hlook

/-- A splat of an extracted lane. -/
theorem unserved_of_broadcast {v : ValueId} {extract : OpId} (hk : g.kind x = .broadcast)
    (hv : g.operandAt x 0 = .ok v) (hextract : g.definedBy? v .extract = .ok (some extract)) :
    g.Unserved x .aieml := by
  have hlook := h.declines (exists_entry_of_mem (r := extractBroadcastToLane) ht
    (by simp [aiemlRules])) (by rw [hk]; exact List.mem_singleton_self _) rfl
  obtain ⟨v', hv', hlook⟩ := bind_eq_ok.mp hlook
  obtain rfl := Except.ok.inj (hv.symm.trans hv')
  obtain ⟨e, he, hlook⟩ := bind_eq_ok.mp hlook
  obtain rfl := Except.ok.inj (hextract.symm.trans he)
  dsimp only at hlook
  cases hposition : g.extractPosition? extract with
  | none => exact .lane hk hv hextract hposition
  | some position =>
    rw [hposition] at hlook
    obtain ⟨v, -, hlook⟩ := bind_eq_ok.mp hlook
    obtain ⟨ty, -, hlook⟩ := bind_eq_ok.mp hlook
    cases hlook

/-- A comparison of full registers. -/
theorem unserved_of_comparison (hk : g.kind x = .cmpi ∨ g.kind x = .cmpf)
    (hshape : g.operandShape? x 0 = .ok (some shape)) (hdue : shape.isFullRegister = true) :
    g.Unserved x .aieml := by
  have hmem : cmpToMask (g.kind x) ∈ aiemlRules o.shift ∧
      g.kind x ∈ (cmpToMask (g.kind x)).roots := by
    rcases hk with hk | hk <;> rw [hk] <;> simp [aiemlRules] <;> decide
  have hlook := h.declines (exists_entry_of_mem ht hmem.1) hmem.2 rfl
  obtain ⟨shape', hshape', hlook⟩ := bind_eq_ok.mp hlook
  obtain rfl := Except.ok.inj (hshape.symm.trans hshape')
  obtain ⟨full, hfull, hlook⟩ := bind_eq_ok.mp hlook
  obtain rfl := Except.ok.inj ((fillsRegister_of_full hdue).symm.trans hfull)
  -- The rule declines only where there is no predicate at all.
  cases hchoice : choosePredicate (g.kind x == .cmpf) (g.attrs x) with
  | absent => exact .comparison hk hshape hdue hchoice
  | without p =>
    rw [hchoice] at hlook
    cases hlook
  | use p =>
    rw [hchoice] at hlook
    obtain ⟨p, -, hlook⟩ := bind_eq_ok.mp hlook
    obtain ⟨ty, -, hlook⟩ := bind_eq_ok.mp hlook
    cases hlook

end

/-! ### First generation -/

/-- The splat that may be folded is the one that is looked for. -/
theorem splatAndFactor?_of_pendingSplat? {lhs rhs first : ValueId} {concat splat : OpId}
    {found : Option (OpId × ValueId)} (hsplat : pendingSplat? g x = .ok (some splat))
    (hlhs : g.operandAt x 0 = .ok lhs) (hrhs : g.operandAt x 1 = .ok rhs)
    (hconcat : g.definedBy? lhs .concat = .ok (some concat))
    (hfirst : g.operandAt concat 0 = .ok first) (hfound : splatAndFactor? g first rhs = .ok found) :
    ∃ factor, found = some (splat, factor) := by
  unfold pendingSplat? at hsplat
  simp only [hlhs, hconcat, hfirst, hrhs, bind, Except.bind] at hsplat
  obtain ⟨splat?, hdefined, hfound⟩ := bind_eq_ok.mp hfound
  rw [hdefined] at hsplat
  cases splat? with
  | some splat' =>
    cases hsplat
    cases hfound
    exact ⟨_, rfl⟩
  | none =>
    obtain ⟨splat?, hdefined, hfound⟩ := bind_eq_ok.mp hfound
    obtain rfl := Except.ok.inj (hdefined.symm.trans hsplat)
    cases hfound
    exact ⟨_, rfl⟩

section

variable (h : o.PassesOver g x c) (ht : o.target = .aie)
include h ht

/-- On the first generation one of any shape. -/
theorem unserved_of_aie_sum (hk : g.kind x ∈ sumKinds)
    (hshape : g.resultShape? x = some shape) : g.Unserved x .aie := by
  have hmem : shuffledAddSub (g.kind x) ∈ aieRules ∧
      g.kind x ∈ (shuffledAddSub (g.kind x)).roots := by
    simp only [sumKinds, List.mem_cons, List.not_mem_nil, or_false] at hk
    rcases hk with hk | hk | hk | hk <;> rw [hk] <;> simp [aieRules] <;> decide
  have hlook := h.declines (aie_exists_entry_of_mem ht hmem.1) hmem.2 rfl
  dsimp only at hlook
  rw [hshape] at hlook
  obtain ⟨⟨lhs, rhs⟩, hops, hlook⟩ := bind_eq_ok.mp hlook
  -- Only an integer sum with a product is left to another rule.
  obtain ⟨hadd, mac, hmac⟩ : g.kind x = .addi ∧ ∃ mac, g.macOperands? lhs rhs = .ok (some mac) := by
    split at hlook
    · next hadd =>
      obtain ⟨fuses, hfuses, hlook⟩ := bind_eq_ok.mp hlook
      obtain ⟨mac?, hmac, rfl⟩ := map_eq_ok.mp hfuses
      cases mac? with
      | some mac => exact ⟨hadd, mac, hmac⟩
      | none =>
        obtain ⟨ty, -, hlook⟩ := bind_eq_ok.mp hlook
        cases hlook
    · obtain ⟨fuses, hfuses, hlook⟩ := bind_eq_ok.mp hlook
      cases hfuses
      obtain ⟨ty, -, hlook⟩ := bind_eq_ok.mp hlook
      cases hlook
  have hfuse := h.declines (aie_exists_entry_of_mem (r := mulAddToFma) ht (by simp [aieRules]))
    (by rw [hadd]; exact List.mem_singleton_self _) rfl
  dsimp only at hfuse
  rw [hshape] at hfuse
  obtain ⟨p, hp, hfuse⟩ := bind_eq_ok.mp hfuse
  obtain rfl := Except.ok.inj (hops.symm.trans hp)
  obtain ⟨m, hm, hfuse⟩ := bind_eq_ok.mp hfuse
  obtain rfl := Except.ok.inj (hmac.symm.trans hm)
  obtain ⟨ty, hty, hfuse⟩ := bind_eq_ok.mp hfuse
  refine .summand hadd hshape hops hmac hty ?_
  split at hfuse
  · next hnone => exact Option.map_eq_none_iff.mp hnone
  · obtain ⟨ty, -, hfuse⟩ := bind_eq_ok.mp hfuse
    obtain ⟨lanes, -, hfuse⟩ := bind_eq_ok.mp hfuse
    cases hfuse

/-- And a multiply-add that a splat could be folded into. -/
theorem unserved_of_fma (hk : g.kind x = .fma)
    (htest : noPendingSplat g x = .ok false) : g.Unserved x .aie := by
  have hlook := h.declines (aie_exists_entry_of_mem (r := foldBroadcastToFma) ht
    (by simp [aieRules]))
    (by rw [hk]; exact List.mem_singleton_self _) rfl
  -- The check has found a splat of an extracted lane; the rule has declined nevertheless.
  obtain ⟨splat?, hsplat, htest⟩ := bind_eq_ok.mp htest
  cases splat? with
  | none => cases htest
  | some splat =>
    obtain ⟨v, hv, htest⟩ := bind_eq_ok.mp htest
    obtain ⟨extract?, hextract, htest⟩ := bind_eq_ok.mp htest
    cases extract? with
    | none => cases htest
    | some extract =>
      obtain ⟨lhs, hlhs, hlook⟩ := bind_eq_ok.mp hlook
      obtain ⟨rhs, hrhs, hlook⟩ := bind_eq_ok.mp hlook
      obtain ⟨acc, -, hlook⟩ := bind_eq_ok.mp hlook
      obtain ⟨concat?, hconcat, hlook⟩ := bind_eq_ok.mp hlook
      cases concat? with
      | none =>
        simp only [pendingSplat?, hlhs, hconcat, bind, Except.bind] at hsplat
        cases hsplat
      | some concat =>
        obtain ⟨first, hfirst, hlook⟩ := bind_eq_ok.mp hlook
        obtain ⟨found, hfound, hlook⟩ := bind_eq_ok.mp hlook
        -- The rule looks for the same splat and finds the factor beside it.
        obtain ⟨factor, rfl⟩ :=
          splatAndFactor?_of_pendingSplat? hsplat hlhs hrhs hconcat hfirst hfound
        obtain ⟨w, hw, hlook⟩ := bind_eq_ok.mp hlook
        obtain rfl := Except.ok.inj (hv.symm.trans hw)
        obtain ⟨e, he, hlook⟩ := bind_eq_ok.mp hlook
        obtain rfl := Except.ok.inj (hextract.symm.trans he)
        obtain ⟨source, -, hlook⟩ := bind_eq_ok.mp hlook
        refine .splat hk hsplat hv hextract hlhs ?_
        -- It declines where the extract has no position, or where no selection fits the width.
        split at hlook
        · next hposition => exact Or.inl hposition
        · next position hposition =>
          obtain ⟨concatTy, -, hlook⟩ := bind_eq_ok.mp hlook
          obtain ⟨ty, hty, hlook⟩ := bind_eq_ok.mp hlook
          refine Or.inr ⟨ty, hty, fun width hwidth => ?_⟩
          dsimp only at hlook
          rw [hwidth, Option.bind_some] at hlook
          split at hlook
          · next hnone =>
            unfold splatShuffle? at hnone
            split at hnone
            · cases hnone
            · cases hnone
            · next h16 h32 => exact ⟨h16, h32⟩
          · obtain ⟨ty, -, hlook⟩ := bind_eq_ok.mp hlook
            obtain ⟨factor, -, hlook⟩ := bind_eq_ok.mp hlook
            cases hlook

end

/-! ## From the list to the verdict -/

namespace ConversionTarget

variable {t : ConversionTarget}

/-- What fails a test may not stay. -/
theorem illegal_of_test {test : Graph → OpId → Except Fault Bool}
    (h : t.checks (g.kind x) = some (.ofTest test)) (htest : test g x = .ok false) :
    t.legality g x c = .ok (.illegal, c) := by
  rw [legality_of_check h, LegalityCheck.ofTest, htest]
  rfl

/-- What may not stay fails its test. -/
theorem test_of_illegal {test : Graph → OpId → Except Fault Bool}
    (h : t.checks (g.kind x) = some (.ofTest test))
    (hillegal : t.legality g x c = .ok (.illegal, c')) : test g x = .ok false := by
  obtain ⟨ok, htest, hverdict⟩ := (legality_eq_ok_of_check h).mp hillegal
  obtain ⟨ok', hok, hsame⟩ := bind_eq_ok.mp htest
  cases hsame
  cases ok with
  | false => exact hok
  | true => cases hverdict

/-- What may not stay by a check that is a predicate does not have it. -/
theorem predicate_of_illegal {p : Graph → OpId → Bool}
    (h : t.checks (g.kind x) = some (.ofPredicate p))
    (hillegal : t.legality g x c = .ok (.illegal, c')) : p g x = false := by
  have htest : t.checks (g.kind x) = some (.ofTest fun g x => .ok (p g x)) := h
  exact Except.ok.inj (test_of_illegal htest hillegal)

end ConversionTarget

/-- A result does not avoid the shapes that it has. -/
theorem resultAvoids_eq_false {p : VectorShape → Bool} :
    resultAvoids p g x = false ↔ ∃ shape, g.resultShape? x = some shape ∧ p shape = true := by
  cases h : g.resultShape? x <;> simp [resultAvoids, h]

/-- Nor does an operand. -/
theorem operandAvoids_eq_false {p : VectorShape → Bool} :
    operandAvoids p g x = .ok false ↔
      ∃ shape, g.operandShape? x 0 = .ok (some shape) ∧ p shape = true := by
  unfold operandAvoids
  cases g.operandShape? x 0 with
  | error e => simp [bind, Except.bind]
  | ok shape? => cases shape? <;> simp [bind, Except.bind, pure, Except.pure]

/-- A result is no register unless it fills one. -/
theorem resultNoRegister_eq_false : resultNoRegister g x = .ok false ↔
    ∃ shape, g.resultShape? x = some shape ∧ shape.isFullRegister = true := by
  unfold resultNoRegister
  cases g.resultShape? x with
  | none => simp
  | some shape =>
    constructor
    · intro h
      obtain ⟨full, hfull, hnot⟩ := bind_eq_ok.mp h
      obtain ⟨-, rfl⟩ := fillsRegister_eq_ok.mp hfull
      exact ⟨shape, rfl, by simpa using Except.ok.inj hnot⟩
    · rintro ⟨full, hsame, hfull⟩
      obtain rfl := Option.some.inj hsame
      exact bind_eq_ok.mpr ⟨true, fillsRegister_of_full hfull, rfl⟩

/-- Nor is an operand. -/
theorem operandNoRegister_eq_false : operandNoRegister g x = .ok false ↔
    ∃ shape, g.operandShape? x 0 = .ok (some shape) ∧ shape.isFullRegister = true := by
  unfold operandNoRegister
  constructor
  · intro h
    obtain ⟨shape?, hshape, h⟩ := bind_eq_ok.mp h
    cases shape? with
    | none => cases h
    | some shape =>
      obtain ⟨full, hfull, hnot⟩ := bind_eq_ok.mp h
      obtain ⟨-, rfl⟩ := fillsRegister_eq_ok.mp hfull
      exact ⟨shape, hshape, by simpa using Except.ok.inj hnot⟩
  · rintro ⟨shape, hshape, hfull⟩
    exact bind_eq_ok.mpr ⟨_, hshape, bind_eq_ok.mpr ⟨true, fillsRegister_of_full hfull, rfl⟩⟩

/-- A reduction does not stay if its kind and shape are due. -/
theorem reductionStays_eq_false : reductionStays g x = .ok false ↔
    ∃ kind shape, (g.attrs x).combiningKind? = some kind ∧ kind ≠ .mul ∧
      g.operandShape? x 0 = .ok (some shape) ∧ reductionIsDue shape = true := by
  unfold reductionStays
  split
  · next h => simp [h]
  · next h => simp [h]
  · next kind hmul h =>
    rw [operandAvoids_eq_false]
    constructor
    · rintro ⟨shape, hshape, hdue⟩
      exact ⟨kind, shape, h, hmul, hshape, hdue⟩
    · rintro ⟨kind, shape, -, -, hshape, hdue⟩
      exact ⟨shape, hshape, hdue⟩

/-- A splat does not stay if it is of an extracted lane. -/
theorem splatStays_eq_false : splatStays g x = .ok false ↔ ∃ v extract,
    g.operandAt x 0 = .ok v ∧ g.definedBy? v .extract = .ok (some extract) := by
  unfold splatStays
  constructor
  · intro h
    obtain ⟨v, hv, h⟩ := bind_eq_ok.mp h
    obtain ⟨extract?, hextract, h⟩ := bind_eq_ok.mp h
    cases extract? with
    | none => cases h
    | some extract => exact ⟨v, extract, hv, hextract⟩
  · rintro ⟨v, extract, hv, hextract⟩
    simp [hv, hextract, bind, Except.bind, pure, Except.pure]

namespace Generation

/-- A sum or difference may stay on the second generation if its shape is not due. -/
theorem legality_sum (hk : g.kind x ∈ sumKinds) : aieml.conversionTarget.legality g x c =
    .ok (if resultAvoids (sumIsDue (g.kind x)) g x then .legal else .illegal, c) := by
  simp only [sumKinds, List.mem_cons, List.not_mem_nil, or_false] at hk
  rcases hk with hk | hk | hk | hk <;>
    exact ConversionTarget.legality_of_predicate (by rw [hk]; rfl)

/-- A sum or difference may stay on the first generation if it has no lanes. -/
theorem aie_legality_sum (hk : g.kind x ∈ sumKinds) : aie.conversionTarget.legality g x c =
    .ok (if scalarResult g x then .legal else .illegal, c) := by
  simp only [sumKinds, List.mem_cons, List.not_mem_nil, or_false] at hk
  rcases hk with hk | hk | hk | hk <;>
    exact ConversionTarget.legality_of_predicate (by rw [hk]; rfl)

end Generation

/-- What is on the list may not stay. -/
theorem Graph.Unserved.legality {gen : Generation} (h : g.Unserved x gen) (c : AccessSizes) :
    gen.conversionTarget.legality g x c = .ok (.illegal, c) := by
  -- Each case names the check that does not let it stay.
  cases h with
  | summand hk hshape =>
    rw [Generation.aie_legality_sum (by rw [hk]; decide), scalarResult, hshape]
    rfl
  | splat hk hsplat hv hextract =>
    refine ConversionTarget.illegal_of_test (by rw [hk]; rfl) ?_
    simp [noPendingSplat, hsplat, hv, hextract, bind, Except.bind, pure, Except.pure]
  | left hk hshape hdue | sum hk hshape hdue =>
    rw [Generation.legality_sum hk, resultAvoids_eq_false.mpr ⟨_, hshape, hdue⟩]
    rfl
  | product hk hshape hpair hreader =>
    have hstays : productStays .addf isFloatProductShape g x = false := by
      obtain ⟨hlanes, hbits⟩ := Prod.mk.inj hpair
      rw [productStays, hreader, resultAvoids_eq_false.mpr ⟨_, hshape, by
        simp [isFloatProductShape, hlanes, hbits]⟩]
      rfl
    rw [ConversionTarget.legality_of_predicate (p := productStays .addf isFloatProductShape)
      (by rw [hk]; rfl), hstays]
    rfl
  | reduction hk hkind hmul hshape hdue =>
    exact ConversionTarget.illegal_of_test (by rw [hk]; rfl)
      (reductionStays_eq_false.mpr ⟨_, _, hkind, hmul, hshape, hdue⟩)
  | lane hk hv hextract =>
    exact ConversionTarget.illegal_of_test (by rw [hk]; rfl)
      (splatStays_eq_false.mpr ⟨_, _, hv, hextract⟩)
  | comparison hk hshape hdue =>
    have hcheck : Generation.aieml.conversionTarget.checks (g.kind x) =
        some (.ofTest operandNoRegister) := by
      rcases hk with hk | hk <;> rw [hk] <;> rfl
    exact ConversionTarget.illegal_of_test hcheck
      (operandNoRegister_eq_false.mpr ⟨_, hshape, hdue⟩)

/-! ## From the verdict to the list -/

/-- The kinds of minima and maxima. -/
def extremumKinds : List OpKind := [.minsi, .maxsi, .minf, .maxf]

/-- The kinds that there is a check for. -/
def Generation.checkedKinds : Generation → List OpKind
  | aie => sumKinds ++ [.upd, .fma]
  | aieml => sumKinds ++ extremumKinds ++
      [.upd, .muli, .mulf, .select, .cmpi, .cmpf, .reduction, .broadcast]

/-- What may not stay is a read or fails a check. -/
theorem Generation.kind_of_illegal {gen : Generation}
    (h : gen.conversionTarget.legality g x c = .ok (.illegal, c'))
      (hread : g.kind x ≠ .transferRead) :
    g.kind x ∈ gen.checkedKinds := by
  have table : ∀ k, gen.conversionTarget.kindLegality k = .illegal → k = .transferRead := by
    intro k hillegal
    cases gen <;> cases k <;> first | rfl | cases hillegal
  have checked : ∀ k, (gen.conversionTarget.checks k).isSome = true → k ∈ gen.checkedKinds := by
    intro k
    cases gen <;> cases k <;> decide
  cases hcheck : gen.conversionTarget.checks (g.kind x) with
  | some check => exact checked _ (by rw [hcheck]; rfl)
  | none =>
    rw [ConversionTarget.legality_of_kind hcheck, Except.ok.injEq] at h
    exact absurd (table _ (Prod.mk.inj h).1) hread

section

variable (h : o.PassesOver g x c)
include h

/-- Products of integers are passed over only where they may stay. -/
theorem LowerOptions.PassesOver.muli (ht : o.target = .aieml) (hk : g.kind x = .muli) :
    productStays .addi isIntProductShape g x = true := by
  by_contra hnot
  rw [Bool.not_eq_true, productStays, Bool.or_eq_false_iff, resultAvoids_eq_false] at hnot
  obtain ⟨hreader, shape, hshape, hdue⟩ := hnot
  have hlook := h.declines (exists_entry_of_mem (r := mulIToMulElem o.shift) ht
    (by simp [aiemlRules])) (by rw [hk]; exact List.mem_singleton_self _) rfl
  dsimp only at hlook
  rw [hshape, hreader] at hlook
  dsimp only at hlook
  have hproduct : (isNarrowProduct shape || isWideProduct shape) = true := by
    rw [← hdue, isNarrowProduct, isIntProductShape, isWideProduct,
      Bool.or_comm (shape.elemBits == 16)]
  rw [hproduct] at hlook
  obtain ⟨p, -, hlook⟩ := bind_eq_ok.mp hlook
  obtain ⟨ty, -, hlook⟩ := bind_eq_ok.mp hlook
  obtain ⟨plan, -, hlook⟩ := bind_eq_ok.mp hlook
  cases hlook

/-- So are minima and maxima. -/
theorem LowerOptions.PassesOver.extremum (ht : o.target = .aieml)
    (hk : g.kind x ∈ extremumKinds) :
    resultNoRegister g x ≠ .ok false := by
  rw [Ne, resultNoRegister_eq_false]
  rintro ⟨shape, hshape, hdue⟩
  have hmem : minMaxToElem (g.kind x) ∈ aiemlRules o.shift ∧
      g.kind x ∈ (minMaxToElem (g.kind x)).roots := by
    simp only [extremumKinds, List.mem_cons, List.not_mem_nil, or_false] at hk
    rcases hk with hk | hk | hk | hk <;> rw [hk] <;> simp [aiemlRules] <;> decide
  have hlook := h.declines (exists_entry_of_mem ht hmem.1) hmem.2 rfl
  dsimp only at hlook
  rw [hshape] at hlook
  obtain ⟨full, hfull, hlook⟩ := bind_eq_ok.mp hlook
  obtain rfl := Except.ok.inj ((fillsRegister_of_full hdue).symm.trans hfull)
  obtain ⟨p, -, hlook⟩ := bind_eq_ok.mp hlook
  obtain ⟨source, -, hlook⟩ := bind_eq_ok.mp hlook
  cases hlook

/-- So are selects. -/
theorem LowerOptions.PassesOver.select (ht : o.target = .aieml) (hk : g.kind x = .select) :
    resultNoRegister g x ≠ .ok false := by
  rw [Ne, resultNoRegister_eq_false]
  rintro ⟨shape, hshape, hdue⟩
  have hlook := h.declines (exists_entry_of_mem (r := selectToSel) ht (by simp [aiemlRules]))
    (by rw [hk]; exact List.mem_singleton_self _) rfl
  dsimp only at hlook
  rw [hshape] at hlook
  obtain ⟨full, hfull, hlook⟩ := bind_eq_ok.mp hlook
  obtain rfl := Except.ok.inj ((fillsRegister_of_full hdue).symm.trans hfull)
  obtain ⟨cond, -, hlook⟩ := bind_eq_ok.mp hlook
  obtain ⟨onTrue, -, hlook⟩ := bind_eq_ok.mp hlook
  obtain ⟨onFalse, -, hlook⟩ := bind_eq_ok.mp hlook
  obtain ⟨source, -, hlook⟩ := bind_eq_ok.mp hlook
  cases hlook

variable {c₁ c₂ : AccessSizes}

/-- On the first generation, what may not stay and is neither read nor load is listed. -/
theorem aie_unserved_of_illegal (ht : o.target = .aie)
    (hillegal : Generation.aie.conversionTarget.legality g x c₁ = .ok (.illegal, c₂))
    (hread : g.kind x ≠ .transferRead) (hload : g.kind x ≠ .upd) : g.Unserved x .aie := by
  have hkind := Generation.kind_of_illegal hillegal hread
  simp only [Generation.checkedKinds, List.mem_append, List.mem_cons, List.not_mem_nil,
    or_false] at hkind
  rcases hkind with hk | hk | hk
  · rw [Generation.aie_legality_sum hk, scalarResult] at hillegal
    cases hshape : g.resultShape? x with
    | none =>
      rw [hshape] at hillegal
      cases hillegal
    | some shape => exact unserved_of_aie_sum h ht hk hshape
  · exact absurd hk hload
  · exact unserved_of_fma h ht hk (ConversionTarget.test_of_illegal (by rw [hk]; rfl) hillegal)

/-- And so it is on the second. -/
theorem aieml_unserved_of_illegal (ht : o.target = .aieml)
    (hillegal : Generation.aieml.conversionTarget.legality g x c₁ = .ok (.illegal, c₂))
    (hread : g.kind x ≠ .transferRead) (hload : g.kind x ≠ .upd) : g.Unserved x .aieml := by
  have predicate : ∀ {p}, Generation.aieml.conversionTarget.checks (g.kind x) =
      some (.ofPredicate p) → p g x = false := fun hcheck =>
    ConversionTarget.predicate_of_illegal hcheck hillegal
  have test : ∀ {p}, Generation.aieml.conversionTarget.checks (g.kind x) = some (.ofTest p) →
      p g x = .ok false := fun hcheck => ConversionTarget.test_of_illegal hcheck hillegal
  have comparison : g.kind x = .cmpi ∨ g.kind x = .cmpf → g.Unserved x .aieml := by
    intro hk
    obtain ⟨shape, hshape, hdue⟩ := operandNoRegister_eq_false.mp
      (test (by rcases hk with hk | hk <;> rw [hk] <;> rfl))
    exact unserved_of_comparison h ht hk hshape hdue
  have hkind := Generation.kind_of_illegal hillegal hread
  simp only [Generation.checkedKinds, List.mem_append, List.mem_cons, List.not_mem_nil,
    or_false] at hkind
  -- Each kind with a check has its own reason why it may not stay and is not served.
  rcases hkind with (hk | hk) | hk | hk | hk | hk | hk | hk | hk | hk
  · rw [Generation.legality_sum hk] at hillegal
    cases hstays : resultAvoids (sumIsDue (g.kind x)) g x with
    | true =>
      rw [hstays] at hillegal
      cases hillegal
    | false =>
      obtain ⟨shape, hshape, hdue⟩ := resultAvoids_eq_false.mp hstays
      exact unserved_of_sum h ht hk hshape hdue
  · refine absurd (test ?_) (h.extremum ht hk)
    simp only [extremumKinds, List.mem_cons, List.not_mem_nil, or_false] at hk
    rcases hk with hk | hk | hk | hk <;> rw [hk] <;> rfl
  · exact absurd hk hload
  · have hfails := predicate (p := productStays .addi isIntProductShape) (by rw [hk]; rfl)
    rw [h.muli ht hk] at hfails
    cases hfails
  · have hfails := predicate (p := productStays .addf isFloatProductShape) (by rw [hk]; rfl)
    rw [productStays, Bool.or_eq_false_iff, resultAvoids_eq_false] at hfails
    obtain ⟨hreader, shape, hshape, hdue⟩ := hfails
    exact unserved_of_mulf h ht hk hshape hdue hreader
  · exact absurd (test (by rw [hk]; rfl)) (h.select ht hk)
  · exact comparison (Or.inl hk)
  · exact comparison (Or.inr hk)
  · obtain ⟨kind, shape, hcombine, hmul, hshape, hdue⟩ :=
      reductionStays_eq_false.mp (test (by rw [hk]; rfl))
    exact unserved_of_reduction h ht hk hcombine hmul hshape hdue
  · obtain ⟨v, extract, hv, hextract⟩ := splatStays_eq_false.mp (test (by rw [hk]; rfl))
    exact unserved_of_broadcast h ht hk hv hextract

/-- What may not stay and is passed over is on the list, reads and loads apart. -/
theorem unserved_of_illegal
    (hillegal : o.target.conversionTarget.legality g x c₁ = .ok (.illegal, c₂))
    (hread : g.kind x ≠ .transferRead) (hload : g.kind x ≠ .upd) : g.Unserved x o.target := by
  cases ht : o.target with
  | aie => exact aie_unserved_of_illegal h ht (ht ▸ hillegal) hread hload
  | aieml => exact aieml_unserved_of_illegal h ht (ht ▸ hillegal) hread hload

end

end SimdLowering
