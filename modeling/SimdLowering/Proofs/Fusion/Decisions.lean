/-
A function that multiplies and adds, as the rules see it.

Two parameters are multiplied, a third one is added to the product, and the sum is returned.
The multiplication may stay, because the sum is its only reader; the sum may not, and of the two
rules that look at it one follows and the other leaves it to the first. Once the sum is fused
nobody reads the product any more, and then the rule for products takes it.
-/
import SimdLowering.Proofs.Fusion.Arithmetic
import SimdLowering.Proofs.Lowering.Rounds
import SimdLowering.Proofs.Rewrite.Evaluation
import SimdLowering.Proofs.Rewrite.Uses
import SimdLowering.Proofs.Target.Verdicts

set_option autoImplicit false

namespace SimdLowering

open SimdLowering.Rules SimdLowering.FinalForm

namespace Graph

variable {g : Graph} {gone : List OpId} {func mul add ret op o : OpId} {entry : BlockId}
  {a b c v product sum lhs rhs : ValueId} {ty : Ty} {n width : Nat} {sign : Signedness} {k : OpKind}
  {shift : Int} {sizes : AccessSizes}

/-! ## The function -/

/-- The body of the function multiplies two parameters of one type, adds a third one of that
type to the product, which nobody else reads, and returns the sum. -/
structure MultipliesAndAdds (g : Graph) (func : OpId) (entry : BlockId) (mul add ret : OpId)
    (a b c product sum : ValueId) (ty : Ty) : Prop where
  isEntry : g.IsEntry func entry
  body : g.opsIn entry = [mul, add, ret]
  alone : ∀ d, g.Inside func d → d ∈ g.opsIn entry
  mulKind : g.kind mul = .muli
  mulOperands : g.operands mul = [a, b]
  mulResults : g.results mul = [product]
  addKind : g.kind add = .addi
  addOperands : g.operands add = [product, c] ∨ g.operands add = [c, product]
  addResults : g.results add = [sum]
  retKind : g.kind ret = .ret
  retOperands : g.operands ret = [sum]
  params : ∀ v ∈ [a, b, c], v ∈ g.argsOf entry ∧ (g.value v).ty = ty
  onlyRead : ∀ u ∈ g.uses product, u.user = add

/-- No operation defines a parameter. -/
theorem definedBy?_of_mem_argsOf (hc : Consistent g gone) (hv : v ∈ g.argsOf entry) :
    g.definedBy? v k = .ok none := by
  obtain ⟨i, hi⟩ := List.mem_iff_getElem?.mp hv
  have horigin := (hc.takes entry i v).mp hi
  have hvalue := hasValue_of_originOf? horigin
  rw [originOf?_of_hasValue hvalue] at horigin
  simp only [definedBy?, definingOp?, lookup, value?_eq_some hvalue, bind, Except.bind,
    Option.some.inj horigin]
  rfl

/-- If one side of a sum is a product and the other is none, the factors and the other side are
found. -/
theorem macOperands?_of_product (hmul : g.definedBy? product .muli = .ok (some mul))
    (hsummand : g.definedBy? c .muli = .ok none) (hfactors : g.operands mul = [a, b])
    (hops : g.operands add = [product, c] ∨ g.operands add = [c, product]) :
    ∃ lhs rhs, g.operands add = [lhs, rhs] ∧ g.macOperands? lhs rhs = .ok (some ⟨a, b, c⟩) := by
  have hleft : g.operandAt mul 0 = .ok a := by rw [operandAt, hfactors]; rfl
  have hright : g.operandAt mul 1 = .ok b := by rw [operandAt, hfactors]; rfl
  rcases hops with hops | hops
  · refine ⟨product, c, hops, ?_⟩
    simp only [macOperands?, hmul, hsummand, hleft, hright, bind, Except.bind]
    rfl
  · refine ⟨c, product, hops, ?_⟩
    simp only [macOperands?, hmul, hsummand, hleft, hright, bind, Except.bind]
    rfl

/-- A product has a single reader if a sum reads it in one slot and nobody else does. -/
theorem Scene.hasSingleUseBy_of_onlyRead (hscene : Scene g gone func) (hin : g.Inside func add)
    (hkind : g.kind add = k) (hops : g.operands add = [product, c] ∨ g.operands add = [c, product])
    (hres : g.results mul = [product]) (hne : c ≠ product)
    (honly : ∀ u ∈ g.uses product, u.user = add) : g.hasSingleUseBy mul k = true := by
  have hmem : product ∈ g.operands add := by rcases hops with hops | hops <;> simp [hops]
  obtain ⟨u, hu, huser⟩ :=
    hscene.consistent.mem_uses_of_mem_operands (hscene.not_mem_gone hin hmem) hmem
  -- Any two uses are in the same slot.
  have hslot : ∀ w ∈ g.uses product, (g.operands add)[w.slot]? = some product := by
    intro w hw
    rw [← honly w hw]
    exact ((hscene.consistent.reads product w).mp hw).2
  have hsame : ∀ w ∈ g.uses product, w = u := by
    intro w hw
    have hslots : w.slot = u.slot := by
      have hw' := hslot w hw
      have hu' := hslot u hu
      rcases hops with hops | hops <;> rw [hops] at hw' hu' <;> grind
    obtain ⟨wuser, wslot⟩ := w
    obtain ⟨uuser, uslot⟩ := u
    rw [show wuser = add from honly _ hw, show uuser = add from huser,
      show wslot = uslot from hslots]
  refine hasSingleUseBy_iff.mpr ⟨product, u, by simp [hres], ?_, by rw [huser, hkind]⟩
  exact hscene.consistent.uses_eq_singleton.mpr fun w => ⟨hsame w, fun e => e ▸ hu⟩

namespace MultipliesAndAdds

variable (h : g.MultipliesAndAdds func entry mul add ret a b c product sum ty)
include h

theorem param_a : a ∈ g.argsOf entry ∧ (g.value a).ty = ty := h.params a (by simp)

theorem param_b : b ∈ g.argsOf entry ∧ (g.value b).ty = ty := h.params b (by simp)

theorem param_c : c ∈ g.argsOf entry ∧ (g.value c).ty = ty := h.params c (by simp)

/-- The product lies in the function. -/
theorem inside_mul : g.Inside func mul := h.isEntry.holdsBlock.inside (by simp [h.body])

/-- And so does the sum. -/
theorem inside_add : g.Inside func add := h.isEntry.holdsBlock.inside (by simp [h.body])

variable (hscene : Scene g gone func)
include hscene

/-- The product has the type of its factors. -/
theorem ty_product : (g.value product).ty = ty := by
  rw [← h.param_a.2]
  refine (hscene.ty_of_slot (i := 0) h.inside_mul h.mulResults (fun tys => ?_) ?_).symm
  · rw [h.mulKind]
    rfl
  · rw [h.mulOperands]
    rfl

/-- And the sum that of the product. -/
theorem ty_sum : (g.value sum).ty = ty := by
  have hslot : ∀ tys, (g.kind add).resultTyOf tys = tys[0]? := by
    intro tys
    rw [h.addKind]
    rfl
  rcases h.addOperands with hops | hops
  · rw [← h.ty_product hscene]
    exact (hscene.ty_of_slot h.inside_add h.addResults hslot (by rw [hops]; rfl)).symm
  · rw [← h.param_c.2]
    exact (hscene.ty_of_slot h.inside_add h.addResults hslot (by rw [hops]; rfl)).symm

/-- The factors and the summand are found, on whichever side the product stands. -/
theorem macOperands : ∃ lhs rhs, g.operands add = [lhs, rhs] ∧
    g.macOperands? lhs rhs = .ok (some ⟨a, b, c⟩) := by
  have hproduct : g.definedBy? product .muli = .ok (some mul) :=
    (definedBy?_eq_some hscene.consistent).mpr ⟨by simp [h.mulResults], h.mulKind⟩
  have hsummand : g.definedBy? c .muli = .ok none :=
    definedBy?_of_mem_argsOf hscene.consistent h.param_c.1
  exact macOperands?_of_product hproduct hsummand h.mulOperands h.addOperands

/-- The sum is all that reads the product. -/
theorem hasSingleUse : g.hasSingleUseBy mul .addi = true := by
  have hne : c ≠ product := by
    rintro rfl
    exact hscene.consistent.not_mem_results_of_mem_argsOf h.param_c.1
      (by simp [h.mulResults] : c ∈ g.results mul)
  exact hscene.hasSingleUseBy_of_onlyRead h.inside_add h.addKind h.addOperands h.mulResults hne
    h.onlyRead

end MultipliesAndAdds

/-! ## The decisions -/

/-- The shape of a result on lanes that are fused. -/
theorem resultShape?_fused (hold : g.results op = [v])
    (hty : (g.value v).ty = .vector n (.int width sign)) :
    g.resultShape? op = some ⟨n, .int width sign, width, false⟩ := by
  rw [resultShape?_eq hold, hty]
  rfl

/-- The recipe that fuses the sum. -/
def fusedSum (ty : Ty) (a b c : ValueId) (shift : Int) : Recipe :=
  (fmaElemPlan ty (.value a) (.value b) ⟨.value c, ty⟩ shift).toRecipe

/-- The recipe for a product that is left alone. -/
def loneProduct (ty : Ty) (a b : ValueId) (shift : Int) : Recipe :=
  (shiftedDown ty shift (plainProduct (.value a) (.value b) ty)).toRecipe

/-- The recipe that fuses a sum with a summand of another type than its own. -/
def mixedSum (ty summandTy : Ty) (a b c : ValueId) (shift : Int) : Recipe :=
  (fmaElemPlan ty (.value a) (.value b) ⟨.value c, summandTy⟩ shift).toRecipe

theorem all_mixedSum {summandTy : Ty} : (mixedSum ty summandTy a b c shift).all =
    [Instr.ups (accumulatorOf summandTy) (.value c) shift,
      Instr.fmaElem (.value a) (.value b) ⟨.step 0, accumulatorOf summandTy⟩ false,
      Instr.srs ty (.step 1) shift] := rfl

/-- The fused sum reads values that are there. -/
theorem fine_mixedSum {summandTy : Ty} (h : ∀ v ∈ [a, b, c], g.HasValue v) :
    (mixedSum ty summandTy a b c shift).Fine g.HasValue := by
  intro i d hd
  rw [all_mixedSum] at hd
  have ha : g.HasValue a := h a (by simp)
  have hb : g.HasValue b := h b (by simp)
  have hc : g.HasValue c := h c (by simp)
  match i, hd with
  | 0, hd =>
    obtain rfl := Option.some.inj hd
    exact ⟨⟨_, rfl⟩, rfl, List.forall_mem_singleton.mpr hc⟩
  | 1, hd =>
    obtain rfl := Option.some.inj hd
    refine ⟨⟨_, rfl⟩, rfl, List.forall_mem_cons.mpr ⟨ha, List.forall_mem_cons.mpr ⟨hb, ?_⟩⟩⟩
    exact List.forall_mem_singleton.mpr Nat.one_pos
  | 2, hd =>
    obtain rfl := Option.some.inj hd
    exact ⟨⟨_, rfl⟩, rfl, List.forall_mem_singleton.mpr Nat.one_lt_two⟩

section

variable (hold : g.results op = [v]) (hfuses : (g.value v).ty.Fuses)
include hold hfuses

/-- A sum with one product is fused. -/
theorem mulAddToFmaElem_takes (hops : g.operands op = [lhs, rhs])
    (hmac : g.macOperands? lhs rhs = .ok (some ⟨a, b, c⟩)) (hc : g.HasValue c) :
    (mulAddToFmaElem shift).run g op sizes =
      .ok (((Decision.rewrite (mixedSum (g.value v).ty (g.value c).ty a b c shift)).perform
        g).1, sizes, ((Decision.rewrite (mixedSum (g.value v).ty (g.value c).ty a b c
          shift)).perform g).2) := by
  obtain ⟨s, hs, hshape⟩ := hfuses
  have hpair : s.pair = (32, 16) ∨ s.pair = (16, 32) := by
    obtain ⟨lanes, elem, bits, isFloat⟩ := s
    cases hshape <;> simp [VectorShape.pair]
  have hsource : g.source c = .ok ⟨.value c, (g.value c).ty⟩ := by
    rw [source, valueTy_of_hasValue hc]
    rfl
  refine Rule.run_ofDecision ?_ sizes
  simp only [(resultShape?_eq hold).trans hs, binaryOperands_eq hops, hmac, bind, Except.bind,
    hpair, if_true, firstResultType_eq hold, hsource]
  rfl

/-- A product that is not left for a sum is lowered by itself. -/
theorem mulIToMulElem_takes (hops : g.binaryOperands op = .ok (a, b))
    (hread : g.hasSingleUseBy op .addi = false) : (mulIToMulElem shift).run g op sizes =
    .ok (((Decision.rewrite (loneProduct (g.value v).ty a b shift)).perform g).1,
      sizes, ((Decision.rewrite (loneProduct (g.value v).ty a b shift)).perform g).2) := by
  obtain ⟨s, hs, hshape⟩ := hfuses
  have hproduct : (isNarrowProduct s || isWideProduct s) = true := by
    obtain ⟨lanes, elem, bits, isFloat⟩ := s
    cases hshape <;> rfl
  have hpair : s.pair ≠ (32, 32) ∧ s.pair ≠ (32, 8) := by
    obtain ⟨lanes, elem, bits, isFloat⟩ := s
    cases hshape <;> simp [VectorShape.pair]
  refine Rule.run_ofDecision ?_ sizes
  simp only [(resultShape?_eq hold).trans hs, hread, hproduct, hops,
    firstResultType_eq hold, intProductPlan, hpair, bind, Except.bind,
    if_false, Bool.not_true, Bool.or_self, Bool.false_eq_true]
  rfl

/-- It may not stay. -/
theorem legality_of_shared (hk : g.kind op = .muli)
    (hread : g.hasSingleUseBy op .addi = false) :
    Generation.aieml.conversionTarget.legality g op sizes = .ok (.illegal, sizes) := by
  obtain ⟨s, hs, hshape⟩ := hfuses
  have hproduct : isIntProductShape s = true := by
    obtain ⟨lanes, elem, bits, isFloat⟩ := s
    cases hshape <;> rfl
  rw [Generation.legality_muli hk]
  simp [productStays, hread, resultAvoids, (resultShape?_eq hold).trans hs, hproduct]

/-- A sum of lanes may not stay. -/
theorem legality_of_sum (hk : g.kind op = .addi) :
    Generation.aieml.conversionTarget.legality g op sizes = .ok (.illegal, sizes) := by
  obtain ⟨s, hs, hshape⟩ := hfuses
  have helem : s.isElementwise = true := by
    obtain ⟨lanes, elem, bits, isFloat⟩ := s
    cases hshape <;> rfl
  rw [Generation.legality_intSum (Or.inl hk)]
  simp [resultAvoids, (resultShape?_eq hold).trans hs, helem]

end

/-- The other rule for sums leaves a sum with one product alone. -/
theorem addSubToElem_leaves (hscene : Scene g gone func) (hin : g.Inside func op)
    (hops : g.operands op = [lhs, rhs])
    (hmac : g.macOperands? lhs rhs = .ok (some ⟨a, b, c⟩)) :
    (addSubToElem .addi).run g op sizes = .ok (g, sizes, .declined) := by
  have hatHand := fun v (hv : v ∈ [lhs, rhs]) => hscene.atHand_of_mem_operands hin (hops ▸ hv)
  obtain ⟨l, hl, -⟩ := hscene.definedBy? hin (hatHand lhs (by simp)) .mulf rfl
  obtain ⟨r, hr, -⟩ := hscene.definedBy? hin (hatHand rhs (by simp)) .mulf rfl
  refine Rule.run_of_decline ?_ sizes
  cases g.resultShape? op with
  | none => rfl
  | some shape =>
    simp only [binaryOperands_eq hops, leftForFusion, hmac, hl, hr, bind, Except.bind,
      pure, Except.pure, Option.isSome_some, Bool.true_or, if_true]

section

variable (h : g.MultipliesAndAdds func entry mul add ret a b c product sum
  (.vector n (.int width sign))) (hscene : Scene g gone func) (hshape : FusedShape n width)
include h hscene hshape

/-- The sum is fused. -/
theorem mulAddToFmaElem_fuses : (mulAddToFmaElem shift).run g add sizes =
    .ok (((Decision.rewrite (fusedSum (.vector n (.int width sign)) a b c shift)).perform g).1,
      sizes, ((Decision.rewrite (fusedSum (.vector n (.int width sign)) a b c shift)).perform
        g).2) := by
  obtain ⟨lhs, rhs, hops, hmac⟩ := h.macOperands hscene
  have hty := h.ty_sum hscene
  have hc : g.HasValue c := by
    obtain ⟨i, hi⟩ := List.mem_iff_getElem?.mp h.param_c.1
    exact hasValue_of_originOf? ((hscene.consistent.takes entry i c).mp hi)
  have htakes : (mulAddToFmaElem shift).run g add sizes = _ :=
    mulAddToFmaElem_takes h.addResults (hty ▸ hshape.fuses) hops hmac hc
  rwa [hty, h.param_c.2] at htakes

omit hshape in
/-- The other rule for sums leaves it alone. -/
theorem addSubToElem_declines :
    (addSubToElem .addi).run g add sizes = .ok (g, sizes, .declined) := by
  obtain ⟨lhs, rhs, hops, hmac⟩ := h.macOperands hscene
  exact addSubToElem_leaves hscene h.inside_add hops hmac

end

/-- What nobody reads has no only reader. -/
theorem hasSingleUseBy_of_unread (hold : g.results op = [v]) (hunread : g.uses v = []) :
    g.hasSingleUseBy op k = false := by
  simp only [hasSingleUseBy, hold, List.head?_cons, hunread]

/-- A product that nobody reads is lowered by itself. -/
theorem mulIToMulElem_lowers (hops : g.operands op = [a, b]) (hold : g.results op = [v])
    (hty : (g.value v).ty = .vector n (.int width sign)) (hunread : g.uses v = [])
    (hshape : FusedShape n width) : (mulIToMulElem shift).run g op sizes =
    .ok (((Decision.rewrite (loneProduct (.vector n (.int width sign)) a b shift)).perform g).1,
      sizes, ((Decision.rewrite (loneProduct (.vector n (.int width sign)) a b shift)).perform
        g).2) := by
  have htakes : (mulIToMulElem shift).run g op sizes = _ :=
    mulIToMulElem_takes hold (hty ▸ hshape.fuses) (binaryOperands_eq hops)
      (hasSingleUseBy_of_unread hold hunread)
  rwa [hty] at htakes

/-- It may not stay. -/
theorem legality_lone (hk : g.kind op = .muli) (hold : g.results op = [v])
    (hty : (g.value v).ty = .vector n (.int width sign)) (hunread : g.uses v = [])
    (hshape : FusedShape n width) :
    Generation.aieml.conversionTarget.legality g op sizes = .ok (.illegal, sizes) :=
  legality_of_shared hold (hty ▸ hshape.fuses) hk (hasSingleUseBy_of_unread hold hunread)

section

variable (h : g.MultipliesAndAdds func entry mul add ret a b c product sum
  (.vector n (.int width sign))) (hscene : Scene g gone func) (hshape : FusedShape n width)
include h hscene

/-- At first the product may stay. -/
theorem legality_product :
    Generation.aieml.conversionTarget.legality g mul sizes = .ok (.legal, sizes) := by
  rw [Generation.legality_muli h.mulKind, productStays, h.hasSingleUse hscene, Bool.true_or,
    if_pos rfl]

include hshape

/-- The sum may not. -/
theorem legality_sum :
    Generation.aieml.conversionTarget.legality g add sizes = .ok (.illegal, sizes) :=
  legality_of_sum h.addResults (h.ty_sum hscene ▸ hshape.fuses) h.addKind

end

end Graph

end SimdLowering
