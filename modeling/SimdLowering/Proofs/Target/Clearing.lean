/-
Verdicts that outlast a clean-up.

What a target says of an operation depends on the operation and on what defines its operands, and
when dead operations go all of that stays. Two kinds of verdict look at readers as well. A
product may stay for the sum that alone reads it; if that sum goes the product is dead, and goes
too. A load is measured by the loads that carry it, and that is not settled here.

Of anything but a load the verdict does not depend on the sizes that are remembered, and of a
load it does not if what is remembered is what the load contributes.
-/
import SimdLowering.Proofs.Graph.DeadCode
import SimdLowering.Proofs.Rewrite.Uses
import SimdLowering.Proofs.Target.Queries
import SimdLowering.Proofs.Target.Verdicts

set_option autoImplicit false

namespace SimdLowering

open SimdLowering.Graph SimdLowering.FinalForm

variable {gen : Generation} {g g' : Graph} {gone : List OpId} {root x : OpId} {v : ValueId}
  {k : OpKind} {c c' : AccessSizes}

/-! ## What is looked at -/

namespace Graph.Cleared

variable (h : Cleared g g')
include h

/-- Shapes are what they were. -/
theorem resultShape? (o : OpId) : g'.resultShape? o = g.resultShape? o := by
  simp only [Graph.resultShape?, resultTypes, typesOf, value, h.results, h.value?]

/-- Those of values, too. -/
theorem valueShape? (v : ValueId) : g'.valueShape? v = g.valueShape? v := by
  simp only [Graph.valueShape?, valueTy, lookup, h.value?]

/-- Operands stand where they stood. -/
theorem operandAt (o : OpId) (i : Nat) : g'.operandAt o i = g.operandAt o i := by
  simp only [Graph.operandAt, h.operands]

/-- And have their shapes. -/
theorem operandShape? (o : OpId) (i : Nat) : g'.operandShape? o i = g.operandShape? o i := by
  simp only [Graph.operandShape?, h.operands, h.valueShape?]

/-- What defines a value still does. -/
theorem definedBy? (v : ValueId) (k : OpKind) : g'.definedBy? v k = g.definedBy? v k := by
  simp only [Graph.definedBy?, definingOp?, lookup, h.value?, h.kind]

/-- A product that is not dead has kept the single reader it had. -/
theorem hasSingleUseBy (hc : Consistent g' gone) (hres : g.results x = [v])
    (hbare : g.regionsOf x = []) (hpure : (g.kind x).isPure = true) (halive : g'.isDead x = false)
    (hsingle : g.hasSingleUseBy x k = true) : g'.hasSingleUseBy x k = true := by
  obtain ⟨w, u, hw, huses, huser⟩ := hasSingleUseBy_iff.mp hsingle
  rw [hres] at hw
  obtain rfl : v = w := Option.some.inj hw
  have hsub : ∀ t ∈ g'.uses v, t = u := fun t ht => by simpa [huses] using h.uses v ht
  have hread : g'.uses v ≠ [] := by
    intro hnone
    refine Bool.noConfusion (halive.symm.trans (isDead_eq_true.mpr ⟨?_, ?_, ?_⟩))
    · rw [h.kind, hpure]
    · rw [h.regionsOf, hbare]
    · simpa [h.results, hres] using hnone
  refine hasSingleUseBy_iff.mpr ⟨v, u, by rw [h.results, hres]; rfl, ?_, by rw [h.kind, huser]⟩
  refine hc.uses_eq_singleton.mpr fun t => ⟨hsub t, ?_⟩
  rintro rfl
  obtain ⟨t', ht'⟩ := List.exists_mem_of_ne_nil _ hread
  exact hsub t' ht' ▸ ht'

end Graph.Cleared

/-! ## Checks -/

/-- The kinds that may stay for their readers. -/
def productKinds : List OpKind := [.muli, .mulf]

/-- The check that is said to a target, if one is and it is not one for loads, asks for no sizes,
and if it is not one for products either, it does not look at readers. -/
def TargetSetting.Clears : TargetSetting → Prop
  | check k c => k ≠ .upd → ∃ test : Graph → OpId → Except Fault Bool, c = .ofTest test ∧
      (k ∉ productKinds → ∀ g g' x, Cleared g g' → test g' x = test g x)
  | _ => True

namespace FinalForm

/-- A test that comes out the same after clearing clears, and so does any on products. -/
theorem clears_ofTest {test : Graph → OpId → Except Fault Bool}
    (h : k ∉ productKinds → ∀ g g' x, Cleared g g' → test g' x = test g x) :
    TargetSetting.Clears (.check k (.ofTest test)) := fun _ => ⟨test, rfl, h⟩

/-- The same for a predicate. -/
theorem clears_ofPredicate {p : Graph → OpId → Bool}
    (h : k ∉ productKinds → ∀ g g' x, Cleared g g' → p g' x = p g x) :
    TargetSetting.Clears (.check k (.ofPredicate p)) :=
  fun _ => ⟨fun g x => .ok (p g x), rfl, fun hk g g' x hg => congrArg _ (h hk g g' x hg)⟩

theorem scalarResult_clears : TargetSetting.Clears (.check k (.ofPredicate scalarResult)) :=
  clears_ofPredicate fun _ g g' x h => by rw [scalarResult, scalarResult, h.resultShape?]

theorem noPendingSplat_clears : TargetSetting.Clears (.check k (.ofTest noPendingSplat)) := by
  refine clears_ofTest fun _ g g' x h => ?_
  simp only [noPendingSplat, pendingSplat?, h.operandAt, h.definedBy?]

theorem resultAvoids_clears (p : VectorShape → Bool) :
    TargetSetting.Clears (.check k (.ofPredicate (resultAvoids p))) :=
  clears_ofPredicate fun _ g g' x h => by rw [resultAvoids, resultAvoids, h.resultShape?]

theorem resultNoRegister_clears : TargetSetting.Clears (.check k (.ofTest resultNoRegister)) :=
  clears_ofTest fun _ g g' x h => by rw [resultNoRegister, resultNoRegister, h.resultShape?]

theorem operandNoRegister_clears : TargetSetting.Clears (.check k (.ofTest operandNoRegister)) :=
  clears_ofTest fun _ g g' x h => by rw [operandNoRegister, operandNoRegister, h.operandShape?]

theorem reductionStays_clears : TargetSetting.Clears (.check k (.ofTest reductionStays)) := by
  refine clears_ofTest fun _ g g' x h => ?_
  simp only [reductionStays, operandAvoids, h.attrs, h.operandShape?]

theorem splatStays_clears : TargetSetting.Clears (.check k (.ofTest splatStays)) := by
  refine clears_ofTest fun _ g g' x h => ?_
  simp only [splatStays, h.operandAt, h.definedBy?]

/-- All that is set for either generation clears. -/
theorem settings_clears (gen : Generation) : ∀ s ∈ gen.settings, s.Clears :=
  forall_mem_settings_of_checks (fun _ => trivial) (fun _ => trivial) (fun _ => trivial)
    (fun h => absurd rfl h) (fun _ => scalarResult_clears) (fun _ => noPendingSplat_clears)
    (fun _ => resultAvoids_clears) (clears_ofPredicate fun hk => absurd (by decide) hk)
    (clears_ofPredicate fun hk => absurd (by decide) hk) (fun _ _ => resultNoRegister_clears)
    (fun _ _ => operandNoRegister_clears) reductionStays_clears splatStays_clears

end FinalForm

/-! ## Verdicts -/

namespace Generation

/-- The verdict on anything but a load is the same whatever sizes are remembered. -/
theorem legality_of_not_load (hk : g.kind x ≠ .upd) {verdict : Legality}
    (h : gen.conversionTarget.legality g x c = .ok (verdict, c')) (c₁ : AccessSizes) :
    gen.conversionTarget.legality g x c₁ = .ok (verdict, c₁) := by
  cases hcheck : gen.conversionTarget.checks (g.kind x) with
  | none =>
    rw [ConversionTarget.legality_of_kind hcheck] at h ⊢
    cases h
    rfl
  | some check =>
    obtain ⟨test, rfl, -⟩ := settings_clears gen _ (ConversionTarget.mem_of_checks hcheck) hk
    rw [ConversionTarget.legality_eq_ok_of_check hcheck] at h ⊢
    obtain ⟨ok, hanswer, hverdict⟩ := h
    obtain ⟨ok', htest, hok⟩ := bind_eq_ok.mp hanswer
    cases hok
    exact ⟨ok, bind_eq_ok.mpr ⟨ok, htest, rfl⟩, hverdict⟩

/-- Where readers do not count, dead operations go without a change of the verdict. -/
theorem legality_cleared_eq (h : Cleared g g') (hk : g.kind x ≠ .upd)
    (hp : gen.conversionTarget.checks (g.kind x) = none ∨ g.kind x ∉ productKinds) :
    gen.conversionTarget.legality g' x c = gen.conversionTarget.legality g x c := by
  cases hcheck : gen.conversionTarget.checks (g.kind x) with
  | none =>
    have hcheck' : gen.conversionTarget.checks (g'.kind x) = none := by rw [h.kind, hcheck]
    rw [ConversionTarget.legality_of_kind hcheck', ConversionTarget.legality_of_kind hcheck, h.kind]
  | some check =>
    obtain ⟨test, rfl, hclears⟩ := settings_clears gen _ (ConversionTarget.mem_of_checks hcheck) hk
    have hp : g.kind x ∉ productKinds := hp.resolve_left (by simp [hcheck])
    have hcheck' : gen.conversionTarget.checks (g'.kind x) = some (.ofTest test) := by
      rw [h.kind, hcheck]
    rw [ConversionTarget.legality_of_check hcheck', ConversionTarget.legality_of_check hcheck]
    simp only [LegalityCheck.ofTest, hclears hp g g' x h]

/-- What is no load and may stay may stay when dead operations have gone, unless it is dead
itself. -/
theorem legality_cleared (h : Cleared g g') (hc : Consistent g' gone) (hshaped : g.WellShaped x)
    (hk : g.kind x ≠ .upd) (halive : g'.isDead x = false) {verdict : Legality}
    (hv : gen.conversionTarget.legality g x c = .ok (verdict, c')) (hstays : verdict ≠ .illegal) :
    ∃ verdict', gen.conversionTarget.legality g' x c = .ok (verdict', c') ∧
      verdict' ≠ .illegal := by
  by_cases hp : gen.conversionTarget.checks (g.kind x) = none ∨ g.kind x ∉ productKinds
  · exact ⟨verdict, (legality_cleared_eq h hk hp).trans hv, hstays⟩
  -- What is left is a product of the second generation.
  obtain ⟨hcheck, hproduct⟩ : gen.conversionTarget.checks (g.kind x) ≠ none ∧
      g.kind x ∈ productKinds := by simpa only [not_or, not_not] using hp
  have product : ∀ reader p, gen.conversionTarget.checks (g.kind x) =
      some (.ofPredicate (productStays reader p)) → ∃ verdict',
        gen.conversionTarget.legality g' x c = .ok (verdict', c') ∧ verdict' ≠ .illegal := by
    intro reader p hcheck
    rw [ConversionTarget.legality_of_predicate hcheck] at hv
    cases hv
    have hmay : productStays reader p g x = true := by
      by_contra hnot
      exact hstays (if_neg hnot)
    refine ⟨.legal, ?_, by decide⟩
    rw [ConversionTarget.legality_of_predicate (by rw [h.kind, hcheck]), if_pos]
    rw [productStays, Bool.or_eq_true] at hmay ⊢
    rw [resultAvoids, h.resultShape?]
    refine hmay.imp_left fun hsingle => ?_
    have hkind : g.kind x ≠ .func ∧ g.kind x ≠ .ret ∧ (g.kind x).isPure = true := by
      rcases List.mem_cons.mp hproduct with e | e
      · rw [e]
        decide
      · rw [List.mem_singleton.mp e]
        decide
    obtain ⟨v, hres⟩ := hshaped.single hkind.1 hkind.2.1
    exact h.hasSingleUseBy hc hres (hshaped.bare hkind.1) hkind.2.2 halive hsingle
  cases gen with
  | aie =>
    refine absurd ?_ hcheck
    rcases List.mem_cons.mp hproduct with e | e
    · rw [e]
      rfl
    · rw [List.mem_singleton.mp e]
      rfl
  | aieml =>
    rcases List.mem_cons.mp hproduct with e | e
    · exact product .addi isIntProductShape (by rw [e]; rfl)
    · exact product .addf isFloatProductShape (by rw [List.mem_singleton.mp e]; rfl)

end Generation

end SimdLowering
