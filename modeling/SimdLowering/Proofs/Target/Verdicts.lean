/-
What the second generation says of each kind of operation.

The settings of a target are said one after the other, and the last word on a kind counts.
Here that last word is looked up once for every kind the proofs ask about. Most of what rules
create may stay, and so may returns. What else may stay is decided by a check, and most checks
look at nothing but the operation itself.
-/
import SimdLowering.Proofs.Rewrite.Verification
import SimdLowering.Proofs.Target.Lawful

set_option autoImplicit false

namespace SimdLowering

open SimdLowering.Graph SimdLowering.Rules SimdLowering.FinalForm

variable {t : ConversionTarget} {g : Graph} {op : OpId} {c c' : AccessSizes} {k : OpKind}
  {verdict : Legality} {gen : Generation}

namespace ConversionTarget

/-- Where a test decides, its answer is the verdict. -/
theorem legality_of_predicate {p : Graph → OpId → Bool}
    (h : t.checks (g.kind op) = some (.ofPredicate p)) :
    t.legality g op c = .ok (if p g op then .legal else .illegal, c) := by
  rw [legality_of_check h]
  rfl

end ConversionTarget

namespace Generation

/-- What rules create may stay, loads and multiply-adds apart, and returns may. -/
theorem legality_of_made (hk : (g.kind op).isLowered = true ∨ g.kind op = .ret)
    (hload : g.kind op ≠ .upd) (hfma : g.kind op ≠ .fma) (hcast : g.kind op ≠ .unrealizedCast) :
    gen.conversionTarget.legality g op c = .ok (.legal, c) := by
  have hlast : ∀ k : OpKind, k.isLowered = true ∨ k = .ret → k ≠ .upd → k ≠ .fma →
      k ≠ .unrealizedCast → gen.conversionTarget.checks k = none ∧
        gen.conversionTarget.kindLegality k = .legal := by
    intro k hk hload hfma hcast
    cases gen <;> cases k <;> first
      | exact ⟨rfl, rfl⟩
      | exact absurd rfl hload
      | exact absurd rfl hfma
      | exact absurd rfl hcast
      | exact absurd hk (by decide)
  obtain ⟨hcheck, hlegal⟩ := hlast _ hk hload hfma hcast
  rw [ConversionTarget.legality_of_kind hcheck, hlegal]

/-- An integer product may stay if it feeds a single add or is of no lowered shape. -/
theorem legality_muli (hk : g.kind op = .muli) :
    aieml.conversionTarget.legality g op c =
      .ok (if productStays .addi isIntProductShape g op then .legal else .illegal, c) :=
  ConversionTarget.legality_of_predicate (by rw [hk]; rfl)

/-- An integer sum or difference may stay if there is no lanewise add for its shape. -/
theorem legality_intSum (hk : g.kind op = .addi ∨ g.kind op = .subi) :
    aieml.conversionTarget.legality g op c =
      .ok (if resultAvoids VectorShape.isElementwise g op then .legal else .illegal, c) := by
  refine ConversionTarget.legality_of_predicate ?_
  rcases hk with hk | hk <;> rw [hk] <;> rfl

/-- On the first generation every integer product may stay. -/
theorem aie_legality_muli (hk : g.kind op = .muli) :
    aie.conversionTarget.legality g op c = .ok (.legal, c) := by
  rw [ConversionTarget.legality_of_kind (by rw [hk]; rfl), hk]
  rfl

/-- An integer sum may stay there if it has no lanes. -/
theorem aie_legality_addi (hk : g.kind op = .addi) :
    aie.conversionTarget.legality g op c =
      .ok (if scalarResult g op then .legal else .illegal, c) :=
  ConversionTarget.legality_of_predicate (by rw [hk]; rfl)

/-- A shuffled multiply-add may stay there if no splat can be folded into it. -/
theorem aie_legality_fma (hk : g.kind op = .fma) (htest : noPendingSplat g op = .ok true) :
    aie.conversionTarget.legality g op c = .ok (.legal, c) := by
  have hcheck : aie.conversionTarget.checks (g.kind op) = some (.ofTest noPendingSplat) := by
    rw [hk]
    rfl
  rw [ConversionTarget.legality_of_check hcheck, LegalityCheck.ofTest, htest]
  rfl

end Generation

/-! ## Rules by kind -/

/-- On the second generation the rules tried on a kind are those of the table that name it. -/
theorem mem_rules_of_kind {o : LowerOptions} {e : RuleEntry} (ht : o.target = .aieml)
    (he : e ∈ o.ruleSet.entries) (hk : k ∈ e.rule.roots) :
    e.rule ∈ (aiemlRules o.shift).filter fun r => r.roots.contains k := by
  unfold LowerOptions.ruleSet at he
  rw [ht] at he
  exact List.mem_filter.mpr ⟨RuleSet.mem_entries_ofList he, List.contains_iff_mem.mpr hk⟩

theorem rule_of_muli {o : LowerOptions} {e : RuleEntry} (ht : o.target = .aieml)
    (he : e ∈ o.ruleSet.entries) (hk : .muli ∈ e.rule.roots) :
    e.rule = mulIToMulElem o.shift :=
  List.mem_singleton.mp (mem_rules_of_kind ht he hk)

theorem rule_of_addi {o : LowerOptions} {e : RuleEntry} (ht : o.target = .aieml)
    (he : e ∈ o.ruleSet.entries) (hk : .addi ∈ e.rule.roots) :
    e.rule = mulAddToFmaElem o.shift ∨ e.rule = addSubToElem .addi :=
  List.mem_pair.mp (mem_rules_of_kind ht he hk)

/-- The second generation has every rule of its table. -/
theorem exists_entry_of_mem {o : LowerOptions} {r : Rule} (ht : o.target = .aieml)
    (hr : r ∈ aiemlRules o.shift) : ∃ e ∈ o.ruleSet.entries, e.rule = r := by
  unfold LowerOptions.ruleSet
  rw [ht]
  exact RuleSet.exists_entry_ofList hr

/-- On the first generation two rules are tried on integer sums. -/
theorem aie_rule_of_addi {o : LowerOptions} {e : RuleEntry} (ht : o.target = .aie)
    (he : e ∈ o.ruleSet.entries) (hk : .addi ∈ e.rule.roots) :
    e.rule = mulAddToFma ∨ e.rule = shuffledAddSub .addi := by
  unfold LowerOptions.ruleSet at he
  rw [ht] at he
  have hmem : e.rule ∈ aieRules.filter fun r => r.roots.contains .addi :=
    List.mem_filter.mpr ⟨RuleSet.mem_entries_ofList he, List.contains_iff_mem.mpr hk⟩
  exact List.mem_pair.mp hmem

/-- The first generation has every rule of its table. -/
theorem aie_exists_entry_of_mem {o : LowerOptions} {r : Rule} (ht : o.target = .aie)
    (hr : r ∈ aieRules) : ∃ e ∈ o.ruleSet.entries, e.rule = r := by
  unfold LowerOptions.ruleSet
  rw [ht]
  exact RuleSet.exists_entry_ofList hr

/-! ## Verification -/

/-- Where all that is nested may stay, verification finds nothing. -/
theorem ConversionTarget.verify_of_legal {root : OpId}
    (h : ∀ op ∈ g.nested root, ∀ c, t.legality g op c = .ok (.legal, c)) :
    t.verify g root c = .ok ([], c) := by
  -- The sizes stay what they are, as nobody asks for one.
  obtain ⟨c', rfl, hverify⟩ := verify_of_verdict (c = ·) (fun o ho d hd => ⟨d, h o ho d, hd⟩) rfl
  simpa using hverify

end SimdLowering
