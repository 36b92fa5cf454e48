/-
The tables of both generations are lawful.

Every rule of a table is, for the target it comes with, and the target has a verdict on every
operation of a scene. Among the kinds that rules create only two are looked at by any rule.
-/
import SimdLowering.Proofs.Rewrite.LastWord
import SimdLowering.Proofs.Rules.Extremum
import SimdLowering.Proofs.Rules.Load
import SimdLowering.Proofs.Rules.Multiply
import SimdLowering.Proofs.Rules.MultiplyAdd
import SimdLowering.Proofs.Rules.Reduction
import SimdLowering.Target.RuleTable

set_option autoImplicit false

namespace SimdLowering

open SimdLowering.Graph SimdLowering.Rules

/-! ## The rule sets -/

/-- What is in a set made of a list comes from the list. -/
theorem RuleSet.mem_entries_ofList {rules : List Rule} {e : RuleEntry}
    (h : e ∈ (RuleSet.ofList rules).entries) : e.rule ∈ rules := by
  suffices hfold : ∀ (l : List Rule) (s : RuleSet), e ∈ (l.foldl RuleSet.add s).entries →
      e ∈ s.entries ∨ e.rule ∈ l by
    rcases hfold rules .empty h with h | h
    · cases h
    · exact h
  intro l
  induction l with
  | nil => exact fun s h => Or.inl h
  | cons r l ih =>
    intro s h
    rcases ih _ h with h | h
    · rcases List.mem_append.mp h with h | h
      · exact Or.inl h
      · rw [List.mem_singleton.mp h]
        exact Or.inr (List.mem_cons_self ..)
    · exact Or.inr (List.mem_cons_of_mem _ h)

/-- And all of the list is in it. -/
theorem RuleSet.exists_entry_ofList {rules : List Rule} {r : Rule} (h : r ∈ rules) :
    ∃ e ∈ (RuleSet.ofList rules).entries, e.rule = r := by
  suffices hfold : ∀ (l : List Rule) (s : RuleSet), ((∃ e ∈ s.entries, e.rule = r) ∨ r ∈ l) →
      ∃ e ∈ (l.foldl RuleSet.add s).entries, e.rule = r from hfold rules .empty (Or.inr h)
  intro l
  induction l with
  | nil => exact fun s h => h.resolve_right List.not_mem_nil
  | cons x l ih =>
    intro s h
    refine ih _ ?_
    rcases h with ⟨e, he, rfl⟩ | h
    · exact Or.inl ⟨e, List.mem_append_left _ he, rfl⟩
    rcases List.mem_cons.mp h with rfl | h
    · refine Or.inl ⟨⟨r, s.entries.length⟩, ?_, rfl⟩
      exact List.mem_append_right _ (List.mem_singleton_self _)
    · exact Or.inr h

/-- Every rule of the first generation keeps to what a rule may do. -/
theorem aieRules_lawful : ∀ r ∈ aieRules, r.Lawful Generation.aie.conversionTarget := by
  simp only [aieRules, List.forall_mem_cons]
  exact ⟨transferReadToUpd_lawful _, splitUpd_lawful _ _, mulAddToFma_lawful _,
    foldBroadcastToFma_lawful _, shuffledAddSub_lawful _ _, shuffledAddSub_lawful _ _,
    shuffledAddSub_lawful _ _, shuffledAddSub_lawful _ _, List.forall_mem_nil _⟩

/-- And every rule of the second, whatever the shift. -/
theorem aiemlRules_lawful (shift : Int) :
    ∀ r ∈ aiemlRules shift, r.Lawful Generation.aieml.conversionTarget := by
  simp only [aiemlRules, List.forall_mem_cons]
  exact ⟨transferReadToUpd_lawful _, splitUpd_lawful _ _, mulAddToFmaElem_lawful _ _,
    addSubToElem_lawful _ _, addSubToElem_lawful _ _, addSubToElem_lawful _ _,
    addSubToElem_lawful _ _, minMaxToElem_lawful _ (by decide), minMaxToElem_lawful _ (by decide),
    minMaxToElem_lawful _ (by decide), minMaxToElem_lawful _ (by decide), cmpToMask_lawful _ _,
      cmpToMask_lawful _ _,
    selectToSel_lawful _, minReduction_lawful, maxReduction_lawful, intAddReduction_lawful _,
    f32AddReduction_lawful _, bf16AddReduction_lawful _, extractBroadcastToLane_lawful _,
    mulIToMulElem_lawful _ _, mulFToMulElem_lawful _ _, List.forall_mem_nil _⟩

/-- So whichever rules are applied, they do. -/
theorem LowerOptions.ruleSet_lawful (o : LowerOptions) :
    o.ruleSet.Lawful o.target.conversionTarget := by
  intro e he
  unfold ruleSet at he
  cases ht : o.target with
  | aie =>
    rw [ht] at he
    exact aieRules_lawful _ (RuleSet.mem_entries_ofList he)
  | aieml =>
    rw [ht] at he
    exact aiemlRules_lawful o.shift _ (RuleSet.mem_entries_ofList he)

/-- Every rule that options ask for is in one of the tables. -/
theorem LowerOptions.mem_tables {o : LowerOptions} {e : RuleEntry}
    (he : e ∈ o.ruleSet.entries) : e.rule ∈ aieRules ++ aiemlRules o.shift := by
  unfold ruleSet at he
  cases ht : o.target with
  | aie =>
    rw [ht] at he
    exact List.mem_append_left _ (RuleSet.mem_entries_ofList he)
  | aieml =>
    rw [ht] at he
    exact List.mem_append_right _ (RuleSet.mem_entries_ofList he)

/-- A rule that is alone in its table with some kind. -/
theorem eq_of_mem_roots {rules : List Rule} {rule r : Rule} {k : OpKind} (before after : List Rule)
    (hsplit : rules = before ++ rule :: after)
    (hothers : ((before ++ after).all fun r => !r.roots.contains k) = true)
    (hr : r ∈ rules) (hk : k ∈ r.roots) : r = rule := by
  by_contra hne
  have hr : r ∈ before ++ after := by
    rw [hsplit, List.mem_append, List.mem_cons] at hr
    rcases hr with hr | hr | hr
    · exact List.mem_append_left _ hr
    · exact absurd hr hne
    · exact List.mem_append_right _ hr
  have := List.all_eq_true.mp hothers r hr
  simp [hk] at this

/-- On either generation one rule looks at reads. -/
theorem rule_of_transferRead {o : LowerOptions} {e : RuleEntry} (he : e ∈ o.ruleSet.entries)
    (hk : .transferRead ∈ e.rule.roots) : e.rule = transferReadToUpd := by
  unfold LowerOptions.ruleSet at he
  cases ht : o.target with
  | aie =>
    rw [ht] at he
    exact eq_of_mem_roots [] _ rfl rfl (RuleSet.mem_entries_ofList he) hk
  | aieml =>
    rw [ht] at he
    exact eq_of_mem_roots [] _ rfl rfl (RuleSet.mem_entries_ofList he) hk

/-- On either generation one rule looks at loads. -/
theorem rule_of_upd {o : LowerOptions} {e : RuleEntry} (he : e ∈ o.ruleSet.entries)
    (hk : .upd ∈ e.rule.roots) : e.rule = splitUpd o.target.nativeBits := by
  unfold LowerOptions.ruleSet at he
  cases ht : o.target with
  | aie =>
    rw [ht] at he
    exact eq_of_mem_roots [_] _ rfl rfl (RuleSet.mem_entries_ofList he) hk
  | aieml =>
    rw [ht] at he
    exact eq_of_mem_roots [_] _ rfl rfl (RuleSet.mem_entries_ofList he) hk

/-- Both generations have the rule for reads. -/
theorem LowerOptions.exists_transferReadToUpd (o : LowerOptions) :
    ∃ e ∈ o.ruleSet.entries, e.rule = transferReadToUpd := by
  unfold ruleSet
  cases o.target with
  | aie => exact RuleSet.exists_entry_ofList (List.mem_cons_self ..)
  | aieml => exact RuleSet.exists_entry_ofList (List.mem_cons_self ..)

/-- Of what rules create, only loads and multiply-adds are looked at again. -/
theorem root_of_isLowered {o : LowerOptions} {e : RuleEntry} {k : OpKind}
    (he : e ∈ o.ruleSet.entries) (hk : k ∈ e.rule.roots) (hl : k.isLowered = true) :
    k = .upd ∨ k = .fma := by
  have tables : (aieRules ++ aiemlRules o.shift).all fun r =>
      r.roots.all fun k => !k.isLowered || k == .upd || k == .fma := rfl
  have := List.all_eq_true.mp (List.all_eq_true.mp tables e.rule (LowerOptions.mem_tables he)) k hk
  simpa [hl] using this

/-! ## The targets -/

/-- A read may not stay, whatever it reads. -/
theorem Generation.legality_transferRead {gen : Generation} {g : Graph} {op : OpId}
    (hk : g.kind op = .transferRead) (sizes : AccessSizes) :
    gen.conversionTarget.legality g op sizes = .ok (.illegal, sizes) := by
  have hcheck : gen.conversionTarget.checks (g.kind op) = none := by
    rw [hk]
    cases gen <;> rfl
  rw [ConversionTarget.legality_of_kind hcheck, hk]
  cases gen <;> rfl

/-- The verdict on a load is the size it has. -/
theorem Generation.legality_upd {gen : Generation} {g : Graph} {op : OpId}
    {sizes sizes' : AccessSizes} (hk : g.kind op = .upd) {verdict : Legality}
    (h : gen.conversionTarget.legality g op sizes = .ok (verdict, sizes')) :
    ∃ n, sizes.query g op = .ok (n, sizes') ∧
      verdict = if n ≤ gen.maxLoadBits then .legal else .illegal := by
  have hcheck : gen.conversionTarget.checks (g.kind op) = some (FinalForm.loadFits gen) := by
    rw [hk]
    cases gen <;> rfl
  obtain ⟨ok, hload, rfl⟩ := (ConversionTarget.legality_eq_ok_of_check hcheck).mp h
  obtain ⟨⟨n, sizes₁⟩, hquery, hload⟩ := bind_eq_ok.mp hload
  cases hload
  exact ⟨n, hquery, by simp only [decide_eq_true_eq]⟩

/-- A load whose size is answered gets a verdict. -/
theorem Generation.legality_of_query {gen : Generation} {g : Graph} {op : OpId} {n : Nat}
    {sizes sizes' : AccessSizes} (hk : g.kind op = .upd)
    (h : sizes.query g op = .ok (n, sizes')) : gen.conversionTarget.legality g op sizes =
      .ok (if n ≤ gen.maxLoadBits then .legal else .illegal, sizes') := by
  have hcheck : gen.conversionTarget.checks (g.kind op) = some (FinalForm.loadFits gen) := by
    rw [hk]
    cases gen <;> rfl
  exact (ConversionTarget.legality_eq_ok_of_check hcheck).mpr
    ⟨decide (n ≤ gen.maxLoadBits), bind_eq_ok.mpr ⟨_, h, rfl⟩, by simp only [decide_eq_true_eq]⟩

/-- The check has a verdict on every operation of the kind in a scene, unless a number is too
large. -/
def LegalityCheck.Total (k : OpKind) (c : LegalityCheck) : Prop :=
  ∀ g gone root op sizes, Scene g gone root → g.Inside root op → g.kind op = k →
    YieldsUnless (g.Overflows op) (c g op sizes) fun _ => True

/-- A target answers always if its checks do. -/
theorem ConversionTarget.total_of_checks {t : ConversionTarget}
    (h : ∀ k c, t.checks k = some c → c.Total k) : t.Total := by
  intro g gone root op sizes hs hin
  cases hc : t.checks (g.kind op) with
  | none =>
    exact Or.inl ⟨_, legality_of_kind hc, trivial⟩
  | some c =>
    rw [legality, hc]
    exact (h _ c hc g gone root op sizes hs hin rfl).bind fun _ _ => .pure trivial

namespace FinalForm

variable {k : OpKind}

/-- A check that is no more than a predicate always answers. -/
theorem ofPredicate_total (p : Graph → OpId → Bool) : (LegalityCheck.ofPredicate p).Total k :=
  fun _ _ _ _ _ _ _ _ => .ok trivial

/-- One that may fail answers if it fails by an overflow only, where that may be. -/
theorem ofTest_total {test : Graph → OpId → Except Fault Bool}
    (h : ∀ g gone root op, Scene g gone root → g.Inside root op → g.kind op = k →
      YieldsUnless (g.Overflows op) (test g op) fun _ => True) :
        (LegalityCheck.ofTest test).Total k :=
  fun g gone root op _ hs hin hk => (h g gone root op hs hin hk).bind fun _ _ => .pure trivial

/-- The size of a load can be told unless a number is too large. -/
theorem loadFits_total (gen : Generation) : (loadFits gen).Total .upd := by
  intro g gone root op sizes h hin hk
  obtain ⟨old, hold⟩ := h.single_of_kind hin (by rw [hk]; decide) (by rw [hk]; decide)
  exact (query_yields sizes hold hk).bind fun _ _ => .pure trivial

theorem noPendingSplat_total : (LegalityCheck.ofTest noPendingSplat).Total .fma := by
  refine ofTest_total fun g gone root op h hin hk => Yields.unless ?_
  have hlen := (h.shaped op hin).arity
  rw [hk] at hlen
  have hlen : 3 ≤ (g.operands op).length := hlen
  -- Whatever splat is found has an operand.
  have pending : Yields (pendingSplat? g op) fun x => ∀ splat, x = some splat →
      ∃ v, g.Reaches root op v splat .broadcast := by
    unfold pendingSplat?
    refine (h.operandAt hin (i := 0) (by omega)).bind fun v hv => ?_
    refine (h.definedBy? hin hv.2 .concat rfl).bind fun x hx => ?_
    cases x with
    | none => exact .pure fun _ e => by cases e
    | some concat =>
      refine (Reaches.first h (hx concat rfl) (Nat.le_refl 1)).bind fun w hw => ?_
      refine (h.definedBy? hin hw .broadcast rfl).bind fun y hy => ?_
      cases y with
      | some splat => exact .pure fun s e => ⟨w, hy s e⟩
      | none =>
        refine (h.operandAt hin (i := 1) (by omega)).bind fun u hu => ?_
        exact (h.definedBy? hin hu.2 .broadcast rfl).mono fun z hz s e => ⟨u, hz s e⟩
  refine pending.bind fun x hx => ?_
  cases x with
  | none => exact .pure trivial
  | some splat =>
    obtain ⟨v, hsplat⟩ := hx splat rfl
    refine (Reaches.first h hsplat (Nat.le_refl 1)).bind fun w hw => ?_
    exact (h.definedBy? hin hw .extract rfl).bind fun _ _ => .pure trivial

/-- The shape of an operand can always be told. -/
theorem operandAvoids_yields {g : Graph} {gone : List OpId} {root op : OpId}
    (h : Scene g gone root) (hin : g.Inside root op) (p : VectorShape → Bool) :
    Yields (operandAvoids p g op) fun _ => True := by
  rw [operandAvoids, h.operandShape? hin 0]
  exact .pure trivial

theorem reductionStays_total : (LegalityCheck.ofTest reductionStays).Total .reduction := by
  refine ofTest_total fun g gone root op h hin hk => Yields.unless ?_
  unfold reductionStays
  split
  · exact .ok trivial
  · exact .ok trivial
  · exact operandAvoids_yields h hin _

/-- A result that fills no register may stay, and its size tells. -/
theorem resultNoRegister_total (hk : k ∈ [OpKind.minsi, .maxsi, .minf, .maxf, .select]) :
    (LegalityCheck.ofTest resultNoRegister).Total k := by
  refine ofTest_total fun g gone root op h hin hkind => ?_
  unfold resultNoRegister
  split
  · exact .ok trivial
  next shape hshape =>
  exact (fillsRegister_yields fun hlong => .result (hkind ▸ hk) hshape hlong).bind
    fun _ _ => .pure trivial

theorem operandNoRegister_total (hk : k ∈ [OpKind.cmpi, .cmpf]) :
    (LegalityCheck.ofTest operandNoRegister).Total k := by
  refine ofTest_total fun g gone root op h hin hkind => ?_
  rw [operandNoRegister, h.operandShape? hin 0]
  refine YieldsUnless.bind (P := (· = _)) (.ok rfl) fun shape? hshape? => ?_
  cases shape? with
  | none => exact .pure trivial
  | some shape =>
    exact (fillsRegister_yields fun hlong => .of_operandShape (hkind ▸ hk) hshape?.symm hlong).bind
      fun _ _ => .pure trivial

theorem splatStays_total : (LegalityCheck.ofTest splatStays).Total .broadcast := by
  refine ofTest_total fun g gone root op h hin hk => Yields.unless ?_
  have hlen := (h.shaped op hin).arity
  rw [hk] at hlen
  refine (h.operandAt hin (i := 0) hlen).bind fun v hv => ?_
  exact (h.definedBy? hin hv.2 .extract rfl).bind fun _ _ => .pure trivial

end FinalForm

/-- The check that is said to a target, if one is, has a verdict on every operation of its
kind. -/
def TargetSetting.Total : TargetSetting → Prop
  | check k c => c.Total k
  | _ => True

namespace FinalForm

/-- To hold of all that is said to the target of a generation, it is enough to hold of each kind
of check that is said. -/
theorem forall_mem_settings_of_checks {P : TargetSetting → Prop} {gen : Generation}
    (dialects : ∀ d, P (.legalDialect d)) (legal : ∀ k, P (.legalKind k))
    (illegal : ∀ k, P (.illegalKind k)) (loads : P (.check .upd (loadFits gen)))
    (scalars : ∀ k, P (.check k (.ofPredicate scalarResult)))
    (pending : gen = .aie → P (.check .fma (.ofTest noPendingSplat)))
    (shapes : ∀ k p, P (.check k (.ofPredicate (resultAvoids p))))
    (products : P (.check .muli (.ofPredicate (productStays .addi isIntProductShape))))
    (floatProducts : P (.check .mulf (.ofPredicate (productStays .addf isFloatProductShape))))
    (results : ∀ k ∈ [OpKind.minsi, .maxsi, .minf, .maxf, .select],
      P (.check k (.ofTest resultNoRegister)))
    (operands : ∀ k ∈ [OpKind.cmpi, .cmpf], P (.check k (.ofTest operandNoRegister)))
    (reductions : P (.check .reduction (.ofTest reductionStays)))
    (splats : P (.check .broadcast (.ofTest splatStays))) : ∀ s ∈ gen.settings, P s := by
  -- The settings are lists of kinds with one check each, apart from a few that stand alone.
  have common : ∀ s ∈ commonSettings, P s := by
    simp only [commonSettings, List.forall_mem_cons]
    exact ⟨dialects _, dialects _, dialects _, illegal _, scalars _, scalars _, scalars _,
      scalars _, List.forall_mem_nil _⟩
  cases gen with
  | aie =>
    refine List.forall_mem_append.mpr ⟨common, ?_⟩
    simp only [aieSettings, List.forall_mem_cons]
    exact ⟨loads, pending rfl, List.forall_mem_nil _⟩
  | aieml =>
    refine List.forall_mem_append.mpr ⟨common, ?_⟩
    simp only [aiemlSettings, List.forall_mem_append]
    refine ⟨⟨⟨⟨⟨⟨?_, List.forall_mem_map.mpr fun k _ => shapes k _⟩,
      List.forall_mem_map.mpr fun k _ => shapes k _⟩, ?_⟩, List.forall_mem_map.mpr results⟩,
      List.forall_mem_map.mpr operands⟩, ?_⟩
    · simp only [List.forall_mem_cons]
      exact ⟨legal _, loads, List.forall_mem_nil _⟩
    · simp only [List.forall_mem_cons]
      exact ⟨products, floatProducts, List.forall_mem_nil _⟩
    · simp only [List.forall_mem_cons]
      exact ⟨reductions, splats, List.forall_mem_nil _⟩

end FinalForm

/-- All that is set for either generation answers. -/
theorem Generation.settings_total (gen : Generation) : ∀ s ∈ gen.settings, s.Total := by
  refine FinalForm.forall_mem_settings_of_checks (fun _ => trivial) (fun _ => trivial)
    (fun _ => trivial) (FinalForm.loadFits_total _) (fun _ => FinalForm.ofPredicate_total _)
    (fun _ => FinalForm.noPendingSplat_total) (fun _ _ => FinalForm.ofPredicate_total _)
    (FinalForm.ofPredicate_total _) (FinalForm.ofPredicate_total _) ?_ ?_
    FinalForm.reductionStays_total FinalForm.splatStays_total
  · exact fun _ hk => FinalForm.resultNoRegister_total hk
  · exact fun _ hk => FinalForm.operandNoRegister_total hk

/-- And so does its target. -/
theorem Generation.conversionTarget_total (gen : Generation) : gen.conversionTarget.Total :=
  ConversionTarget.total_of_checks fun _ _ hc =>
    gen.settings_total _ (ConversionTarget.mem_of_checks hc)

end SimdLowering
