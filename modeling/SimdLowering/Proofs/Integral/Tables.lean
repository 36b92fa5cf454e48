/-
Every rule of both generations computes what it replaces in an integer function.

Most rules are tried on kinds that integer functions do not have, and the rules that make
multiply-adds find no product. What is left are the rules of which it has been shown one by
one. A load is never split, since it is legal as long as its type is that of a read.
-/
import SimdLowering.Proofs.Integral.Extrema
import SimdLowering.Proofs.Integral.Reads
import SimdLowering.Proofs.Integral.Reductions
import SimdLowering.Proofs.Integral.Sums
import SimdLowering.Proofs.Target.Queries

set_option autoImplicit false

namespace SimdLowering

open SimdLowering.Graph SimdLowering.Rules

section

variable {gen : Generation} {g : Graph} {gone : List OpId} {func op : OpId} {entry : BlockId}
  {old : ValueId} {args ans : List RtValue} {ρ : Env} {rule : Rule} {k : OpKind}
  (h : g.IntegralStage gen gone func entry args ans ρ op old)
include h

namespace Rules

/-- A rule is no concern of integer functions if it is tried on other kinds only. -/
theorem computes_of_roots (hroots : ∀ k ∈ rule.roots, k.isLowered = true ∨ k ∉ integralKinds)
    (hk : g.kind op ∈ rule.roots) : rule.ComputesAt g op ρ (g.known ρ old) := by
  rcases hroots _ hk with hl | hmem
  · rw [h.generic] at hl
    cases hl
  · exact absurd h.types.mem_integralKinds hmem

/-- There is no product to make a multiply-add of. -/
theorem binaryOperands_of_addi (hk : g.kind op = .addi) :
    ∃ lhs rhs, g.binaryOperands op = .ok (lhs, rhs) ∧ g.macOperands? lhs rhs = .ok none := by
  obtain ⟨lhs, rhs, hops, -, -⟩ := h.binary (by rw [hk]; decide)
  exact ⟨lhs, rhs, binaryOperands_eq hops,
    h.macOperands?_eq_none (by simp [hops]) (by simp [hops])⟩

theorem mulAddToFma_computes (hk : g.kind op = .addi) :
    mulAddToFma.ComputesAt g op ρ (g.known ρ old) := by
  refine .ofDecision h.scene.consistent ?_
  obtain ⟨lhs, rhs, hops, hmac⟩ := binaryOperands_of_addi h hk
  split
  · exact .ok trivial
  · rw [hops]
    refine YieldsUnless.bind (.ok rfl) fun p hp => ?_
    subst hp
    dsimp only
    rw [hmac]
    exact .pure trivial

theorem mulAddToFmaElem_computes {shift : Int} (hk : g.kind op = .addi) :
    (mulAddToFmaElem shift).ComputesAt g op ρ (g.known ρ old) := by
  refine .ofDecision h.scene.consistent ?_
  obtain ⟨lhs, rhs, hops, hmac⟩ := binaryOperands_of_addi h hk
  split
  · exact .ok trivial
  · rw [hops]
    refine YieldsUnless.bind (.ok rfl) fun p hp => ?_
    subst hp
    dsimp only
    rw [hmac]
    exact .pure trivial

theorem aieRules_computes : ∀ r ∈ aieRules, g.kind op ∈ r.roots →
    r.ComputesAt g op ρ (g.known ρ old) := by
  simp only [aieRules, List.forall_mem_cons]
  have sums : ∀ k ∈ sumKinds, g.kind op ∈ (shuffledAddSub k).roots →
      (shuffledAddSub k).ComputesAt g op ρ (g.known ρ old) := by
    intro k hk hroot
    obtain rfl : g.kind op = k := by
      rcases List.mem_pair.mp hk with rfl | rfl <;> exact List.mem_singleton.mp hroot
    exact shuffledAddSub_computes h hk
  refine ⟨fun hk => transferReadToUpd_computes h (List.mem_singleton.mp hk),
    computes_of_roots h (by decide), fun hk => mulAddToFma_computes h (List.mem_singleton.mp hk),
      computes_of_roots h (by decide),
    sums .addi (by decide), computes_of_roots h (by decide), sums .subi (by decide),
    computes_of_roots h (by decide), List.forall_mem_nil _⟩

theorem aiemlRules_computes {shift : Int}
    (hopen : Generation.aieml.conversionTarget.Open g op) :
    ∀ r ∈ aiemlRules shift, g.kind op ∈ r.roots → r.ComputesAt g op ρ (g.known ρ old) := by
  simp only [aiemlRules, List.forall_mem_cons]
  -- Sums and extrema are families, so each has one argument for its members.
  have sums : ∀ k ∈ sumKinds, g.kind op ∈ (addSubToElem k).roots →
      (addSubToElem k).ComputesAt g op ρ (g.known ρ old) := by
    intro k hk hroot
    obtain rfl : g.kind op = k := by
      rcases List.mem_pair.mp hk with rfl | rfl <;> exact List.mem_singleton.mp hroot
    exact addSubToElem_computes h hk
  have extrema : ∀ k ∈ [OpKind.minsi, .maxsi], g.kind op ∈ (minMaxToElem k).roots →
      (minMaxToElem k).ComputesAt g op ρ (g.known ρ old) := by
    intro k hk hroot
    obtain rfl : g.kind op = k := by
      rcases List.mem_pair.mp hk with rfl | rfl <;> exact List.mem_singleton.mp hroot
    exact minMaxToElem_computes h hk
  -- In the order of the table; `computes_of_roots` takes the rules whose roots do not occur among
  -- integers.
  refine ⟨fun hk => transferReadToUpd_computes h (List.mem_singleton.mp hk),
    computes_of_roots h (by decide), fun hk => mulAddToFmaElem_computes h
      (List.mem_singleton.mp hk),
    sums .addi (by decide), sums .subi (by decide), computes_of_roots h (by decide),
    computes_of_roots h (by decide), extrema .minsi (by decide), extrema .maxsi (by decide),
    computes_of_roots h (by decide), computes_of_roots h (by decide),
    fun hk => cmpToMask_computes h (List.mem_singleton.mp hk), computes_of_roots h (by decide),
    fun hk => selectToSel_computes h (List.mem_singleton.mp hk),
    fun hk => minReduction_foldsByType.computes h (List.mem_singleton.mp hk) hopen,
    fun hk => maxReduction_foldsByType.computes h (List.mem_singleton.mp hk) hopen,
    fun hk => intAddReduction_foldsByType.computes h (List.mem_singleton.mp hk) hopen,
    fun hk => f32AddReduction_foldsByType.computes h (List.mem_singleton.mp hk) hopen,
    fun hk => bf16AddReduction_foldsByType.computes h (List.mem_singleton.mp hk) hopen,
    fun hk => extractBroadcastToLane_computes h (List.mem_singleton.mp hk),
    computes_of_roots h (show ∀ k ∈ [OpKind.muli], _ by decide),
    computes_of_roots h (show ∀ k ∈ [OpKind.mulf], _ by decide), List.forall_mem_nil _⟩

end Rules

end

/-- Where the target lets a rule be tried on an operation of an integer function, the rule
computes what it replaces. -/
theorem LowerOptions.ruleSet_computes {o : LowerOptions} {e : RuleEntry} {g : Graph}
    {gone : List OpId} {func op : OpId} {entry : BlockId} {old : ValueId}
    {args ans : List RtValue} {ρ : Env} (he : e ∈ o.ruleSet.entries)
    (h : g.IntegralStage o.target gone func entry args ans ρ op old)
    (hk : g.kind op ∈ e.rule.roots) (hopen : o.target.conversionTarget.Open g op) :
    e.rule.ComputesAt g op ρ (g.known ρ old) := by
  unfold ruleSet at he
  cases ht : o.target with
  | aie =>
    rw [ht] at he
    exact aieRules_computes h _ (RuleSet.mem_entries_ofList he) hk
  | aieml =>
    rw [ht] at he hopen
    exact aiemlRules_computes h hopen _ (RuleSet.mem_entries_ofList he) hk

/-- No rule is tried on extensions. -/
theorem root_ne_extsi {o : LowerOptions} {e : RuleEntry} (he : e ∈ o.ruleSet.entries) :
    OpKind.extsi ∉ e.rule.roots := by
  have tables : (aieRules ++ aiemlRules o.shift).all fun r => !r.roots.contains .extsi := rfl
  have := List.all_eq_true.mp tables e.rule (LowerOptions.mem_tables he)
  simpa using this

end SimdLowering
