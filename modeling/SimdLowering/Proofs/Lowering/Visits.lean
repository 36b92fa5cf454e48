/-
What a visit comes to, where it is known what the target and the rules say.
-/
import SimdLowering.Proofs.Lowering.Rounds
import SimdLowering.Proofs.Rewrite.Evaluation

set_option autoImplicit false

namespace SimdLowering

open SimdLowering.Graph SimdLowering.Application

variable {gone : List OpId} {func op : OpId} {size : Nat} {o : LowerOptions} {s s' : Application}

/-- A visit to what may stay does nothing. -/
theorem visitOp_of_legal {rules : RuleSet} {target : ConversionTarget} {sizes : AccessSizes}
    (h : target.legality s.graph op s.sizes = .ok (.legal, sizes)) :
    s.visitOp rules target op = .ok { s with sizes := sizes } := by
  rw [visitOp, h]
  rfl

/-- In particular it refuses nothing. -/
theorem rejected_of_legal {rules : RuleSet} {target : ConversionTarget}
    (h : ∀ c, target.legality s.graph op c = .ok (.legal, c))
    (hv : s.visitOp rules target op = .ok s') : s'.rejected = s.rejected := by
  rw [visitOp_of_legal (h _)] at hv
  cases hv
  rfl

/-- A visit to an operation that may not stay, where one rule for its kind works by a recipe and
all others decline, puts the recipe in place. -/
theorem spliced_of_visit {r : Recipe} {e : RuleEntry} {old : ValueId}
    (h : Upright s.graph gone func size) (hin : s.graph.Inside func op)
    (hopen : s.isRejected op = false)
    (hillegal : o.target.conversionTarget.legality s.graph op s.sizes = .ok (.illegal, s.sizes))
    (he : e ∈ o.ruleSet.entries) (hk : s.graph.kind op ∈ e.rule.roots)
    (hmatch : ∀ c, e.rule.run s.graph op c = .ok (((Decision.rewrite r).perform s.graph).1, c,
      ((Decision.rewrite r).perform s.graph).2))
    (hfine : r.Fine s.graph.HasValue) (hold : s.graph.results op = [old])
    (hothers : ∀ e' ∈ o.ruleSet.entries, s.graph.kind op ∈ e'.rule.roots → e'.rule ≠ e.rule →
      ∀ c, e'.rule.run s.graph op c = .ok (s.graph, c, .declined))
    (hv : s.visitOp o.ruleSet o.target.conversionTarget op = .ok s') :
    (∃ b, Spliced s.graph s'.graph gone op b old r) ∧ r.Lawful s.graph func op ∧
      s'.rejected = s.rejected ∧ s'.changes = s.changes + 1 := by
  cases LowerOptions.visited h hin (tracks_any ..) hv with
  -- The visit does not leave the operation alone: it may not stay, it has not been refused, and its
  -- rule matches.
  | same _ _ _ _ hidle =>
    exfalso
    cases hidle with
    | legal c hlegal =>
      rw [hillegal] at hlegal
      cases hlegal
    | already hrej =>
      rw [hopen] at hrej
      cases hrej
    | refused e' reason he' hk' hrun =>
      obtain ⟨c, g', c', -, hrun⟩ := hrun
      by_cases hsame : e'.rule = e.rule
      · rw [hsame, hmatch] at hrun
        exact nomatch (Prod.mk.inj (Prod.mk.inj (Except.ok.inj hrun)).2).2
      · rw [hothers e' he' hk' hsame] at hrun
        cases hrun
    | declined hall =>
      obtain ⟨c, c', -, hrun⟩ := hall e he hk
      rw [hmatch] at hrun
      exact nomatch (Prod.mk.inj (Prod.mk.inj (Except.ok.inj hrun)).2).2
  | rewritten b old' r' hrw =>
    obtain ⟨e', he', hk', c, c', touched, hrun, -⟩ := hrw.rule
    -- No other rule matches, so the recipe is the one that is known.
    have hsame : e'.rule = e.rule := by
      by_contra hne
      rw [hothers e' he' hk' hne] at hrun
      exact nomatch (Prod.mk.inj (Prod.mk.inj (Except.ok.inj hrun)).2).2
    have hfine' : r'.Fine s.graph.HasValue := hrw.lawful.hasValue h.scene.consistent
    rw [hsame, hmatch, Except.ok.injEq, Prod.mk.injEq, Prod.mk.injEq] at hrun
    obtain ⟨hgraph, -, hmatched⟩ := hrun
    obtain rfl : r = r' := Recipe.eq_of_addRecipe h.scene.consistent hfine hfine'
      (Prod.ext hgraph (Outcome.matched.inj hmatched))
    obtain rfl : old' = old := List.singleton_inj.mp (hrw.spliced.single.symm.trans hold)
    exact ⟨⟨b, hrw.spliced⟩, hrw.lawful, hrw.rejected, hrw.changes⟩

theorem isRejected_of_nil (h : s.rejected = []) : s.isRejected op = false := by
  rw [isRejected, h]
  rfl

/-- A visit refuses nothing but the operation visited. -/
theorem Application.Visited.isRejected_of_ne {rules : RuleSet} {target : ConversionTarget}
    {Q : AccessSizes → AccessSizes → Prop} {c₀ : AccessSizes} {x : OpId}
    (h : Visited rules target Q func gone c₀ s op s') (hne : x ≠ op)
    (hx : s.isRejected x = false) : s'.isRejected x = false := by
  have hsame : s'.rejected = s.rejected → s'.isRejected x = false := by
    intro hrej
    rw [isRejected, hrej]
    exact hx
  cases h with
  | rewritten _ _ _ hrw => exact hsame hrw.rejected
  | same _ _ _ _ hidle =>
    cases hidle with
    | legal _ _ hrej => exact hsame hrej
    | already _ hrej => exact hsame hrej
    | declined _ hrej => exact hsame hrej
    | refused _ _ _ _ _ hrej =>
      rw [isRejected] at hx
      rw [isRejected, hrej, List.any_append, hx, List.any_cons, List.any_nil, Bool.or_false,
        Bool.false_or]
      exact beq_eq_false_iff_ne.mpr (Ne.symm hne)

/-- A visit that rewrites is one to an operation that may not stay. -/
theorem Application.Rewrites.not_legal {rules : RuleSet} {target : ConversionTarget}
    {Q : AccessSizes → AccessSizes → Prop} {c₀ : AccessSizes} {b : BlockId} {old : ValueId}
    {r : Recipe} (h : Rewrites rules target Q func gone c₀ s op s' b old r) :
    ¬ ∀ c, target.legality s.graph op c = .ok (.legal, c) := by
  intro hlegal
  obtain ⟨verdict, c', hverdict, hne⟩ := h.opened
  rw [hlegal] at hverdict
  exact hne (Prod.mk.inj (Except.ok.inj hverdict)).1.symm

end SimdLowering
