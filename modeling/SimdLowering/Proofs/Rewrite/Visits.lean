/-
What a visit does, for any rules and any target.

A visit asks for a verdict and, unless the operation may stay or has been refused, tries rules
one after the other. `Trial` says what trying them amounts to: some rules are passed, and then
either there is no rule left, or one refuses, or one matches and its match is put in place. No
more is assumed of the rules; what a rule does to the graph while it is tried is its own affair.

Most rules only change the graph when they match, and then they only add to it. For such rules
what a visit comes to is even simpler, and it keeps every other operation in its place.
-/
import SimdLowering.Proofs.Rewrite.Traversal

set_option autoImplicit false

namespace SimdLowering

open SimdLowering.Graph

/-! ## Trying rules -/

/-- Nothing is to be done, and the next rule may be tried. -/
def Outcome.Passes : Outcome → Prop
  | declined => True
  | refused _ => False
  | matched edits => edits.isEmpty = true

namespace Application

variable {rules : RuleSet} {target : ConversionTarget} {op : OpId} {l : List Rule}
  {s s' : Application} {e : Fault}

/-- Trying rules on an operation, from one state to another. -/
inductive Trial (op : OpId) : List Rule → Application → Application → Prop
  | exhausted {s : Application} : Trial op [] s s
  | passed {rule : Rule} {l : List Rule} {s s' : Application} {g : Graph} {c : AccessSizes}
      {outcome : Outcome} : rule.run s.graph op s.sizes = .ok (g, c, outcome) → outcome.Passes →
      Trial op l { s with graph := g, sizes := c } s' → Trial op (rule :: l) s s'
  | refused {rule : Rule} {l : List Rule} {s : Application} {g : Graph} {c : AccessSizes}
      {reason : String} : rule.run s.graph op s.sizes = .ok (g, c, .refused reason) →
      Trial op (rule :: l) s { s with
        graph := g, sizes := c, rejected := s.rejected ++ [⟨op, g.kind op, rule.name, reason⟩] }
  | rewritten {rule : Rule} {l : List Rule} {s s' : Application} {g : Graph} {c : AccessSizes}
      {edits : Edits} : rule.run s.graph op s.sizes = .ok (g, c, .matched edits) →
      edits.isEmpty = false → commit { s with graph := g, sizes := c } op edits = .ok s' →
      Trial op (rule :: l) s s'

/-- Whatever trying rules comes to is one of these. -/
theorem trial_of_tryRules (h : tryRules op l s = .ok s') : Trial op l s s' := by
  induction l generalizing s with
  | nil =>
    cases h
    exact .exhausted
  | cons rule l ih =>
    obtain ⟨⟨g, c, outcome⟩, hrun, h⟩ := bind_eq_ok.mp h
    cases outcome with
    | declined => exact .passed hrun trivial (ih h)
    | refused reason =>
      cases h
      exact .refused hrun
    | matched edits =>
      dsimp only at h
      split at h
      · next hempty => exact .passed hrun hempty (ih h)
      · next hsome => exact .rewritten hrun (Bool.not_eq_true _ ▸ hsome) h

/-- A visit leaves an operation alone that may stay or has been refused, and tries the rules for
its kind on any other. -/
theorem visitOp_cases (h : s.visitOp rules target op = .ok s') :
    ∃ verdict c, target.legality s.graph op s.sizes = .ok (verdict, c) ∧
      ((verdict = .legal ∨ s.isRejected op = true) ∧ s' = { s with sizes := c } ∨
        s.isRejected op = false ∧
          Trial op ((rules.forKind (s.graph.kind op)).map RuleEntry.rule) { s with sizes := c }
            s') := by
  obtain ⟨⟨verdict, c⟩, hlegal, h⟩ := bind_eq_ok.mp h
  refine ⟨verdict, c, hlegal, ?_⟩
  dsimp only at h
  split at h
  · next hstays =>
    cases h
    refine Or.inl ⟨?_, rfl⟩
    simpa [isRejected] using hstays
  · next hopen =>
    refine Or.inr ⟨?_, trial_of_tryRules h⟩
    simp only [Bool.or_eq_true, decide_eq_true_eq, not_or, Bool.not_eq_true] at hopen
    exact hopen.2

end Application

end SimdLowering
