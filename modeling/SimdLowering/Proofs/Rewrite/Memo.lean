/-
Sizes that are known, and what is asked with them.

A check or a rule may be told the size of a load from memory. As long as the graph stands still
this makes no difference: whoever asks for a size either is told what is known or has it computed
on the graph and remembered, so whoever asks again when nothing has been forgotten is told the
same and comes to the same answer. `Memoized` is this property of a question, and `Answered` is
what is left of an answer when more has become known since.

Nothing in the type of a check says that it uses the known sizes in this way; it might as well
count them. The checks and rules that only ask through `query` do.
-/
import SimdLowering.Proofs.Rewrite.LastWord
import SimdLowering.Proofs.Runs
import SimdLowering.Rewrite.Rule

set_option autoImplicit false

namespace SimdLowering

/-! ## Questions and what is learned from them -/

/-- A question: what the answer is with some sizes known, and what is known afterwards. -/
abbrev Question (α : Type) : Type := AccessSizes → α → AccessSizes → Prop

/-- Whatever the answer is, the sizes take this course. -/
def Question.Along {α : Type} (Q : Question α) (K : AccessSizes → AccessSizes → Prop) : Prop :=
  ∀ c a c', Q c a c' → K c c'

namespace AccessSizes

variable {g : Graph} {op : OpId} {n : Nat} {c c' d : AccessSizes} {α : Type} {Q : Question α}
  {a : α}
  {K : AccessSizes → AccessSizes → Prop}

/-- All that was known is known still, and what is known besides is so on the graph. -/
def Extends (g : Graph) (c c' : AccessSizes) : Prop :=
  ∀ o, c'.get? o = c.get? o ∨
    c.get? o = none ∧ ∃ n, g.accessSize o = .ok n ∧ c'.get? o = some n

namespace Extends

theorem refl (g : Graph) (c : AccessSizes) : Extends g c c := fun _ => Or.inl rfl

theorem trans (h₁ : Extends g c c') (h₂ : Extends g c' d) : Extends g c d := by
  intro o
  rcases h₂ o with hsame | ⟨hnone, n, hsize, hn⟩
  · rw [hsame]
    exact h₁ o
  -- A size that was learned later was not known before, since nothing is forgotten.
  · rcases h₁ o with hsame | ⟨-, n', -, hn'⟩
    · exact Or.inr ⟨hsame ▸ hnone, n, hsize, hn⟩
    · rw [hn'] at hnone
      cases hnone

theorem get?_eq (h : Extends g c c') (hn : c.get? op = some n) : c'.get? op = some n := by
  rcases h op with hsame | ⟨hnone, -⟩
  · rw [hsame, hn]
  · rw [hn] at hnone
    cases hnone

end Extends

/-- The question is answered from what is known and from the graph: what is learned is so, and
when it is known the answer is the same again. -/
structure Memoized (g : Graph) (Q : Question α) : Prop where
  learns : ∀ {c a c'}, Q c a c' → Extends g c c'
  repeats : ∀ {c a c' d}, Q c a c' → Extends g c' d → ∃ d', Q d a d'

/-- A way in which sizes may come to be known, one after the other. -/
structure Course (K : AccessSizes → AccessSizes → Prop) : Prop where
  refl : ∀ c, K c c
  trans : ∀ {c c' d}, K c c' → K c' d → K c d

theorem course_extends (g : Graph) : Course (Extends g) := ⟨.refl g, .trans⟩

/-- The answer has been given some time ago. -/
def Answered (K : AccessSizes → AccessSizes → Prop) (Q : Question α) (a : α) (d : AccessSizes) :
    Prop :=
  ∃ c c', Q c a c' ∧ K c' d

theorem Answered.mono (hK : Course K) (h : Answered K Q a c) (hc : K c d) : Answered K Q a d := by
  obtain ⟨c₁, c₂, hQ, hknown⟩ := h
  exact ⟨c₁, c₂, hQ, hK.trans hknown hc⟩

/-- If nothing that was learned then has been forgotten, the answer is given again. -/
theorem Answered.again (hQ : Memoized g Q) (h : Answered (Extends g) Q a d) : ∃ d', Q d a d' := by
  obtain ⟨c₁, c₂, ha, hext⟩ := h
  exact hQ.repeats ha hext

/-- To ask for the size of a load teaches that size and no more. -/
theorem query_extends (h : c.query g op = .ok (n, c')) : Extends g c c' ∧ c'.get? op = some n := by
  cases hget : c.get? op with
  | some m =>
    simp only [query, hget] at h
    cases h
    exact ⟨.refl g c, hget⟩
  | none =>
    simp only [query, hget] at h
    obtain ⟨m, hm, h⟩ := bind_eq_ok.mp h
    cases h
    have hlook : ∀ o, AccessSizes.get? ⟨(op, n) :: c.entries⟩ o =
        if o = op then some n else c.get? o := by
      intro o
      by_cases ho : o = op <;> simp [get?, List.lookup_cons, ho, beq_false_of_ne]
    refine ⟨fun o => ?_, by rw [hlook, if_pos rfl]⟩
    rw [hlook]
    split
    · next ho =>
      subst ho
      exact Or.inr ⟨hget, n, hm, rfl⟩
    · exact Or.inl rfl

/-- What takes no notice of the sizes is the same whichever are known. -/
theorem memoized_of_silent {x : Except Fault α} (h : ∀ c a c', Q c a c' ↔ x = .ok a ∧ c' = c) :
    Memoized g Q := by
  refine ⟨fun {c a c'} hQ => ?_, fun {c a c' d} hQ _ => ?_⟩
  · obtain ⟨-, rfl⟩ := (h c a c').mp hQ
    exact .refl g c'
  · obtain ⟨ha, -⟩ := (h c a c').mp hQ
    exact ⟨d, (h d a d).mpr ⟨ha, rfl⟩⟩

/-- A size that is known is what the question for it gives. -/
theorem query_of_get? (h : c.get? op = some n) : c.query g op = .ok (n, c) := by
  simp only [query, h]

/-- What asks for one size and goes by the answer says the same whenever that size is known. -/
theorem memoized_of_query (op : OpId) {f : Nat → Except Fault α}
    (h : ∀ c a c', Q c a c' ↔ ∃ n, c.query g op = .ok (n, c') ∧ f n = .ok a) : Memoized g Q := by
  refine ⟨fun {c a c'} hQ => ?_, fun {c a c' d} hQ hext => ?_⟩
  · obtain ⟨n, hn, -⟩ := (h c a c').mp hQ
    exact (query_extends hn).1
  · obtain ⟨n, hn, ha⟩ := (h c a c').mp hQ
    exact ⟨d, (h d a d).mpr ⟨n, query_of_get? (hext.get?_eq (query_extends hn).2), ha⟩⟩

end AccessSizes

open SimdLowering.AccessSizes

/-- What a target says of an operation, as a question. -/
def ConversionTarget.asks (target : ConversionTarget) (g : Graph) (op : OpId) : Question Legality :=
  fun c verdict c' => target.legality g op c = .ok (verdict, c')

/-- If the check for the kind uses known sizes as answers, so does the target. -/
theorem ConversionTarget.memoized {target : ConversionTarget} {g : Graph} {op : OpId}
    (h : ∀ check, target.checks (g.kind op) = some check →
      Memoized g fun c ok c' => check g op c = .ok (ok, c')) : Memoized g (target.asks g op) := by
  cases hcheck : target.checks (g.kind op) with
  | none =>
    -- What is said of a kind or a dialect is no matter of sizes.
    refine memoized_of_silent (x := .ok (target.kindLegality (g.kind op))) fun c v c' => ?_
    simp only [asks, legality_of_kind hcheck, Except.ok.injEq, Prod.mk.injEq, eq_comm]
  | some check =>
    have hm := h check hcheck
    have hasks : ∀ c v c', target.asks g op c v c' ↔
        ∃ ok, check g op c = .ok (ok, c') ∧ (if ok then .legal else .illegal) = v :=
      fun c v c' => legality_eq_ok_of_check hcheck
    refine ⟨fun hQ => ?_, fun hQ hext => ?_⟩
    · obtain ⟨ok, hok, -⟩ := (hasks _ _ _).mp hQ
      exact hm.learns hok
    · obtain ⟨ok, hok, hv⟩ := (hasks _ _ _).mp hQ
      obtain ⟨d', hd'⟩ := hm.repeats hok hext
      exact ⟨d', (hasks _ _ _).mpr ⟨ok, hd', hv⟩⟩

/-- What a rule answers at an operation and does to the graph, as a question. -/
def Rule.asks (rule : Rule) (g : Graph) (op : OpId) : Question (Graph × Outcome) :=
  fun c x c' => rule.run g op c = .ok (x.1, c', x.2)

end SimdLowering
