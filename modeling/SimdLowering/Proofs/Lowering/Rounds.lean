/-
A lowering, taken apart.

A lowering that has come back with something has gone through rounds and then answered. The
rounds are sequences of visits, each to an operation under the function, and the function is
upright before and after each of them. The answer depends on the state the rounds ended in:
on the first refusal if there is one, and on what verification finds otherwise. Nothing is
asked of the function here but that it be upright; reads without lanes, which bring a
lowering down, are allowed, since a lowering that has been brought down has not come back.
-/
import SimdLowering.Proofs.Lowering.Safety
import SimdLowering.Proofs.Rewrite.Schedule

set_option autoImplicit false

namespace SimdLowering

open SimdLowering.Graph SimdLowering.Application

variable {o : LowerOptions} {func op : OpId} {size : Nat} {gone : List OpId}
  {s s' : Application} {Q : AccessSizes → AccessSizes → Prop} {g g' : Graph}
  {answer : Except LowerError LowerReport}

/-! ## Visits -/

/-- Whatever has been removed, the function is upright. -/
def UprightAt (func : OpId) (size : Nat) (s : Application) : Prop :=
  ∃ gone, Upright s.graph gone func size

namespace LowerOptions

/-- A visit that comes back did what visits may do. -/
theorem visited (h : Upright s.graph gone func size) (hin : s.graph.Inside func op)
    (hQ : Tracks o.ruleSet o.target.conversionTarget s.graph op Q)
    (hv : s.visitOp o.ruleSet o.target.conversionTarget op = .ok s') :
    Visited o.ruleSet o.target.conversionTarget Q func gone s.sizes s op s' :=
  (visitOp_yields o.target.conversionTarget_total o.ruleSet_lawful h.scene hin hQ).of_eq_ok hv

theorem upright_of_visited (h : Upright s.graph gone func size) (hin : s.graph.Inside func op)
    {c₀ : AccessSizes}
    (hv : Visited o.ruleSet o.target.conversionTarget Q func gone c₀ s op s') :
    UprightAt func size s' ∧ Stirred s.graph s'.graph op := by
  cases hv with
  | same hg => exact ⟨⟨gone, hg ▸ h⟩, Or.inl hg⟩
  | rewritten b old r hrw =>
    obtain ⟨e, he, hk, -⟩ := hrw.rule
    exact ⟨⟨op :: gone, h.spliced hin hrw.spliced hrw.lawful (root_of_isLowered he hk)⟩,
      Or.inr ⟨gone, b, old, r, hrw.spliced⟩⟩

variable (o func size)

theorem visitsKeep :
    VisitsKeep o.ruleSet o.target.conversionTarget func (UprightAt func size) := by
  intro s op s' ⟨gone, h⟩ hin hv
  exact upright_of_visited h hin (visited h hin (tracks_any ..) hv)

end LowerOptions

theorem UprightAt.ground (h : UprightAt func size s) :
    ∃ gone, Consistent s.graph gone ∧ ¬ s.graph.Inside func func := by
  obtain ⟨gone, h⟩ := h
  exact ⟨gone, h.scene.consistent, h.scene.ordered.acyclic⟩

/-- The function is upright wherever visits lead. -/
theorem UprightAt.visits (h : UprightAt func size s)
    (hv : Relation.ReflTransGen (VisitTo o.ruleSet o.target.conversionTarget func) s s') :
    UprightAt func size s' :=
  (o.visitsKeep func size).visits h hv

/-- What each visit to an upright function keeps holds wherever visits lead. -/
theorem UprightAt.visits_induction {P : Application → Prop} (h : UprightAt func size s) (hs : P s)
    (step : ∀ {t t' : Application} {op : OpId} {gone : List OpId}, Upright t.graph gone func size →
      t.graph.Inside func op → t.visitOp o.ruleSet o.target.conversionTarget op = .ok t' →
      P t → P t')
    (hv : Relation.ReflTransGen (VisitTo o.ruleSet o.target.conversionTarget func) s s') :
    P s' := by
  have hkeep : VisitsKeep o.ruleSet o.target.conversionTarget func
      fun t => UprightAt func size t ∧ P t := by
    intro t op t' ⟨⟨gone, ht⟩, hP⟩ hin hv
    obtain ⟨ht', hstirred⟩ := o.visitsKeep func size t op t' ⟨gone, ht⟩ hin hv
    exact ⟨⟨ht', step ht hin hv hP⟩, hstirred⟩
  exact (hkeep.visits ⟨h, hs⟩ hv).2

/-- Refusals stay on record. -/
theorem rejected_of_visits (h : UprightAt func size s)
    (hv : Relation.ReflTransGen (VisitTo o.ruleSet o.target.conversionTarget func) s s') :
    s.rejected <+: s'.rejected := by
  refine h.visits_induction (P := fun t => s.rejected <+: t.rejected) (List.prefix_refl _)
    (fun ht hin hv hbefore => ?_) hv
  cases LowerOptions.visited ht hin (tracks_any ..) hv with
  | same _ _ hnoted _ => exact hbefore.trans hnoted
  | rewritten b old r hrw => exact hrw.rejected ▸ hbefore

/-- An operation that is there stays, with its kind. -/
theorem kind_of_visits (h : UprightAt func size s)
    (hv : Relation.ReflTransGen (VisitTo o.ruleSet o.target.conversionTarget func) s s')
    (hop : s.graph.HasOp op) : s'.graph.HasOp op ∧ s'.graph.kind op = s.graph.kind op := by
  refine h.visits_induction (P := fun t => t.graph.HasOp op ∧ t.graph.kind op = s.graph.kind op)
    ⟨hop, rfl⟩ (fun ht hin hv hbefore => ?_) hv
  rcases (o.visitsKeep func size _ _ _ ⟨_, ht⟩ hin hv).2 with hg | ⟨gone, b, old, r, hs⟩
  · rwa [hg]
  · exact ⟨hs.hasOp_iff.mpr (Or.inl hbefore.1), (hs.kind_of_hasOp hbefore.1).trans hbefore.2⟩

/-! ## The answer -/

/-- What a lowering answers after rounds that ended in the given state. -/
inductive Answers (o : LowerOptions) (func : OpId) (s : Application) (rounds : Nat) :
    Except LowerError LowerReport → Prop
  | refused (first : Rejection) (rest : List Rejection) : s.rejected = first :: rest →
      Answers o func s rounds (.error (.unsupported first.op first.kind first.reason))
  | illegal (ops : List IllegalOp) (sizes : AccessSizes) : s.rejected = [] →
      o.target.conversionTarget.verify s.graph func s.sizes = .ok (ops, sizes) → ops ≠ [] →
      o.failOnIllegal = true → Answers o func s rounds (.error (.illegalOperations ops))
  | done (ops : List IllegalOp) (sizes : AccessSizes) : s.rejected = [] →
      o.target.conversionTarget.verify s.graph func s.sizes = .ok (ops, sizes) →
      (ops = [] ∨ o.failOnIllegal = false) →
      Answers o func s rounds (.ok ⟨o.target, rounds, s.changes, ops⟩)

/-- The state in which the rounds begin. -/
def Application.start (g : Graph) (sizes : AccessSizes) : Application := ⟨g, sizes, [], 0⟩

/-- A lowering that came back was asked for an operation that is there. If that is a
function, rounds have ended in the graph it came back with, and it answered accordingly. -/
theorem lower_eq_ok (h : g.lower func o = .ok (g', answer)) : g.HasOp func ∧
    ((g.kind func ≠ .func ∧ g' = g ∧ answer = .error (.notAFunction (g.kind func))) ∨
      (g.kind func = .func ∧ ∃ s n fixpoint,
        rounds o.ruleSet o.target.conversionTarget func o.maxIterations 0 (.start g .empty) =
          .ok (s, n, fixpoint) ∧ s.graph = g' ∧ Answers o func s n answer)) := by
  unfold lower at h
  by_cases hop : g.HasOp func
  swap
  · rw [op?_eq_none hop] at h
    cases h
  rw [op?_eq_some hop] at h
  by_cases hk : g.kind func = .func
  swap
  · rw [if_pos hk] at h
    cases h
    exact ⟨hop, Or.inl ⟨hk, rfl, rfl⟩⟩
  refine ⟨hop, Or.inr ⟨hk, ?_⟩⟩
  rw [if_neg (not_not_intro hk)] at h
  -- The rounds are made, and the answer goes by what was refused and what verification finds.
  obtain ⟨⟨g₁, sizes, result⟩, happly, h⟩ := bind_eq_ok.mp h
  obtain ⟨⟨s, n, fixpoint⟩, hrounds, happly⟩ := bind_eq_ok.mp happly
  cases happly
  dsimp only at h
  split at h
  · next first rest hrejected =>
    cases h
    exact ⟨s, n, fixpoint, hrounds, rfl, .refused first rest hrejected⟩
  · next hrejected =>
    obtain ⟨⟨ops, sizes⟩, hverify, h⟩ := bind_eq_ok.mp h
    dsimp only at h
    split at h
    · next hfail =>
      cases h
      rw [Bool.and_eq_true, Bool.not_eq_true', List.isEmpty_eq_false_iff] at hfail
      exact ⟨s, n, fixpoint, hrounds, rfl, .illegal ops sizes hrejected hverify hfail.1 hfail.2⟩
    · next hfail =>
      obtain ⟨-, -, h⟩ := bind_eq_ok.mp h
      cases h
      refine ⟨s, n, fixpoint, hrounds, rfl, .done ops sizes hrejected hverify ?_⟩
      rw [Bool.and_eq_true, Bool.not_eq_true', List.isEmpty_eq_false_iff, not_and_or, not_not,
        Bool.not_eq_true] at hfail
      exact hfail

/-- If nothing was refused and all that is left may stay, the lowering succeeds. -/
theorem Answers.succeeds {rounds : Nat} {sizes : AccessSizes} (h : Answers o func s rounds answer)
    (hrejected : s.rejected = [])
    (hverify : o.target.conversionTarget.verify s.graph func s.sizes = .ok ([], sizes)) :
    ∃ report, answer = .ok report ∧ report.remaining = [] := by
  cases h with
  | refused first rest hfirst =>
    rw [hrejected] at hfirst
    cases hfirst
  | illegal ops sizes' _ hfound hne =>
    rw [hverify] at hfound
    cases hfound
    exact absurd rfl hne
  | done ops sizes' _ hfound =>
    rw [hverify] at hfound
    cases hfound
    exact ⟨_, rfl, rfl⟩

/-- After a round, what rounds are left are visits like all others. -/
theorem visits_of_remaining_rounds {p : Prop} [Decidable p] {left done k : Nat} {fixpoint : Bool}
    (hs : UprightAt func size s)
    (h : (if p then .ok (s, done, true)
      else rounds o.ruleSet o.target.conversionTarget func left done s) =
        Except.ok (s', k, fixpoint)) :
    Relation.ReflTransGen (VisitTo o.ruleSet o.target.conversionTarget func) s s' := by
  split at h
  · cases h
    exact .refl
  · exact (rounds_visits (o.visitsKeep func size) (fun _ ht => ht.ground) hs h).1

/-- A lowering of an upright function that came back has made visits only. -/
theorem lower_visits (hg : Upright g gone func size) (h : g.lower func o = .ok (g', answer)) :
    ∃ s, Relation.ReflTransGen (VisitTo o.ruleSet o.target.conversionTarget func)
        (.start g .empty) s ∧ s.graph = g' := by
  obtain ⟨-, ⟨-, rfl, -⟩ | ⟨-, s, n, fixpoint, hrounds, hs, -⟩⟩ := lower_eq_ok h
  · exact ⟨_, .refl, rfl⟩
  · exact ⟨s, (rounds_visits (o.visitsKeep func size) (fun _ h => h.ground) ⟨gone, hg⟩ hrounds).1,
      hs⟩

end SimdLowering
