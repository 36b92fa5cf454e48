/-
What a round without changes says about the graph at its end.

In such a round the graph stands still, so every nested operation is visited on what turns out to
be the final graph. What the visit found out was found out with the sizes known at that time, and
more of them may be known at the end, which makes no difference to checks and rules that use them
as answers to the questions for them.

So a round without changes is a proof: whatever is nested under the root may stay, or has been
refused, or is passed by every rule for its kind, all on the final graph and with the final sizes.
-/
import SimdLowering.Proofs.Graph.Closed
import SimdLowering.Proofs.Rewrite.Actions
import Mathlib.Data.List.Permutation

set_option autoImplicit false

namespace SimdLowering

open SimdLowering.Graph

open SimdLowering.AccessSizes

/-- Wherever rewriting leads, the checks of the target and the rules use sizes that are known as
answers to the questions for them. -/
def RuleSet.Memoized (rules : RuleSet) (target : ConversionTarget) (g : Graph) : Prop :=
  ∀ log g₁, rules.Rewritten g log g₁ → ∀ op b, g₁.blockOf? op = some b →
    AccessSizes.Memoized g₁ (target.asks g₁ op) ∧
    ∀ e ∈ rules.forKind (g₁.kind op), AccessSizes.Memoized g₁ (e.rule.asks g₁ op)

theorem RuleSet.Memoized.along {rules : RuleSet} {target : ConversionTarget} {g : Graph}
    (h : rules.Memoized target g) (log : List Rewrite) (g₁ : Graph)
    (hlog : rules.Rewritten g log g₁) (op : OpId) (b : BlockId) (hb : g₁.blockOf? op = some b) :
    (target.asks g₁ op).Along (Extends g₁) ∧
      ∀ e ∈ rules.forKind (g₁.kind op), (e.rule.asks g₁ op).Along (Extends g₁) :=
  ⟨fun _ _ _ => (h log g₁ hlog op b hb).1.learns,
    fun e he _ _ _ => ((h log g₁ hlog op b hb).2 e he).learns⟩

namespace Application

variable {rules : RuleSet} {target : ConversionTarget} {root op : OpId} {g : Graph} {l : List Rule}
  {s s' t : Application} {b : BlockId} {r : RegionId} {depth : Nat} {α : Type}
  {K : AccessSizes → AccessSizes → Prop}

/-! ## Changes are only ever counted up -/

/-- Trying rules does not take changes back. -/
theorem Trial.changes_le (h : Trial op l s s') : s.changes ≤ s'.changes := by
  induction h with
  | exhausted => exact Nat.le_refl _
  | passed _ _ _ ih => exact ih
  | refused _ => exact Nat.le_refl _
  | rewritten _ _ hcommit =>
    obtain ⟨touched, -, hcommit⟩ := bind_eq_ok.mp hcommit
    obtain ⟨g', -, hcommit⟩ := bind_eq_ok.mp hcommit
    cases hcommit
    exact Nat.le_succ _

/-- Nor does a visit. -/
theorem visitOp_changes_le (h : s.visitOp rules target op = .ok s') : s.changes ≤ s'.changes := by
  obtain ⟨_, _, -, ⟨-, rfl⟩ | ⟨-, htrial⟩⟩ := visitOp_cases h
  · exact Nat.le_refl _
  · exact htrial.changes_le

/-- Nor one visit after the other. -/
theorem foldlM_changes_le {f : Application → α → Except Fault Application}
    (hf : ∀ x s s', f s x = .ok s' → s.changes ≤ s'.changes) {l : List α}
    (h : l.foldlM f s = .ok s') : s.changes ≤ s'.changes :=
  foldlM_invariant (fun _ t => s.changes ≤ t.changes)
    (fun x _ _ _ ht h => Nat.le_trans ht (hf x _ _ h)) (Nat.le_refl _) h

/-- Nor a whole region. -/
theorem visitRegion_changes_le (h : visitRegion rules target depth s r = .ok s') :
    s.changes ≤ s'.changes :=
  visitRegion_invariant (I := fun t => s.changes ≤ t.changes)
    (fun _ _ _ _ ht _ h => Nat.le_trans ht (visitOp_changes_le h)) (Nat.le_refl _) h

/-- Nor an operation with all that is inside of it. -/
theorem turn_changes_le (h : turn rules target depth b s op = .ok s') : s.changes ≤ s'.changes := by
  unfold turn at h
  split at h
  · cases h
    exact Nat.le_refl _
  · obtain ⟨t, ht, h⟩ := bind_eq_ok.mp h
    have hle := foldlM_changes_le (fun _ _ _ => visitRegion_changes_le) ht
    split at h
    · cases h
      exact hle
    · exact Nat.le_trans hle (visitOp_changes_le h)

/-! ## What is settled stays so while nothing changes -/

/-- Nothing has changed but that sizes have come to be known and more has been refused. -/
structure Quiet (K : AccessSizes → AccessSizes → Prop) (s s' : Application) : Prop where
  graph : s'.graph = s.graph
  sizes : K s.sizes s'.sizes
  rejected : s.rejected <+: s'.rejected

/-- Where nothing happens it is quiet. -/
theorem Quiet.refl (hK : Course K) (s : Application) : Quiet K s s :=
  ⟨rfl, hK.refl _, List.prefix_refl _⟩

/-- And one quiet stretch after the other is quiet. -/
theorem Quiet.trans (hK : Course K) (h₁ : Quiet K s t) (h₂ : Quiet K t s') : Quiet K s s' :=
  ⟨h₂.graph.trans h₁.graph, hK.trans h₁.sizes h₂.sizes, h₁.rejected.trans h₂.rejected⟩

/-- There is a verdict on the operation, and by what has been answered it may stay, or has been
refused, or is passed by every rule for its kind. -/
def Settled (K : AccessSizes → AccessSizes → Prop) (rules : RuleSet) (target : ConversionTarget)
    (s : Application) (op : OpId) : Prop :=
  ∃ verdict, Answered K (target.asks s.graph op) verdict s.sizes ∧
    (verdict = .legal ∨ s.isRejected op = true ∨
      ∀ e ∈ rules.forKind (s.graph.kind op), ∃ outcome : Outcome, outcome.Passes ∧
        Answered K (e.rule.asks s.graph op) (s.graph, outcome) s.sizes)

/-- What is settled stays so while it is quiet. -/
theorem Settled.quiet (hK : Course K) (h : Settled K rules target s op) (hq : Quiet K s s') :
    Settled K rules target s' op := by
  unfold Settled
  rw [hq.graph]
  obtain ⟨verdict, hverdict, hcases⟩ := h
  refine ⟨verdict, hverdict.mono hK hq.sizes, ?_⟩
  rcases hcases with hlegal | hrejected | hpass
  · exact Or.inl hlegal
  · refine Or.inr (Or.inl ?_)
    obtain ⟨more, hmore⟩ := hq.rejected
    rw [isRejected, ← hmore, List.any_append, Bool.or_eq_true]
    exact Or.inl hrejected
  · refine Or.inr (Or.inr fun e he => ?_)
    obtain ⟨outcome, hidle, hanswer⟩ := hpass e he
    exact ⟨outcome, hidle, hanswer.mono hK hq.sizes⟩

/-- What has been refused is among what is reported as refused. -/
theorem isRejected_iff : s.isRejected op = true ↔ op ∈ s.rejected.map Rejection.op := by
  simp [isRejected, List.mem_map]

/-- What was answered some time ago is answered again, if nothing has been forgotten since. -/
theorem Settled.again (h : Settled (Extends s.graph) rules target s op)
    (hmemo : Memoized s.graph (target.asks s.graph op) ∧
      ∀ e ∈ rules.forKind (s.graph.kind op), Memoized s.graph (e.rule.asks s.graph op)) :
    (∃ c, target.legality s.graph op s.sizes = .ok (.legal, c)) ∨
      op ∈ s.rejected.map Rejection.op ∨
      ∀ e ∈ rules.forKind (s.graph.kind op), ∃ c outcome,
        e.rule.run s.graph op s.sizes = .ok (s.graph, c, outcome) ∧ outcome.Passes := by
  obtain ⟨verdict, hverdict, hcases⟩ := h
  refine hcases.imp (fun hlegal => (hlegal ▸ hverdict).again hmemo.1)
    (Or.imp isRejected_iff.mp fun hpass e he => ?_)
  obtain ⟨outcome, hidle, hanswer⟩ := hpass e he
  obtain ⟨c, hc⟩ := hanswer.again (hmemo.2 e he)
  exact ⟨c, outcome, hc, hidle⟩

/-- Sizes have come to be known, and nothing has changed besides. -/
structure Idles (s s' : Application) : Prop extends Quiet (Extends s.graph) s s' where
  same : s'.rejected = s.rejected ∧ s'.changes = s.changes

/-- To idle twice is to idle. -/
theorem Idles.trans (h₁ : Idles s t) (h₂ : Idles t s') : Idles s s' :=
  ⟨h₁.toQuiet.trans (course_extends _) (h₁.graph ▸ h₂.toQuiet),
    h₂.same.1.trans h₁.same.1, h₂.same.2.trans h₁.same.2⟩

/-- To learn sizes is to idle. -/
theorem idles_of_extends {c : AccessSizes} (h : Extends s.graph s.sizes c) :
    Idles s { s with sizes := c } :=
  ⟨⟨rfl, h, List.prefix_refl _⟩, rfl, rfl⟩

/-- Rules that have all passed an operation pass it again. -/
theorem tryRules_again (h : ∀ rule ∈ l, Memoized s.graph (rule.asks s.graph op) ∧
    ∃ outcome : Outcome, outcome.Passes ∧
      Answered (Extends s.graph) (rule.asks s.graph op) (s.graph, outcome) s.sizes) :
    Yields (tryRules op l s) (Idles s) := by
  induction l generalizing s with
  | nil => exact .ok (idles_of_extends (Extends.refl s.graph s.sizes))
  | cons rule l ih =>
    obtain ⟨hmemo, outcome, hpass, hanswer⟩ := h rule (List.mem_cons_self ..)
    obtain ⟨c, hc⟩ := hanswer.again hmemo
    have hknown := idles_of_extends (hmemo.learns hc)
    -- With more sizes known the other rules pass as well.
    have hrest := ih (s := { s with sizes := c }) fun r hr => by
      obtain ⟨hmemo', outcome', hpass', hanswer'⟩ := h r (List.mem_cons_of_mem _ hr)
      exact ⟨hmemo', outcome', hpass', hanswer'.mono (course_extends _) hknown.sizes⟩
    rw [tryRules, show rule.run s.graph op s.sizes = .ok (s.graph, c, outcome) from hc]
    dsimp only [bind, Except.bind]
    cases outcome with
    | declined => exact hrest.mono fun _ hidle => hknown.trans hidle
    | refused reason => cases hpass
    | matched edits =>
      dsimp only
      rw [if_pos (show edits.isEmpty = true from hpass)]
      exact hrest.mono fun _ hidle => hknown.trans hidle

/-- A settled operation is visited without a change, and without a fault. -/
theorem Settled.visit (h : Settled (Extends s.graph) rules target s op)
    (hmemo : Memoized s.graph (target.asks s.graph op) ∧
      ∀ e ∈ rules.forKind (s.graph.kind op), Memoized s.graph (e.rule.asks s.graph op)) :
    Yields (s.visitOp rules target op) (Idles s) := by
  obtain ⟨verdict, hverdict, hcases⟩ := h
  obtain ⟨c, hc⟩ := hverdict.again hmemo.1
  have hknown := idles_of_extends (hmemo.1.learns hc)
  rw [visitOp, show target.legality s.graph op s.sizes = .ok (verdict, c) from hc]
  dsimp only [bind, Except.bind]
  split
  · exact .pure hknown
  next hstays =>
  have hopen : verdict ≠ .legal ∧ s.isRejected op = false := by
    simpa [isRejected] using hstays
  have hpass := (hcases.resolve_left hopen.1).resolve_left (by simp [hopen.2])
  refine (tryRules_again (s := { s with sizes := c }) fun rule hrule => ?_).mono
    fun _ hidle => hknown.trans hidle
  obtain ⟨e, he, rfl⟩ := List.mem_map.mp hrule
  obtain ⟨outcome, hidle, hanswer⟩ := hpass e he
  exact ⟨hmemo.2 e he, outcome, hidle, hanswer.mono (course_extends _) hknown.sizes⟩

/-- Where everything under the root is settled, one more round does nothing. -/
theorem round_again (hnest : NestingAgrees s.graph)
    (hmemo : ∀ op, s.graph.Inside root op → Memoized s.graph (target.asks s.graph op) ∧
      ∀ e ∈ rules.forKind (s.graph.kind op), Memoized s.graph (e.rule.asks s.graph op))
    (h : ∀ op, s.graph.Inside root op → Settled (Extends s.graph) rules target s op) :
    Yields (s.round rules target root) (Idles s) := by
  have hvisit : ∀ t op, Idles s t → t.graph.Inside root op →
      YieldsUnless (fun _ => False) (t.visitOp rules target op) (Keeps root (Idles s) t) := by
    intro t op ht hin
    rw [ht.graph] at hin
    have hsettled := (h op hin).quiet (course_extends _) ht.toQuiet
    rw [← ht.graph] at hsettled
    obtain ⟨t', ht', hidle⟩ := hsettled.visit (ht.graph ▸ hmemo op hin)
    exact Or.inl ⟨t', ht', ht.trans hidle, hidle.graph ▸ .refl ..⟩
  have hround := round_keeps (fun _ (ht : Idles s _) => ht.graph ▸ hnest) hvisit
    (idles_of_extends (Extends.refl s.graph s.sizes))
  exact (hround.yields fun _ => id).mono fun _ ht => ht.1

/-- Rules have been tried without a change: one of them refused, or all were passed. -/
theorem Trial.quiet (hK : Course K) (h : Trial op l s s') (heq : s'.changes = s.changes)
    (hl : ∀ rule ∈ l, rule.RecordsAt s.graph op ∧ (rule.asks s.graph op).Along K) :
    Quiet K s s' ∧ (s'.isRejected op = true ∨ ∀ rule ∈ l, ∃ outcome : Outcome, outcome.Passes ∧
      Answered K (rule.asks s.graph op) (s.graph, outcome) s'.sizes) := by
  -- The induction is on the trial; a rewriting would have been counted.
  induction h with
  | exhausted => exact ⟨.refl hK _, Or.inr fun _ h => nomatch h⟩
  | @passed rule l s s' g c outcome hrun hpass _ ih =>
    obtain ⟨hrecords, halong⟩ := hl rule (List.mem_cons_self ..)
    obtain rfl := still_of_passes hrecords hrun hpass
    have hasked : rule.asks s.graph op s.sizes (s.graph, outcome) c := hrun
    obtain ⟨hq, hend⟩ := ih heq fun r hr => hl r (List.mem_cons_of_mem _ hr)
    have hknown : Quiet K s { s with sizes := c } :=
      ⟨rfl, halong _ _ _ hasked, List.prefix_refl _⟩
    refine ⟨hknown.trans hK hq, hend.imp_right fun hrest r hr => ?_⟩
    rcases List.mem_cons.mp hr with rfl | hr
    · exact ⟨outcome, hpass, s.sizes, c, hasked, hq.sizes⟩
    · exact hrest r hr
  | @refused rule l s g c reason hrun =>
    obtain ⟨hrecords, halong⟩ := hl rule (List.mem_cons_self ..)
    obtain rfl := hrecords.still hrun fun edits h => nomatch h
    have hasked : rule.asks s.graph op s.sizes (s.graph, .refused reason) c := hrun
    refine ⟨⟨rfl, halong _ _ _ hasked, List.prefix_append ..⟩, Or.inl ?_⟩
    simp [isRejected]
  | rewritten _ _ hcommit =>
    obtain ⟨touched, -, hcommit⟩ := bind_eq_ok.mp hcommit
    obtain ⟨g', -, hcommit⟩ := bind_eq_ok.mp hcommit
    cases hcommit
    exact absurd heq (Nat.succ_ne_self _)

section

variable (hK : Course K) (hplaces : g.Places)
  (hrecords : ∀ op b, g.blockOf? op = some b →
    ∀ e ∈ rules.forKind (g.kind op), e.rule.RecordsAt g op)
  (halong : ∀ op b, g.blockOf? op = some b → (target.asks g op).Along K ∧
    ∀ e ∈ rules.forKind (g.kind op), (e.rule.asks g op).Along K)
include hK hrecords halong

/-- A visit without a change settles the operation. -/
theorem visitOp_quiet (hg : s.graph = g) (hb : g.blockOf? op = some b)
    (h : s.visitOp rules target op = .ok s')
    (heq : s'.changes = s.changes) : Quiet K s s' ∧ Settled K rules target s' op := by
  subst hg
  obtain ⟨verdict, c, hlegal, hcases⟩ := visitOp_cases h
  have hasked : target.asks s.graph op s.sizes verdict c := hlegal
  have hknown : Quiet K s { s with sizes := c } :=
    ⟨rfl, (halong op b hb).1 _ _ _ hasked, List.prefix_refl _⟩
  rcases hcases with ⟨hstays, rfl⟩ | ⟨-, htrial⟩
  -- The operation was left alone: it may stay, or it has been refused before.
  · exact ⟨hknown, verdict, ⟨s.sizes, c, hasked, hK.refl _⟩, hstays.imp_right Or.inl⟩
  · obtain ⟨hq, hend⟩ := htrial.quiet hK heq fun rule hrule => by
      obtain ⟨e, he, rfl⟩ := List.mem_map.mp hrule
      exact ⟨hrecords op b hb e he, (halong op b hb).2 e he⟩
    have hgraph : s'.graph = s.graph := hq.graph
    refine ⟨hknown.trans hK hq, verdict, ?_, Or.inr (hend.imp_right fun hrest e he => ?_)⟩
    · rw [hgraph]
      exact ⟨s.sizes, c, hasked, hq.sizes⟩
    · rw [hgraph] at he ⊢
      exact hrest e.rule (List.mem_map_of_mem he)

omit hrecords halong in
/-- A run over a list without a change settles what its steps settle. -/
theorem foldlM_quiet {f : Application → α → Except Fault Application} {M : α → List OpId}
    {l : List α} (hmono : ∀ x s s', f s x = .ok s' → s.changes ≤ s'.changes)
    (hf : ∀ x ∈ l, ∀ s s', s.graph = g → f s x = .ok s' → s'.changes = s.changes →
      Quiet K s s' ∧ ∀ op ∈ M x, Settled K rules target s' op)
    (hg : s.graph = g) (h : l.foldlM f s = .ok s') (heq : s'.changes = s.changes) :
    Quiet K s s' ∧ ∀ op ∈ l.flatMap M, Settled K rules target s' op := by
  induction l generalizing s with
  | nil =>
    cases h
    exact ⟨.refl hK _, fun _ h => nomatch h⟩
  | cons x l ih =>
    obtain ⟨t, ht, h⟩ := bind_eq_ok.mp h
    -- The count cannot have gone up and down again.
    have h₁ := hmono x s t ht
    have h₂ := foldlM_changes_le hmono h
    obtain ⟨hq, hx⟩ := hf x (List.mem_cons_self ..) s t hg ht (by omega)
    obtain ⟨hq', hl⟩ := ih (fun y hy => hf y (List.mem_cons_of_mem _ hy)) (hq.graph.trans hg) h
      (by omega)
    refine ⟨hq.trans hK hq', fun op hop => ?_⟩
    rw [List.flatMap_cons, List.mem_append] at hop
    rcases hop with hop | hop
    · exact (hx op hop).quiet hK hq'
    · exact hl op hop

include hplaces

/-- To go through a region without a change settles everything in it, as deep down as one has
gone. -/
theorem visitRegion_quiet (hg : s.graph = g) (h : visitRegion rules target depth s r = .ok s')
    (heq : s'.changes = s.changes) :
    Quiet K s s' ∧ ∀ op ∈ (g.opsOfRegion r).flatMap (g.preorderWithin depth),
      Settled K rules target s' op := by
  induction depth generalizing s s' r with
  | zero =>
    cases h
    refine ⟨.refl hK _, fun op hop => ?_⟩
    simp [preorderWithin] at hop
  | succ depth ih =>
    -- Blocks and their operations are read off snapshots, which agree with the graph as it stands
    -- at the end because nothing has changed in between.
    rw [visitRegion_succ, hg] at h
    rw [opsOfRegion, List.flatMap_assoc]
    refine foldlM_quiet hK (fun b s s' => foldlM_changes_le fun _ _ _ => turn_changes_le) ?_
      hg h heq
    intro b _ s s' hg h heq
    rw [hg] at h
    refine foldlM_quiet hK (fun _ _ _ => turn_changes_le) ?_ hg h heq
    intro op hop s s' hg h heq
    -- On a graph that stands still the operation is where the block lists it.
    have hblock := (hplaces op b).mp hop
    rw [turn, hg, if_neg (not_not_intro hblock)] at h
    obtain ⟨t, ht, h⟩ := bind_eq_ok.mp h
    have hmono := foldlM_changes_le (fun _ _ _ => visitRegion_changes_le) ht
    have hle : t.changes ≤ s'.changes := by
      split at h
      · cases h
        exact Nat.le_refl _
      · exact visitOp_changes_le h
    obtain ⟨hq, hinner⟩ := foldlM_quiet hK (M := fun r => (g.opsOfRegion r).flatMap
      (g.preorderWithin depth))
      (fun _ _ _ => visitRegion_changes_le) (fun r _ s s' hg h heq => ih hg h heq) hg ht (by omega)
    have htg : t.graph = g := hq.graph.trans hg
    rw [htg, if_neg (not_not_intro hblock)] at h
    obtain ⟨hq', hop⟩ := visitOp_quiet hK hrecords halong htg hblock h (by omega)
    refine ⟨hq.trans hK hq', fun x hx => ?_⟩
    rw [preorderWithin, List.mem_cons] at hx
    rcases hx with rfl | hx
    · exact hop
    · rw [innerOps, List.flatMap_assoc] at hx
      exact (hinner x hx).quiet hK hq'

/-- A round without a change settles everything nested under the root. -/
theorem round_quiet (hg : s.graph = g) (h : s.round rules target root = .ok s')
    (heq : s'.changes = s.changes) :
    Quiet K s s' ∧ ∀ op, g.Inside root op → Settled K rules target s' op := by
  rw [round, hg] at h
  obtain ⟨hq, hall⟩ := foldlM_quiet hK (M := fun r => (g.opsOfRegion r).flatMap
    (g.preorderWithin g.depthBound))
    (fun _ _ _ => visitRegion_changes_le)
    (fun r _ s s' hg h heq => visitRegion_quiet hK hplaces hrecords halong hg h heq) hg h heq
  refine ⟨hq, fun op hop => hall op ?_⟩
  have := mem_nested_iff.mpr hop
  rwa [nested, innerOps, List.flatMap_assoc] at this

end

/-- Where a fixpoint is reported, the last round changed nothing. -/
theorem rounds_last {I : Application → Prop}
    (hvisit : ∀ s op b s', I s → s.graph.blockOf? op = some b →
      visitOp rules target s op = .ok s' → I s')
    {left done : Nat} {x : Application × Nat × Bool} (hs : I s)
    (h : rounds rules target root left done s = .ok x) (hfix : x.2.2 = true) :
    ∃ t, I t ∧ t.round rules target root = .ok x.1 ∧ x.1.changes = t.changes := by
  induction left generalizing done s with
  | zero =>
    cases h
    cases hfix
  | succ left ih =>
    obtain ⟨t, ht, h⟩ := bind_eq_ok.mp h
    split at h
    · next heq =>
      cases h
      exact ⟨s, hs, ht, heq⟩
    · refine ih (foldlM_invariant (fun _ => I) (fun _ _ _ _ hs h => ?_) hs ht) h
      exact visitRegion_invariant hvisit hs h

end Application

/-! ## What is reported -/

namespace RuleSet

variable {rules : RuleSet} {target : ConversionTarget} {g g' : Graph} {gone : List OpId}
  {root : OpId} {budget : Nat} {sizes sizes' : AccessSizes} {result : ApplyResult}

/-- If a fixpoint is reported, everything nested under the root has been settled on the final
graph, with what was known when the last round got to it. -/
theorem settled_of_fixpoint {K : Graph → AccessSizes → AccessSizes → Prop} (hK : ∀ g, Course (K g))
    (hplaces : g.Places) (hrules : rules.Records g)
    (halong : ∀ log g₁, rules.Rewritten g log g₁ → ∀ op b, g₁.blockOf? op = some b →
      (target.asks g₁ op).Along (K g₁) ∧
      ∀ e ∈ rules.forKind (g₁.kind op), (e.rule.asks g₁ op).Along (K g₁))
    (h : rules.apply g root target budget sizes = .ok (g', sizes', result))
    (hfix : result.fixpoint = true) :
    ∃ log, rules.Rewritten g log g' ∧ g'.Places ∧ ∀ op, g'.Inside root op →
      Application.Settled (K g') rules target ⟨g', sizes', result.rejected, result.changes⟩ op := by
  obtain ⟨⟨s, n, fixpoint⟩, hrounds, h⟩ := bind_eq_ok.mp h
  cases h
  -- The last round changed nothing, so it tried all rules on the graph that it ended with.
  obtain ⟨t, ht, hround, heq⟩ := Application.rounds_last
    (fun _ _ _ _ hs hb hv => Application.Reports.visit hs hrules hb hv)
    (Application.Reports.start hplaces sizes) hrounds hfix
  obtain ⟨log, hlog, -⟩ := ht.run
  obtain ⟨hquiet, hsettled⟩ := Application.round_quiet (hK t.graph) ht.places
    (hrules log t.graph hlog) (halong log t.graph hlog) rfl hround heq
  have hgraph : s.graph = t.graph := hquiet.graph
  have hplaces := ht.places
  rw [← hgraph] at hlog hplaces hsettled
  exact ⟨log, hlog, hplaces, hsettled⟩

/-- The history of a function that returns the difference of a sum and one of its summands. -/
def differenceHistory : List Edit :=
  [.createBlock [.vector 16 (.i 32), .vector 16 (.i 32)],
    .createOp (Instr.binary .addi ⟨⟨0⟩, .vector 16 (.i 32)⟩ ⟨1⟩), .append ⟨0⟩ ⟨0⟩,
    .createOp (Instr.binary .subi ⟨⟨2⟩, .vector 16 (.i 32)⟩ ⟨1⟩), .append ⟨0⟩ ⟨1⟩,
    .createOp (Instr.ret [⟨3⟩]), .append ⟨0⟩ ⟨2⟩, .createRegion [⟨0⟩],
    .createOp (Instr.func "difference" ⟨0⟩)]

/-- The graph the history ends with. -/
def differenceGraph : Graph where
  ops := #[⟨.addi, [⟨0⟩, ⟨1⟩], [⟨2⟩], .empty, [], some ⟨0⟩⟩,
    ⟨.subi, [⟨2⟩, ⟨1⟩], [⟨3⟩], .empty, [], some ⟨0⟩⟩, ⟨.ret, [⟨3⟩], [], .empty, [], some ⟨0⟩⟩,
    ⟨.func, [], [], .ofList [(AttrName.symName, .str "difference")], [⟨0⟩], none⟩]
  values := #[⟨.argument ⟨0⟩ 0, .vector 16 (.i 32)⟩, ⟨.argument ⟨0⟩ 1, .vector 16 (.i 32)⟩,
    ⟨.result ⟨0⟩ 0, .vector 16 (.i 32)⟩, ⟨.result ⟨1⟩ 0, .vector 16 (.i 32)⟩]
  blocks := #[⟨[⟨0⟩, ⟨1⟩], [⟨0⟩, ⟨1⟩, ⟨2⟩], some ⟨0⟩⟩]
  regions := #[⟨[⟨0⟩], some ⟨3⟩⟩]
  chains := #[[⟨⟨0⟩, 0⟩], [⟨⟨0⟩, 1⟩, ⟨⟨1⟩, 1⟩], [⟨⟨1⟩, 0⟩], [⟨⟨2⟩, 0⟩]]

/-- The graph in which an elementwise sum has taken the place of the sum. -/
def elementwiseGraph : Graph where
  ops := #[⟨.addi, [⟨0⟩, ⟨1⟩], [⟨2⟩], .empty, [], none⟩,
    ⟨.subi, [⟨4⟩, ⟨1⟩], [⟨3⟩], .empty, [], some ⟨0⟩⟩, ⟨.ret, [⟨3⟩], [], .empty, [], some ⟨0⟩⟩,
    ⟨.func, [], [], .ofList [(AttrName.symName, .str "difference")], [⟨0⟩], none⟩,
    ⟨.addElem, [⟨0⟩, ⟨1⟩], [⟨4⟩], .empty, [], some ⟨0⟩⟩]
  values := #[⟨.argument ⟨0⟩ 0, .vector 16 (.i 32)⟩, ⟨.argument ⟨0⟩ 1, .vector 16 (.i 32)⟩,
    ⟨.result ⟨0⟩ 0, .vector 16 (.i 32)⟩, ⟨.result ⟨1⟩ 0, .vector 16 (.i 32)⟩,
    ⟨.result ⟨4⟩ 0, .vector 16 (.i 32)⟩]
  blocks := #[⟨[⟨0⟩, ⟨1⟩], [⟨4⟩, ⟨1⟩, ⟨2⟩], some ⟨0⟩⟩]
  regions := #[⟨[⟨0⟩], some ⟨3⟩⟩]
  chains := #[[⟨⟨4⟩, 0⟩], [⟨⟨1⟩, 1⟩, ⟨⟨4⟩, 1⟩], [], [⟨⟨2⟩, 0⟩], [⟨⟨1⟩, 0⟩]]

/-- Sums become elementwise sums, and differences are refused. -/
def sumsOnly : RuleSet :=
  .ofList [(Action.replace .addElem false).toRule "Sums" [.addi] none,
    (Action.refuse "no differences").toRule "NoDifferences" [.subi] none]

theorem sumsOnly_records (g : Graph) : sumsOnly.Records g := by
  refine records_of_forall fun e he g op => ?_
  rcases List.mem_pair.mp he with rfl | rfl
  · exact Action.recordsAt_toRule rfl
  · exact Action.recordsAt_toRule rfl

/-- A check that allows results of at most so many bits. -/
def atMostBits (limit : Nat) : LegalityCheck := fun g op sizes => do
  let (bits, sizes) ← sizes.query g op
  return (decide (bits ≤ limit), sizes)

/-- Elementwise sums may have 512 bits and differences 256; sums may not stay. -/
def shortResults : ConversionTarget :=
  .ofSettings [.illegalKind .addi, .check .addElem (atMostBits 512), .check .subi (atMostBits 256)]

/-- A check of sizes goes by what is known. -/
theorem memoized_atMostBits (limit : Nat) (g : Graph) (op : OpId) :
    AccessSizes.Memoized g fun c ok c' => atMostBits limit g op c = .ok (ok, c') := by
  refine AccessSizes.memoized_of_query op (f := fun bits => .ok (decide (bits ≤ limit)))
    fun c ok c' => ?_
  rw [atMostBits, bind_eq_ok]
  constructor
  · rintro ⟨⟨n, d⟩, hn, h⟩
    cases h
    exact ⟨n, hn, rfl⟩
  · rintro ⟨n, hn, h⟩
    cases h
    exact ⟨⟨n, c'⟩, hn, rfl⟩

/-- A check that allows what has not been asked for before. -/
def notAskedBefore : LegalityCheck := fun g op sizes => do
  let (_, after) ← sizes.query g op
  return (!sizes.contains op, after)

/-- The history of a function with a cast that holds a product. -/
def wrappedHistory : List Edit :=
  [.createBlock [.i 32], .createBlock [], .createRegion [⟨1⟩],
    .createOp ⟨.unrealizedCast, [⟨0⟩], [.i 32], .empty, [⟨0⟩]⟩, .append ⟨0⟩ ⟨0⟩,
    .createOp (Instr.binary .muli ⟨⟨0⟩, .i 32⟩ ⟨0⟩), .append ⟨1⟩ ⟨1⟩,
    .createOp (Instr.ret [⟨1⟩]), .append ⟨0⟩ ⟨2⟩, .createRegion [⟨0⟩],
    .createOp (Instr.func "wrapped" ⟨1⟩)]

/-- The graph the history ends with. -/
def wrappedGraph : Graph where
  ops := #[⟨.unrealizedCast, [⟨0⟩], [⟨1⟩], .empty, [⟨0⟩], some ⟨0⟩⟩,
    ⟨.muli, [⟨0⟩, ⟨0⟩], [⟨2⟩], .empty, [], some ⟨1⟩⟩, ⟨.ret, [⟨1⟩], [], .empty, [], some ⟨0⟩⟩,
    ⟨.func, [], [], .ofList [(AttrName.symName, .str "wrapped")], [⟨1⟩], none⟩]
  values := #[⟨.argument ⟨0⟩ 0, .i 32⟩, ⟨.result ⟨0⟩ 0, .i 32⟩, ⟨.result ⟨1⟩ 0, .i 32⟩]
  blocks := #[⟨[⟨0⟩], [⟨0⟩, ⟨2⟩], some ⟨1⟩⟩, ⟨[], [⟨1⟩], some ⟨0⟩⟩]
  regions := #[⟨[⟨1⟩], some ⟨0⟩⟩, ⟨[⟨0⟩], some ⟨3⟩⟩]
  chains := #[[⟨⟨0⟩, 0⟩, ⟨⟨1⟩, 0⟩, ⟨⟨1⟩, 1⟩], [⟨⟨2⟩, 0⟩]]

/-- Products are refused, and casts become splats, which hold nothing. -/
def unwrapped : RuleSet :=
  .ofList [(Action.refuse "no products").toRule "NoProducts" [.muli] none,
    (Action.replace .broadcast false).toRule "Unwrap" [.unrealizedCast] none]

end RuleSet

end SimdLowering
