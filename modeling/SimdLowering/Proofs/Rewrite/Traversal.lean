/-
Visiting everything under a root.

A traversal lists the members of a block when it enters the block, and while it works
through the list, visits move the ground it stands on. Two things keep it going: what is
under the root keeps its regions and blocks, whatever the visits do; and an operation is
only visited where it still lies in its block, so that it is under the root when its turn
comes. Hence whatever a single visit keeps, all rounds together keep, and a round fails only in
ways that a visit does.
-/
import SimdLowering.Proofs.Graph.Nesting
import SimdLowering.Proofs.Rewrite.Scene
import SimdLowering.Rewrite.Apply

set_option autoImplicit false

namespace SimdLowering

open SimdLowering.Graph

/-- Regions under the root stay where they are, and blocks stay in their regions. -/
structure SameFrame (root : OpId) (g g' : Graph) : Prop where
  under : ∀ n r, g.Under root n r → g'.Under root n r
  blocks : ∀ r b, b ∈ g.blocksIn r → b ∈ g'.blocksIn r

namespace SameFrame

variable {root : OpId} {g g₁ g₂ : Graph}

theorem refl (root : OpId) (g : Graph) : SameFrame root g g := ⟨fun _ _ h => h, fun _ _ h => h⟩

theorem trans (h₁ : SameFrame root g g₁) (h₂ : SameFrame root g₁ g₂) : SameFrame root g g₂ :=
  ⟨fun n r h => h₂.under n r (h₁.under n r h), fun r b h => h₂.blocks r b (h₁.blocks r b h)⟩

end SameFrame

namespace Application

variable {rules : RuleSet} {target : ConversionTarget} {root : OpId} {I : Application → Prop}
  {F : Fault → Prop}

/-- The turn of an operation on the list of a block: what it holds is visited and then the
operation itself, unless it has left the block. -/
def turn (rules : RuleSet) (target : ConversionTarget) (depth : Nat) (b : BlockId)
    (s : Application) (op : OpId) : Except Fault Application :=
  if s.graph.blockOf? op ≠ some b then .ok s
  else do
    let s ← (s.graph.regionsOf op).foldlM (visitRegion rules target depth) s
    if s.graph.blockOf? op ≠ some b then return s
    else s.visitOp rules target op

theorem visitRegion_succ {depth : Nat} {s : Application} {r : RegionId} :
    visitRegion rules target (depth + 1) s r = (s.graph.blocksIn r).foldlM (fun s b =>
      (s.graph.opsIn b).foldlM (turn rules target depth b) s) s := rfl

/-- A run over part of the graph keeps the invariant and the frame. -/
def Keeps (root : OpId) (I : Application → Prop) (s s' : Application) : Prop :=
  I s' ∧ SameFrame root s.graph s'.graph

/-- A fold keeps the invariant and the frame if each step does, on the members that are
under the root by what the frame says. -/
theorem foldlM_keeps {α : Type} {f : Application → α → Except Fault Application}
    {M : Graph → α → Prop} (hM : ∀ g g' x, SameFrame root g g' → M g x → M g' x)
    (step : ∀ s x, I s → M s.graph x → YieldsUnless F (f s x) (Keeps root I s))
    {l : List α} {s : Application} (hs : I s) (hl : ∀ x ∈ l, M s.graph x) :
    YieldsUnless F (l.foldlM f s) (Keeps root I s) := by
  induction l generalizing s with
  | nil => exact .ok ⟨hs, .refl ..⟩
  | cons x xs ih =>
    rw [List.foldlM_cons]
    refine (step s x hs (hl x (List.mem_cons_self ..))).bind fun t ⟨ht, hst⟩ => ?_
    exact (ih ht fun y hy => hM _ _ y hst (hl y (List.mem_cons_of_mem _ hy))).mono
      fun t' ⟨ht', htt'⟩ => ⟨ht', hst.trans htt'⟩

section

variable (hnest : ∀ s, I s → NestingAgrees s.graph)
  (hvisit : ∀ s op, I s → s.graph.Inside root op →
    YieldsUnless F (visitOp rules target s op) (Keeps root I s))
include hnest hvisit

theorem visitRegion_keeps {depth n : Nat} {s : Application} {r : RegionId} (hs : I s)
    (hr : s.graph.Under root n r) :
    YieldsUnless F (visitRegion rules target depth s r) (Keeps root I s) := by
  induction depth generalizing n s r with
  | zero => exact .ok ⟨hs, .refl ..⟩
  | succ depth ih =>
    refine foldlM_keeps (M := fun g b => g.Under root n r ∧ b ∈ g.blocksIn r)
      (fun g g' b hf hb => ⟨hf.under n r hb.1, hf.blocks r b hb.2⟩) ?_ hs fun b hb => ⟨hr, hb⟩
    intro s b hs ⟨hr, hb⟩
    refine foldlM_keeps (M := fun g _ => g.Under root n r ∧ b ∈ g.blocksIn r)
      (fun g g' _ hf hb => ⟨hf.under n r hb.1, hf.blocks r b hb.2⟩) ?_ hs fun _ _ => ⟨hr, hb⟩
    intro s op hs ⟨hr, hb⟩
    -- Only an operation that is still in the block is under the root for sure.
    by_cases hop : s.graph.blockOf? op = some b
    · rw [if_neg (not_not_intro hop)]
      have hmem : op ∈ s.graph.opsIn b := ((hnest s hs).places op b).mpr hop
      have inner := foldlM_keeps (M := fun g r' => g.Under root (n + 1) r')
        (fun g g' r' hf hr' => hf.under (n + 1) r' hr') (fun s r' hs hr' => ih hs hr') hs
        fun r' hr' => .inner hr hb hmem hr'
      refine inner.bind fun t ⟨ht, hst⟩ => ?_
      split
      · exact .pure ⟨ht, hst⟩
      · next hop' =>
        have hin : t.graph.Inside root op := ⟨b, ⟨n, r, hst.under n r hr, hst.blocks r b hb⟩,
          ((hnest t ht).places op b).mpr (not_not.mp hop')⟩
        exact (hvisit t op ht hin).mono fun t' ⟨ht', htt'⟩ => ⟨ht', hst.trans htt'⟩
    · rw [if_pos hop]
      exact .ok ⟨hs, .refl ..⟩

theorem round_keeps {s : Application} (hs : I s) :
    YieldsUnless F (s.round rules target root) (Keeps root I s) :=
  foldlM_keeps (M := fun g r => g.Under root 1 r) (fun _ _ r hf hr => hf.under 1 r hr)
    (fun _ _ hs hr => visitRegion_keeps hnest hvisit hs hr) hs fun _ hr => .own hr

/-- Whatever every visit keeps, all rounds keep. -/
theorem rounds_keeps {left done : Nat} {s : Application} (hs : I s) :
    YieldsUnless F (rounds rules target root left done s) fun x => Keeps root I s x.1 := by
  induction left generalizing done s with
  | zero => exact .ok ⟨hs, .refl ..⟩
  | succ left ih =>
    refine (round_keeps hnest hvisit hs).bind fun t ⟨ht, hst⟩ => ?_
    split
    · exact .pure ⟨ht, hst⟩
    · exact (ih ht).mono fun x ⟨hx, htx⟩ => ⟨hx, hst.trans htx⟩

end

/-! ### Applications that come back -/

section

variable (hvisit : ∀ s op b s', I s → s.graph.blockOf? op = some b →
  visitOp rules target s op = .ok s' → I s')
include hvisit

theorem turn_invariant {depth : Nat} {s s' : Application} {b : BlockId} {op : OpId}
    (inner : ∀ s s' r, I s → visitRegion rules target depth s r = .ok s' → I s') (hs : I s)
    (h : turn rules target depth b s op = .ok s') : I s' := by
  unfold turn at h
  split at h
  · cases h
    exact hs
  · -- What the operation holds comes first, and may move the operation away.
    obtain ⟨t, ht, h⟩ := bind_eq_ok.mp h
    have ht := foldlM_invariant (fun _ => I) (fun r _ s s' hs h => inner s s' r hs h) hs ht
    split at h
    · cases h
      exact ht
    · next hop => exact hvisit t op b s' ht (not_not.mp hop) h

theorem visitRegion_invariant {depth : Nat} {s s' : Application} {r : RegionId} (hs : I s)
    (h : visitRegion rules target depth s r = .ok s') : I s' := by
  induction depth generalizing s s' r with
  | zero =>
    cases h
    exact hs
  | succ depth ih =>
    rw [visitRegion_succ] at h
    refine foldlM_invariant (fun _ => I) (fun b _ s s' hs h => ?_) hs h
    refine foldlM_invariant (fun _ => I) (fun op _ s s' hs h => ?_) hs h
    exact turn_invariant hvisit (fun _ _ _ hs h => ih hs h) hs h

/-- Whatever visits that come back keep, rounds that come back keep. -/
theorem rounds_invariant {left done : Nat} {s : Application} {x : Application × Nat × Bool}
    (hs : I s) (h : rounds rules target root left done s = .ok x) : I x.1 := by
  induction left generalizing done s with
  | zero =>
    cases h
    exact hs
  | succ left ih =>
    obtain ⟨t, ht, h⟩ := bind_eq_ok.mp h
    have ht := foldlM_invariant (fun _ => I)
      (fun _ _ _ _ hs h => visitRegion_invariant hvisit hs h) hs ht
    split at h
    · cases h
      exact ht
    · exact ih ht h

/-- If a traversal fails, then a visit on the way does. -/
theorem visitRegion_fails {depth : Nat} {s : Application} {r : RegionId} {e : Fault} (hs : I s)
    (h : visitRegion rules target depth s r = .error e) :
    ∃ t op b, I t ∧ t.graph.blockOf? op = some b ∧ visitOp rules target t op = .error e := by
  induction depth generalizing s r with
  | zero => cases h
  | succ depth ih =>
    have inner : ∀ s s' r, I s → visitRegion rules target depth s r = .ok s' → I s' :=
      fun _ _ _ hs h => visitRegion_invariant hvisit hs h
    have hturn : ∀ b op s s', I s → turn rules target depth b s op = .ok s' → I s' :=
      fun _ _ _ _ hs h => turn_invariant hvisit inner hs h
    rw [visitRegion_succ] at h
    -- The failure is in one block, in there at one operation, and that failed inside or in its own
    -- visit.
    obtain ⟨b, s₁, hs₁, h⟩ := foldlM_fails I (fun b s s' hs h =>
      foldlM_invariant (fun _ => I) (fun op _ s s' hs h => hturn b op s s' hs h) hs h) hs h
    obtain ⟨op, s₂, hs₂, h⟩ := foldlM_fails I (hturn b) hs₁ h
    unfold turn at h
    split at h
    · cases h
    · rcases bind_eq_error.mp h with h | ⟨t, ht, h⟩
      · obtain ⟨r', s₃, hs₃, h⟩ := foldlM_fails I (fun r s s' hs h => inner s s' r hs h) hs₂ h
        exact ih hs₃ h
      · have ht := foldlM_invariant (fun _ => I) (fun r _ s s' hs h => inner s s' r hs h) hs₂ ht
        split at h
        · cases h
        · next hop => exact ⟨t, op, b, ht, not_not.mp hop, h⟩

theorem rounds_fails {left done : Nat} {s : Application} {e : Fault} (hs : I s)
    (h : rounds rules target root left done s = .error e) :
    ∃ t op b, I t ∧ t.graph.blockOf? op = some b ∧ visitOp rules target t op = .error e := by
  induction left generalizing done s with
  | zero => cases h
  | succ left ih =>
    rcases bind_eq_error.mp h with h | ⟨t, ht, h⟩
    · obtain ⟨r, s₁, hs₁, h⟩ :=
        foldlM_fails I (fun _ _ _ hs h => visitRegion_invariant hvisit hs h) hs h
      exact visitRegion_fails hvisit hs₁ h
    · have ht := foldlM_invariant (fun _ => I)
        (fun _ _ _ _ hs h => visitRegion_invariant hvisit hs h) hs ht
      split at h
      · cases h
      · exact ih ht h

end

end Application

/-- An application that comes back keeps what every visit that comes back keeps. -/
theorem RuleSet.apply_invariant {rules : RuleSet} {target : ConversionTarget} {root : OpId}
    {I : Application → Prop}
    (hvisit : ∀ s op b s', I s → s.graph.blockOf? op = some b →
      Application.visitOp rules target s op = .ok s' → I s')
    {g g' : Graph} {budget : Nat} {sizes sizes' : AccessSizes} {result : ApplyResult}
    (hs : I ⟨g, sizes, [], 0⟩) (h : rules.apply g root target budget sizes =
      .ok (g', sizes', result)) :
    I ⟨g', sizes', result.rejected, result.changes⟩ := by
  obtain ⟨x, hx, h⟩ := bind_eq_ok.mp h
  have hI := Application.rounds_invariant hvisit hs hx
  cases h
  exact hI

/-- If an application fails, then a visit on the way does. -/
theorem RuleSet.apply_fails {rules : RuleSet} {target : ConversionTarget} {root : OpId}
    {I : Application → Prop}
    (hvisit : ∀ s op b s', I s → s.graph.blockOf? op = some b →
      Application.visitOp rules target s op = .ok s' → I s')
    {g : Graph} {budget : Nat} {sizes : AccessSizes} {e : Fault} (hs : I ⟨g, sizes, [], 0⟩)
    (h : rules.apply g root target budget sizes = .error e) :
    ∃ t op b, I t ∧ t.graph.blockOf? op = some b ∧
      Application.visitOp rules target t op = .error e := by
  rcases bind_eq_error.mp h with h | ⟨x, -, h⟩
  · exact Application.rounds_fails hvisit hs h
  · cases h

/-- An application of rules keeps what every visit keeps, and fails only as a visit does. -/
theorem RuleSet.apply_keeps {rules : RuleSet} {target : ConversionTarget} {root : OpId}
    {I : Application → Prop} {F : Fault → Prop} (hnest : ∀ s, I s → NestingAgrees s.graph)
    (hvisit : ∀ s op, I s → s.graph.Inside root op →
      YieldsUnless F (Application.visitOp rules target s op) (Application.Keeps root I s))
    {g : Graph} {budget : Nat} {sizes : AccessSizes} (hs : I ⟨g, sizes, [], 0⟩) :
    YieldsUnless F (rules.apply g root target budget sizes) fun x =>
      I ⟨x.1, x.2.1, x.2.2.rejected, x.2.2.changes⟩ ∧ SameFrame root g x.1 :=
  (Application.rounds_keeps hnest hvisit hs).bind fun _ hx => .pure hx

end SimdLowering
