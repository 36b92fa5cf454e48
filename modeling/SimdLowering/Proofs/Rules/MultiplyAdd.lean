/-
The rules for multiply-adds are lawful.

Folding a splat looks through three definitions, and the new multiply-add reads a value that
the old one only reached through them. Whatever a definition reads that can be read at the
operation can be read there too, so this is never too early.
-/
import SimdLowering.Proofs.Rules.Steps
import SimdLowering.Rules.MultiplyAdd

set_option autoImplicit false

namespace SimdLowering

namespace Rules

open SimdLowering.Graph

variable {g : Graph} {gone : List OpId} {root op : OpId} {lhs rhs old v w : ValueId}
  {ty doubledTy accTy concatTy : Ty} {shape : VectorShape} {R : Site} {Γ : List Ty}
  {a b c : Source} {o : Operand Source} {shift : Int}

theorem fmaElemPlan_makes (ha : Readable R Γ a) (hb : Readable R Γ b) (hc : Readable R Γ o.ref) :
    (fmaElemPlan ty a b o shift).Makes (Builds R) Γ (EndsAs R ty) := by
  refine Makes.step (stepOk_ups hc shift) ?_
  refine Makes.step (stepOk_fmaElem ha.snoc hb.snoc .last false) ?_
  exact Makes.final (stepOk_srs .last shift) rfl nofun

theorem fmaPlan_makes (hmac : R.macs) (ha : Readable R Γ a) (hb : Readable R Γ b)
    (hc : Readable R Γ c) :
    (fmaPlan ty doubledTy accTy a b c).Makes (Builds R) Γ (EndsAs R ty) := by
  refine Makes.step (stepOk_concat ha ha) ?_
  refine Makes.step (stepOk_ups hc.snoc 0) ?_
  refine Makes.step (stepOk_fma hmac Readable.last.snoc hb.snoc.snoc .last .standard false) ?_
  exact Makes.final (stepOk_srs .last 0) rfl nofun

theorem foldedFmaPlan_makes (hmac : R.macs) (ho : Readable R Γ o.ref) (hb : Readable R Γ b)
    (hc : Readable R Γ c) (x : Shuffle) (fmsub : Bool) :
    (foldedFmaPlan ty concatTy o b c x fmsub).Makes (Builds R) Γ (EndsAs R ty) := by
  refine Makes.step stepOk_constantZero ?_
  refine Makes.step (stepOk_concat ho.snoc .last) ?_
  exact Makes.final (stepOk_fma hmac .last hb.snoc.snoc hc.snoc.snoc x fmsub) rfl nofun

theorem mulAddToFmaElem_lawful (target : ConversionTarget) (shift : Int) :
    (mulAddToFmaElem shift).Lawful target := by
  refine .ofDecision (by decide) fun g gone root op h hin hk _ => ?_
  have hkind : g.kind op = .addi := List.mem_singleton.mp hk
  obtain ⟨old, hold⟩ := h.single_of_kind hin (by rw [hkind]; decide) (by rw [hkind]; decide)
  have hlen : 2 ≤ (g.operands op).length := by
    have := (h.shaped op hin).arity
    rwa [hkind] at this
  split
  · exact .ok trivial
  refine (h.binaryOperands hin hlen).bind fun ⟨lhs, rhs⟩ ⟨_, _, hvl, hvr⟩ => ?_
  refine (h.macOperands? hin hvl hvr).bind fun m hm => ?_
  cases m with
  | none => exact .pure trivial
  | some mac =>
    obtain ⟨hl, hr, hacc, -⟩ := hm mac rfl
    dsimp only
    split
    · rw [firstResultType_eq hold, h.source_eq hacc]
      exact .pure (.of_makes hold (fmaElemPlan_makes (.value hl) (.value hr) (.value hacc)))
    · exact .pure trivial

theorem mulAddToFma_lawful (target : ConversionTarget) : mulAddToFma.Lawful target := by
  refine .ofChecked (by decide) fun g gone root op h hin hk _ => ?_
  have hkind : g.kind op = .addi := List.mem_singleton.mp hk
  obtain ⟨old, hold⟩ := h.single_of_kind hin (by rw [hkind]; decide) (by rw [hkind]; decide)
  have hlen : 2 ≤ (g.operands op).length := by
    have := (h.shaped op hin).arity
    rwa [hkind] at this
  split
  · exact .ok trivial
  next shape hshape =>
  refine (h.binaryOperands hin hlen).unless.bind fun ⟨lhs, rhs⟩ ⟨_, _, hvl, hvr⟩ => ?_
  refine (h.macOperands? hin hvl hvr).unless.bind fun m hm => ?_
  cases m with
  | none => exact .pure trivial
  | some mac =>
    obtain ⟨hl, hr, hacc, -, hmul⟩ := hm mac rfl
    dsimp only
    rw [h.valueTy_eq hacc]
    refine YieldsUnless.bind (P := fun _ => True) (.ok trivial) fun accTy? _ => ?_
    split
    · exact .pure trivial
    · rw [firstResultType_eq hold]
      refine YieldsUnless.bind (P := (· = (g.value old).ty)) (.ok rfl) fun ty hty => ?_
      subst hty
      -- Doubling the lanes may overflow; then the sum is the operation to blame.
      refine (fitU32_yields fun hlong => .doubled hkind hshape hlong).bind fun lanes _ => ?_
      exact .pure (.of_makes hold (fmaPlan_makes (Or.inr hmul) (.value hl) (.value hr)
        (.value hacc)))

section Looks

variable (h : Scene g gone root) (hin : g.Inside root op)
include h hin

/-- The splat has an operand, and the factor can be read. -/
theorem splatAndFactor?_spec (hv : g.AtHand root op v) (hr : g.AtHand root op rhs) :
    Yields (splatAndFactor? g v rhs) fun x => ∀ splat factor, x = some (splat, factor) →
      (∃ w, g.Reaches root op w splat .broadcast) ∧ g.AtHand root op factor := by
  unfold splatAndFactor?
  refine (h.definedBy? hin hv .broadcast rfl).bind fun x hx => ?_
  cases x with
  | some splat =>
    refine .pure fun s f e => ?_
    cases e
    exact ⟨⟨v, hx splat rfl⟩, hr⟩
  | none =>
    refine ((h.definedBy? hin hr .broadcast rfl).bind fun y hy => .pure ?_)
    intro s f e
    cases y with
    | none => cases e
    | some splat =>
      cases e
      exact ⟨⟨rhs, hy _ rfl⟩, hv⟩

omit hin in
/-- The first operand of a definition whose kind has one. -/
theorem Reaches.first {d : OpId} {k : OpKind} (hd : g.Reaches root op v d k) (hk : 1 ≤ k.arity) :
    Yields (g.operandAt d 0) (g.AtHand root op) := by
  have hlen := (h.shaped d hd.inside).arity
  rw [hd.kind] at hlen
  exact (hd.operandAt (i := 0) (by omega)).mono fun _ hw => hw.2

end Looks

theorem foldBroadcastToFma_lawful (target : ConversionTarget) :
    foldBroadcastToFma.Lawful target := by
  refine .ofDecision (by decide) fun g gone root op h hin hk _ => ?_
  have hkind : g.kind op = .fma := List.mem_singleton.mp hk
  obtain ⟨old, hold⟩ := h.single_of_kind hin (by rw [hkind]; decide) (by rw [hkind]; decide)
  have hlen : 3 ≤ (g.operands op).length := by
    have := (h.shaped op hin).arity
    rwa [hkind] at this
  -- All three operands are there, and whatever is looked through can be reached.
  refine (h.operandAt hin (i := 0) (by omega)).bind fun lhs hl => ?_
  refine (h.operandAt hin (i := 1) (by omega)).bind fun rhs hr => ?_
  refine (h.operandAt hin (i := 2) (by omega)).bind fun acc hacc => ?_
  refine (h.definedBy? hin hl.2 .concat rfl).bind fun x hx => ?_
  cases x with
  | none => exact .pure trivial
  | some concat =>
    have hconcat := hx concat rfl
    refine (Reaches.first h hconcat (Nat.le_refl 1)).bind fun first hfirst => ?_
    refine (splatAndFactor?_spec h hin hfirst hr.2).bind fun y hy => ?_
    cases y with
    | none => exact .pure trivial
    | some sf =>
      obtain ⟨splat, factor⟩ := sf
      obtain ⟨⟨w, hsplat⟩, hfactor⟩ := hy splat factor rfl
      refine (Reaches.first h hsplat (Nat.le_refl 1)).bind fun lane hlane => ?_
      refine (h.definedBy? hin hlane .extract rfl).bind fun z hz => ?_
      cases z with
      | none => exact .pure trivial
      | some extract =>
        refine (Reaches.first h (hz extract rfl) (Nat.le_refl 1)).bind fun newRhs hnew => ?_
        dsimp only
        split
        · exact .pure trivial
        obtain ⟨cold, hcold⟩ := h.single_of_kind hconcat.inside
          (by rw [hconcat.kind]; decide) (by rw [hconcat.kind]; decide)
        rw [firstResultType_eq hcold, h.valueTy_eq hl.2]
        refine Yields.bind (P := fun _ => True) (.ok trivial) fun concatTy _ => ?_
        refine Yields.bind (P := fun _ => True) (.ok trivial) fun lhsTy _ => ?_
        split
        · exact .pure trivial
        -- It matches: the folded multiply-add reads the vector that the lane was extracted from.
        rw [firstResultType_eq hold, h.source_eq hfactor]
        exact .pure (.of_makes hold (foldedFmaPlan_makes (Or.inl hkind) (.value hfactor)
          (.value hnew) (.value hacc.2) _ _))

end Rules

end SimdLowering
