/-
The rules for products are lawful.
-/
import SimdLowering.Proofs.Rules.AddSub
import SimdLowering.Rules.Multiply

set_option autoImplicit false

namespace SimdLowering

namespace Rules

open SimdLowering.Graph

variable {g : Graph} {gone : List OpId} {root op : OpId} {lhs rhs old v w : ValueId}
  {ty srcTy t : Ty} {shape : VectorShape} {R : Site} {Γ : List Ty} {a b : Source}
  {bits : Nat} {shift : Int}

theorem plainProduct_makes (ha : Readable R Γ a) (hb : Readable R Γ b) :
    (plainProduct a b srcTy).Makes (Builds R) Γ (Gives R (accumulatorOf srcTy)) :=
  Makes.emit_gives (stepOk_mulElem ha hb)

theorem paddedProduct_makes (ha : Readable R Γ a) (hb : Readable R Γ b) :
    (paddedProduct a b srcTy bits).Makes (Builds R) Γ (Gives R (accumulatorOf srcTy)) := by
  refine Makes.step stepOk_constantZero ?_
  refine Makes.step (stepOk_broadcastScalar .last) ?_
  refine Makes.step (stepOk_ext .last 0) ?_
  refine Makes.step (stepOk_concat ha.snoc.snoc.snoc .last) ?_
  refine Makes.step (stepOk_concat hb.snoc.snoc.snoc.snoc Readable.last.snoc) ?_
  exact Makes.emit_gives (stepOk_mulElem Readable.last.snoc .last)

theorem shiftedDown_makes {p : Plan (Operand Source)} (hp : p.Makes (Builds R) Γ (Gives R t)) :
    (shiftedDown ty shift p).Makes (Builds R) Γ (EndsAs R ty) :=
  Makes.gives_bind hp fun _ _ _ ho _ => Makes.final (stepOk_srs ho shift) rfl nofun

theorem movedBack_makes {p : Plan (Operand Source)} (hp : p.Makes (Builds R) Γ (Gives R t)) :
    (movedBack ty p).Makes (Builds R) Γ (EndsAs R ty) :=
  Makes.gives_bind hp fun _ _ _ ho _ => Makes.final (stepOk_cast ho false) rfl nofun

section Looks

variable (h : Scene g gone root) (hin : g.Inside root op)
include h hin

/-- What two extended values are extended from, with the width both have. -/
theorem extendedPair?_spec {k : OpKind} (hl : g.AtHand root op lhs) (hr : g.AtHand root op rhs)
    (hk : 1 ≤ k.arity) (hthrough : k.isTransparent = true) :
    Yields (extendedPair? g lhs rhs k) fun x => ∀ l r n, x = some (l, r, n) →
      g.AtHand root op l ∧ g.AtHand root op r := by
  have no : Yields (pure none : Except Fault (Option (ValueId × ValueId × Nat)))
      fun x => ∀ l r n, x = some (l, r, n) → g.AtHand root op l ∧ g.AtHand root op r :=
    .pure fun _ _ _ e => by cases e
  unfold extendedPair?
  -- Both operands have to be extended, and from lanes of one width.
  refine (h.extensionSource? hin hl k hk hthrough).bind fun x hx => ?_
  cases x with
  | none => exact no
  | some l =>
    obtain ⟨-, -, -, hvl⟩ := hx l rfl
    refine (h.extensionSource? hin hr k hk hthrough).bind fun y hy => ?_
    cases y with
    | none => exact no
    | some r =>
      obtain ⟨-, -, -, hvr⟩ := hy r rfl
      dsimp only
      rw [h.valueShape?_eq hvl, h.valueShape?_eq hvr]
      refine Yields.bind (P := fun _ => True) (.ok trivial) fun s _ => ?_
      cases s with
      | none => exact no
      | some ls =>
        refine Yields.bind (P := fun _ => True) (.ok trivial) fun s' _ => .pure ?_
        intro l' r' n e
        obtain ⟨rs, -, e⟩ := Option.bind_eq_some_iff.mp e
        split at e
        · cases e
          exact ⟨hvl, hvr⟩
        · cases e

theorem intProductPlan_spec (hl : g.AtHand root op lhs) (hr : g.AtHand root op rhs) :
    Yields (intProductPlan g shape lhs rhs ty shift) fun p =>
      p.Makes (Builds (g.site root op)) [] (EndsAs (g.site root op) ty) := by
  have full : (shiftedDown ty shift (plainProduct (.value lhs) (.value rhs) ty)).Makes
      (Builds (g.site root op)) [] (EndsAs (g.site root op) ty) :=
    shiftedDown_makes (plainProduct_makes (.value hl) (.value hr))
  unfold intProductPlan
  dsimp only
  split
  · refine (extendedPair?_spec h hin hl hr (k := .extsi) (Nat.le_refl 1) rfl).bind fun x hx => ?_
    split
    · next l r =>
      obtain ⟨hvl, hvr⟩ := hx l r 8 rfl
      rw [h.valueTy_eq hvl]
      exact .pure (movedBack_makes (paddedProduct_makes (.value hvl) (.value hvr)))
    · next l r =>
      obtain ⟨hvl, hvr⟩ := hx l r 16 rfl
      rw [h.valueTy_eq hvl]
      exact .pure (movedBack_makes (plainProduct_makes (.value hvl) (.value hvr)))
    · exact .pure full
  · split
    · exact .pure (shiftedDown_makes (paddedProduct_makes (.value hl) (.value hr)))
    · exact .pure full

end Looks

theorem mulIToMulElem_lawful (target : ConversionTarget) (shift : Int) :
    (mulIToMulElem shift).Lawful target := by
  refine .ofDecision (by decide) fun g gone root op h hin hk _ => ?_
  have hkind : g.kind op = .muli := List.mem_singleton.mp hk
  obtain ⟨old, hold⟩ := h.single_of_kind hin (by rw [hkind]; decide) (by rw [hkind]; decide)
  have hlen : 2 ≤ (g.operands op).length := by
    have := (h.shaped op hin).arity
    rwa [hkind] at this
  split
  · exact .ok trivial
  split
  · exact .ok trivial
  refine (h.binaryOperands hin hlen).bind fun ⟨lhs, rhs⟩ ⟨_, _, hvl, hvr⟩ => ?_
  dsimp only
  rw [firstResultType_eq hold]
  exact (intProductPlan_spec h hin hvl hvr).bind fun p hp => .pure (.of_makes hold hp)

theorem mulFToMulElem_lawful (target : ConversionTarget) (shift : Int) :
    (mulFToMulElem shift).Lawful target := by
  refine .ofDecision (by decide) fun g gone root op h hin hk _ => ?_
  have hkind : g.kind op = .mulf := List.mem_singleton.mp hk
  obtain ⟨old, hold⟩ := h.single_of_kind hin (by rw [hkind]; decide) (by rw [hkind]; decide)
  have hlen : 2 ≤ (g.operands op).length := by
    have := (h.shaped op hin).arity
    rwa [hkind] at this
  split
  · exact .ok trivial
  split
  · exact .ok trivial
  refine (h.binaryOperands hin hlen).bind fun ⟨lhs, rhs⟩ ⟨_, _, hvl, hvr⟩ => ?_
  dsimp only
  rw [firstResultType_eq hold]
  refine Yields.bind (.ok rfl) fun ty hty => ?_
  subst hty
  -- Floats of full width multiply as they are; extended ones multiply in their own width.
  split
  · exact .pure (.of_makes hold
      (shiftedDown_makes (paddedProduct_makes (.value hvl) (.value hvr))))
  · refine (extendedPair?_spec h hin hvl hvr (k := .extf) (Nat.le_refl 1) rfl).bind fun x hx => ?_
    split
    · next l r =>
      obtain ⟨hl, hr⟩ := hx l r 16 rfl
      rw [h.valueTy_eq hl]
      exact .pure (.of_makes hold (movedBack_makes (paddedProduct_makes (.value hl) (.value hr))))
    · exact .pure trivial

end Rules

end SimdLowering
