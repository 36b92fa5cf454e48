/-
The rules for minima, maxima, comparisons and selects are lawful.

Each of them builds one or two steps from the operands alone. The one look that could go
astray is that of a select: it takes the type of its first branch from what the value will
be once a step has been created, and in a scene the value is there already.
-/
import SimdLowering.Proofs.Rules.AddSub
import SimdLowering.Rules.Extremum

set_option autoImplicit false

namespace SimdLowering

namespace Rules

open SimdLowering.Graph

variable {g : Graph} {gone : List OpId} {root op : OpId} {v old : ValueId} {ty maskTy : Ty}
  {R : Site} {Γ : List Ty} {a b : Source} {o : Operand Source}

theorem minMaxToElem_lawful (target : ConversionTarget) {kind : OpKind}
    (hextremum : kind ∈ [OpKind.minsi, .maxsi, .minf, .maxf]) :
    (minMaxToElem kind).Lawful target := by
  refine .ofChecked (not_mem_lanewiseRoots kind) fun g gone root op h hin hk _ => ?_
  obtain ⟨hkind, harity, hf, hret, hty⟩ := mem_lanewiseRoots hk
  obtain ⟨old, hold⟩ := h.single_of_kind hin (hkind ▸ hf) (hkind ▸ hret)
  split
  · exact .ok trivial
  next shape hshape =>
  refine (fillsRegister_yields fun hlong => .result ?_ hshape hlong).bind fun full hfull => ?_
  · rw [hkind]
    exact List.mem_append_left [OpKind.select] hextremum
  split
  · exact .pure trivial
  refine Yields.unless ?_
  -- The rule matches from here on, and its plan is one lanewise operation.
  have hlen := (h.shaped op hin).arity
  rw [hkind, harity] at hlen
  refine (h.binaryOperands hin hlen).bind fun ⟨lhs, rhs⟩ ⟨hl, hr, hvl, hvr⟩ => ?_
  have hlty := h.ty_of_slot hin hold (hkind ▸ hty) hl
  dsimp only
  rw [h.source_eq hvl]
  refine .pure (.of_makes hold ?_)
  split
  · exact Makes.final (stepOk_lanewise (k := .min) rfl (Nat.zero_le _) nofun (.value hvl)
      (.value hvr) nofun) hlty nofun
  · exact Makes.final (stepOk_lanewise (k := .max) rfl (Nat.zero_le _) nofun (.value hvl)
      (.value hvr) nofun) hlty nofun

theorem comparePlan_makes (ha : Readable R Γ a) (hb : Readable R Γ b) (p : IntPredicate) :
    (comparePlan ty maskTy a b p).Makes (Builds R) Γ (EndsAs R ty) :=
  Makes.step (stepOk_cmp ha hb p.mnemonic) (Makes.final (stepOk_unrealizedCast .last) rfl nofun)

theorem cmpToMask_lawful (target : ConversionTarget) (kind : OpKind) :
    (cmpToMask kind).Lawful target := by
  refine .ofChecked (by split <;> decide) fun g gone root op h hin hk _ => ?_
  have hkind : g.kind op = .cmpf ∨ g.kind op = .cmpi := by
    rw [List.mem_singleton] at hk
    split at hk
    · exact Or.inl hk
    · exact Or.inr hk
  have hf : g.kind op ≠ .func := by rcases hkind with hk | hk <;> rw [hk] <;> decide
  have hret : g.kind op ≠ .ret := by rcases hkind with hk | hk <;> rw [hk] <;> decide
  have hlen : 2 ≤ (g.operands op).length := by
    have := (h.shaped op hin).arity
    rcases hkind with hk | hk <;> rw [hk] at this <;> exact this
  obtain ⟨old, hold⟩ := h.single_of_kind hin hf hret
  rw [h.operandShape? hin 0]
  refine YieldsUnless.bind (P := (· = _)) (.ok rfl) fun shape? hshape? => ?_
  cases shape? with
  | none => exact .pure trivial
  | some shape =>
    dsimp only
    -- A comparison of vectors has lanes on its left, so their bits are bounded there.
    refine (fillsRegister_yields fun hlong => .of_operandShape ?_ hshape?.symm hlong).bind
      fun full hfull => ?_
    · rcases hkind with hk | hk <;> rw [hk] <;> decide
    split
    · exact .pure trivial
    refine Yields.unless ?_
    cases choosePredicate (kind == .cmpf) (g.attrs op) with
    | absent => exact .pure trivial
    | without p => exact .pure trivial
    | use p =>
      refine (h.binaryOperands hin hlen).bind fun ⟨lhs, rhs⟩ ⟨hl, hr, hvl, hvr⟩ => ?_
      dsimp only
      rw [firstResultType_eq hold]
      exact .pure (.of_makes hold (comparePlan_makes (.value hvl) (.value hvr) p))

theorem selectPlan_makes (ha : Readable R Γ a) (ho : Readable R Γ o.ref) (hb : Readable R Γ b)
    (hty : o.ty = ty) : (selectPlan maskTy a o b).Makes (Builds R) Γ (EndsAs R ty) :=
  Makes.step (stepOk_unrealizedCast ha) (Makes.final (stepOk_sel ho.snoc hb.snoc .last) hty nofun)

theorem sourceAfter_eq (h : Scene g gone root) (hv : g.AtHand root op v) (steps : List Ty) :
    g.sourceAfter steps v = .ok ⟨.value v, (g.value v).ty⟩ := by
  rw [sourceAfter, if_pos (show v.index < g.values.size from hv.visible.hasValue h.consistent)]
  exact h.source_eq hv

theorem selectToSel_lawful (target : ConversionTarget) : selectToSel.Lawful target := by
  refine .ofChecked (by decide) fun g gone root op h hin hk _ => ?_
  have hkind : g.kind op = .select := List.mem_singleton.mp hk
  obtain ⟨old, hold⟩ := h.single_of_kind hin (by rw [hkind]; decide) (by rw [hkind]; decide)
  have hlen : 3 ≤ (g.operands op).length := by
    have := (h.shaped op hin).arity
    rwa [hkind] at this
  split
  · exact .ok trivial
  next shape hshape =>
  refine (fillsRegister_yields fun hlong => .result (by rw [hkind]; decide) hshape hlong).bind
    fun full hfull => ?_
  split
  · exact .pure trivial
  refine Yields.unless ?_
  refine (h.operandAt hin (i := 0) (by omega)).bind fun c hc => ?_
  refine (h.operandAt hin (i := 1) (by omega)).bind fun t ht => ?_
  refine (h.operandAt hin (i := 2) (by omega)).bind fun e he => ?_
  have hty := h.ty_of_slot hin hold (by rw [hkind]; exact fun _ => rfl) ht.1
  dsimp only
  rw [sourceAfter_eq h ht.2]
  exact .pure (.of_makes hold (selectPlan_makes (.value hc.2) (.value ht.2) (.value he.2) hty))

end Rules

end SimdLowering
