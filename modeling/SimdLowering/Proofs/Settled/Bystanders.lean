/-
What stands around reads and loads that are rewritten.

A read is plain if the rule for reads rewrites it. Until its turn comes it stays so, since a splice
elsewhere renames operands at most.

Whatever is no load and may stay goes on so when a read or a load is rewritten. Its kind, its
attributes and its lanes are what they were; behind an operand targets look for products,
extensions, lanes, splats and concatenations, and neither reads and loads nor what takes their
place are among these; and a product that is left for the sum that alone reads it keeps that
reader, as the sum is not what goes.
-/
import SimdLowering.Proofs.Fixpoint.Products
import SimdLowering.Proofs.Rules.Written
import SimdLowering.Proofs.Settled.Reads
import SimdLowering.Proofs.Target.Unserved

set_option autoImplicit false

namespace SimdLowering

open SimdLowering.Graph SimdLowering.Application SimdLowering.Rules

variable {o : LowerOptions} {gen : Generation} {g g' : Graph} {gone : List OpId}
  {func op x d : OpId} {c c' : AccessSizes} {s s' : Application} {b : BlockId} {v old : ValueId}
  {r : Recipe} {k : OpKind} {size : Nat}

/-! ## Plain reads -/

/-- The operation is a read of a vector by one index or more, without a mask, along the last
dimensions. -/
structure Graph.PlainRead (g : Graph) (x : OpId) : Prop where
  kind : g.kind x = .transferRead
  access : ∃ access, g.memAccess? x = .ok (some access) ∧ access.trailing = none ∧
    access.indices ≠ []
  map : ∃ map, (g.attrs x).accessMap? = some map ∧ map.isMinorIdentity = true ∧
    map.isConstant = false
  lanes : ∃ shape, g.resultShape? x = some shape

namespace Graph.PlainRead

/-- The rule for reads rewrites a plain read, whenever it comes back. -/
theorem matched (h : g.PlainRead x) {outcome : Outcome}
    (hrun : transferReadToUpd.run g x c = .ok (g', c', outcome)) : outcome.isMatch = true := by
  obtain ⟨access, haccess, hmask, hindices⟩ := h.access
  obtain ⟨map, hmap, hminor, hconstant⟩ := h.map
  obtain ⟨shape, hshape⟩ := h.lanes
  obtain ⟨-, decision, hlook, hperform⟩ := Rule.run_ofDecision_eq_ok.mp hrun
  obtain ⟨innermost, hlast⟩ := Option.ne_none_iff_exists'.mp
    (mt List.getLast?_eq_none_iff.mp hindices)
  rw [haccess] at hlook
  simp only [bind, Except.bind, hmask, hmap, hminor, hconstant, hshape, hlast] at hlook
  obtain ⟨ty, -, hlook⟩ := bind_eq_ok.mp hlook
  rw [show outcome = (decision.perform g).2 from (congrArg Prod.snd hperform).symm,
    Decision.isMatch_perform]
  exact readPlan_isRewrite hlook

/-- A splice elsewhere leaves a plain read plain. -/
theorem spliced (hplain : g.PlainRead x) (hs : Spliced g g' gone op b old r)
    (h : Scene g gone func) (hr : r.Lawful g func op) (hx : g.Inside func x) : g'.PlainRead x := by
  have hop := hx.hasOp h.consistent.toNestingAgrees
  obtain ⟨access, haccess, hmask, hindices⟩ := hplain.access
  refine ⟨by rw [hs.kind_of_hasOp hop, hplain.kind],
    ⟨access.map (renamed old (g.standIn r)), ?_, ?_, ?_⟩, ?_, ?_⟩
  · rw [hs.memAccess?_eq h hr hx, haccess]
    rfl
  · rw [MemAccess.map, hmask]
    rfl
  · simpa [MemAccess.map] using hindices
  · rw [hs.attrs_of_hasOp hop]
    exact hplain.map
  · rw [hs.resultShape?_of_hasOp hop]
    exact hplain.lanes

end Graph.PlainRead

/-! ## Tests that look behind operands -/

/-- What reads and loads are rewritten to is made of these. -/
def accessKinds : List OpKind := [.constant, .upd, .shift]

/-- What takes the place of a read or a load consists of loads, and of constants and windows. -/
theorem Application.Rewrites.writes_access {Q : AccessSizes → AccessSizes → Prop}
    {c₀ : AccessSizes}
    (hrw : Rewrites o.ruleSet o.target.conversionTarget Q func gone c₀ s op s' b old r)
    (hk : s.graph.kind op = .transferRead ∨ s.graph.kind op = .upd) :
    ∀ e ∈ r.all, e.kind ∈ accessKinds := by
  obtain ⟨entry, hentry, hroot, c, c', -, hrun, -⟩ := hrw.rule
  intro e he
  rcases hk with hk | hk
  · rw [rule_of_transferRead hentry (hk ▸ hroot)] at hrun
    exact List.contains_iff_mem.mp (transferReadToUpd_writes _ _ _ _ _ hrun e he)
  · rw [rule_of_upd hentry (hk ▸ hroot)] at hrun
    have hload := List.contains_iff_mem.mp (splitUpd_writes _ _ _ _ _ _ hrun e he)
    rw [List.mem_singleton.mp hload]
    decide

namespace Graph.Spliced

variable (hs : Spliced g g' gone op b old r) (h : Scene g gone func) (hr : r.Lawful g func op)
  (hx : g.Inside func x)
include hs h hx

theorem operandAt_together (i : Nat) :
    Together (fun v v' => v ∈ g.operands x ∧ v' = renamed old (g.standIn r) v)
      (g.operandAt x i) (g'.operandAt x i) := by
  intro v v' hv hv'
  rw [operandAt_eq_ok] at hv hv'
  rw [hs.operands_of_inside h hx, List.getElem?_map, hv] at hv'
  exact ⟨List.mem_of_getElem? hv, (Option.some.inj hv').symm⟩

variable (hk : g.kind op = .transferRead ∨ g.kind op = .upd)
  (hmade : ∀ e ∈ r.all, e.kind ∈ accessKinds)
include hk hmade

/-- Of kinds that neither go nor come, the same is found behind an operand, and it is under the
function. -/
theorem definer_together (hv : v ∈ g.operands x) (hkind : k ∉ .transferRead :: accessKinds) :
    Together (fun a a' => a = a' ∧ ∀ d, a = some d → g.Inside func d) (g.definedBy? v k)
      (g'.definedBy? (renamed old (g.standIn r) v) k) := by
  have hgoes : g.kind op ≠ k := by
    rintro rfl
    rcases hk with e | e <;> exact hkind (by rw [e]; decide)
  have hfinal : g'.kind ⟨g.ops.size + r.steps.length⟩ ≠ k := by
    rw [hs.kind_made r.getElem?_all_final]
    rintro rfl
    exact hkind (List.mem_cons_of_mem _ (hmade _ (List.mem_of_getElem? r.getElem?_all_final)))
  intro a a' ha ha'
  refine ⟨hs.definedBy?_together h hx hv (fun _ => hgoes) hfinal a a' ha ha', ?_⟩
  rintro d rfl
  have hmem := ((definedBy?_eq_some hs.before).mp ha).1
  exact ((h.ordered.visible x hx v hv).through h.consistent h.ordered.visible hx hmem).1

/-- Whether a splat can be folded into a multiply-add does not change. -/
theorem noPendingSplat_together :
    Together (· = ·) (FinalForm.noPendingSplat g x) (FinalForm.noPendingSplat g' x) := by
  have operand : ∀ {d}, g.Inside func d → ∀ i, Together
      (fun v v' => v ∈ g.operands d ∧ v' = renamed old (g.standIn r) v)
      (g.operandAt d i) (g'.operandAt d i) := fun hd i => hs.operandAt_together h hd i
  -- The splat is looked for behind one operand and then behind the other, on both sides at once.
  have pending : Together (fun a a' => a = a' ∧ ∀ d, a = some d → g.Inside func d)
      (FinalForm.pendingSplat? g x) (FinalForm.pendingSplat? g' x) := by
    refine (operand hx 0).bind fun v v' ⟨hv, hv'⟩ => ?_
    subst hv'
    refine (hs.definer_together h hx hk hmade hv (by decide)).bind fun a a' ⟨ha, hin⟩ => ?_
    subst ha
    cases a with
    | none => exact .pure ⟨rfl, nofun⟩
    | some concat =>
      refine (operand (hin concat rfl) 0).bind fun w w' ⟨hw, hw'⟩ => ?_
      subst hw'
      refine (hs.definer_together h (hin concat rfl) hk hmade hw (by decide)).bind
        fun a a' ⟨ha, hin⟩ => ?_
      subst ha
      cases a with
      | some splat => exact .pure ⟨rfl, hin⟩
      | none =>
        refine (operand hx 1).bind fun w w' ⟨hw, hw'⟩ => ?_
        subst hw'
        exact hs.definer_together h hx hk hmade hw (by decide)
  refine pending.bind fun a a' ⟨ha, hin⟩ => ?_
  subst ha
  cases a with
  | none => exact .pure rfl
  | some splat =>
    refine (operand (hin splat rfl) 0).bind fun w w' ⟨hw, hw'⟩ => ?_
    subst hw'
    exact (hs.definer_together h (hin splat rfl) hk hmade hw (by decide)).bind
      fun _ _ ⟨ha, _⟩ => .pure (congrArg _ ha)

include hr
omit hmade

/-- A read or a load that goes changes nothing about what an operation looks like to targets. -/
theorem sameView_of_access (hin : g.Inside func op) (hne : x ≠ op) : SameView g g' x := by
  have hkept : ∀ k, k.isTransparent = false → g.kind op ≠ k → g.kind x = .muli ∨ g.kind x = .mulf →
      g.hasSingleUseBy x k = true → g'.hasSingleUseBy x k = true := by
    intro k hopaque hother hproduct hsingle
    obtain ⟨v, hres⟩ := h.single_of_kind hx (by rcases hproduct with e | e <;> rw [e] <;> decide)
      (by rcases hproduct with e | e <;> rw [e] <;> decide)
    exact (hs.hasSingleUseBy h hin hr hx hres hne hopaque hsingle).resolve_right fun hgoes =>
      hother hgoes.1
  refine hs.sameView h hr hx (fun _ => ?_) (fun e => ?_) fun e => ?_
  · rcases hk with e | e <;> rw [e] <;> decide
  · exact hkept .addi rfl (by rcases hk with e | e <;> rw [e] <;> decide) (Or.inl e)
  · exact hkept .addf rfl (by rcases hk with e | e <;> rw [e] <;> decide) (Or.inr e)

end Graph.Spliced

/-! ## Verdicts -/

/-- The operation is not called illegal, whatever sizes are remembered. -/
def Graph.Permitted (g : Graph) (gen : Generation) (x : OpId) : Prop :=
  ∀ c c', gen.conversionTarget.legality g x c ≠ .ok (.illegal, c')

/-- There was a verdict on what is called illegal when it looks the same. A number can only have
been too large where the bits of a register are counted, and what fills one is small. -/
theorem exists_legality_of_illegal (h : Scene g gone func) (hx : g.Inside func x)
    (hread : g.kind x ≠ .transferRead) (hload : g.kind x ≠ .upd) (view : g.SameView g' x)
    (hillegal : gen.conversionTarget.legality g' x c = .ok (.illegal, c')) (d : AccessSizes) :
    ∃ verdict, gen.conversionTarget.legality g x d = .ok verdict := by
  rcases gen.conversionTarget_total g gone func x d h hx with
    ⟨verdict, hverdict, -⟩ | ⟨e, ⟨-, hmay⟩, hfault⟩
  · exact ⟨verdict, hverdict⟩
  exfalso
  -- The first generation checks no kind whose registers are counted.
  have second : ∀ ks : List OpKind, g.kind x ∈ ks → (∀ k ∈ ks, k ∉ Generation.aie.checkedKinds) →
      gen = .aieml := by
    intro ks hk hnone
    cases gen with
    | aie =>
      have hchecked := Generation.kind_of_illegal hillegal (view.kind ▸ hread)
      exact absurd (view.kind ▸ hchecked) (hnone _ hk)
    | aieml => rfl
  cases hmay with
  | access hk => exact hk.elim hread hload
  | doubled hk =>
    cases gen with
    | aie =>
      rw [Generation.aie_legality_sum (by rw [hk]; decide)] at hfault
      cases hfault
    | aieml =>
      rw [Generation.legality_sum (by rw [hk]; decide)] at hfault
      cases hfault
  | @result shape hk hshape hlong =>
    obtain rfl := second _ hk (by decide)
    have hcheck : Generation.aieml.conversionTarget.checks (g'.kind x) =
        some (.ofTest FinalForm.resultNoRegister) := by
      simp only [List.mem_cons, List.not_mem_nil, or_false] at hk
      rcases hk with hk | hk | hk | hk | hk <;> rw [view.kind, hk] <;> rfl
    obtain ⟨_, hshape', hfull⟩ :=
      resultNoRegister_eq_false.mp (ConversionTarget.test_of_illegal hcheck hillegal)
    obtain rfl := Option.some.inj (hshape.symm.trans (view.shape ▸ hshape'))
    exact absurd hlong (Nat.not_le.mpr (shape.bits_lt_of_isFullRegister hfull))
  | @operand ty shape hk hty hshape hlong =>
    obtain rfl := second _ hk (by decide)
    have hcheck : Generation.aieml.conversionTarget.checks (g'.kind x) =
        some (.ofTest FinalForm.operandNoRegister) := by
      simp only [List.mem_cons, List.not_mem_nil, or_false] at hk
      rcases hk with hk | hk <;> rw [view.kind, hk] <;> rfl
    obtain ⟨_, hshape', hfull⟩ :=
      operandNoRegister_eq_false.mp (ConversionTarget.test_of_illegal hcheck hillegal)
    have hsame := view.operandShape? 0 _ _ (h.operandShape? hx 0) hshape'
    rw [typesOf, List.getElem?_map] at hty
    obtain ⟨v, hv, rfl⟩ := Option.map_eq_some_iff.mp hty
    rw [hv, Option.bind_some, hshape] at hsame
    obtain rfl := Option.some.inj hsame
    exact absurd hlong (Nat.not_le.mpr (shape.bits_lt_of_isFullRegister hfull))

/-- What is no load and may stay may stay when a read or a load is rewritten. -/
theorem Graph.Permitted.spliced (hp : g.Permitted gen x) (hload : g.kind x ≠ .upd)
    (hs : Spliced g g' gone op b old r) (h : Scene g gone func) (hin : g.Inside func op)
    (hr : r.Lawful g func op) (hx : g.Inside func x) (hne : x ≠ op)
    (hk : g.kind op = .transferRead ∨ g.kind op = .upd)
    (hmade : ∀ e ∈ r.all, e.kind ∈ accessKinds) : g'.Permitted gen x := by
  intro c c' hillegal
  -- To this operation both graphs look alike.
  have view := hs.sameView_of_access h hr hx hk hin hne
  cases hcheck : gen.conversionTarget.checks (g.kind x) with
  | none =>
    rw [ConversionTarget.legality_of_kind (view.kind ▸ hcheck), view.kind] at hillegal
    exact hp c c' ((ConversionTarget.legality_of_kind hcheck).trans hillegal)
  | some check =>
    -- What its check allowed it allows still.
    have outlasts : Together (fun a a' => a.1 = true → a'.1 = true) (check g x c)
        (check g' x c) := by
      have hsaid := ConversionTarget.mem_of_checks hcheck
      cases gen with
      | aieml => exact FinalForm.settings_steady _ hsaid hload g g' x c c view rfl
      | aie =>
        simp only [Generation.settings, FinalForm.commonSettings, FinalForm.aieSettings,
          List.mem_append, List.mem_cons, List.not_mem_nil, or_false, reduceCtorEq, false_or,
          TargetSetting.check.injEq] at hsaid
        rcases hsaid with (⟨-, rfl⟩ | ⟨-, rfl⟩ | ⟨-, rfl⟩ | ⟨-, rfl⟩) | ⟨e, -⟩ | ⟨-, rfl⟩
        · exact FinalForm.scalarResult_steady hload g g' x c c view rfl
        · exact FinalForm.scalarResult_steady hload g g' x c c view rfl
        · exact FinalForm.scalarResult_steady hload g g' x c c view rfl
        · exact FinalForm.scalarResult_steady hload g g' x c c view rfl
        · exact absurd e hload
        · exact (hs.noPendingSplat_together h hx hk hmade).bind fun a a' ha => .pure (ha ▸ id)
    have hread : g.kind x ≠ .transferRead := fun e =>
      hp c c (Generation.legality_transferRead e c)
    -- If it may not stay now, it might not before, which was excluded.
    obtain ⟨⟨verdict, c₁⟩, hlegal⟩ := exists_legality_of_illegal h hx hread hload view hillegal c
    obtain ⟨ok, hrun, hverdict⟩ := (ConversionTarget.legality_eq_ok_of_check hcheck).mp hlegal
    obtain ⟨ok', hrun', hverdict'⟩ :=
      (ConversionTarget.legality_eq_ok_of_check (view.kind ▸ hcheck)).mp hillegal
    cases ok with
    | false =>
      cases hverdict
      exact hp c c₁ hlegal
    | true =>
      rw [if_pos (outlasts _ _ hrun hrun' rfl)] at hverdict'
      cases hverdict'

end SimdLowering
