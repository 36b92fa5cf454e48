/-
Reads that no visit rewrites, and the loads that come of the others.

A read is idle if the rule for reads has nothing to do at it, for a reason that no rewrite
elsewhere changes. So a read that is visited is refused, becomes loads, or is idle and stays; and
since no read may stay, a lowering that leaves nothing behind has made loads of all reads in its
first round.

Such a load finds the indices it needs among its operands, so that it can be split; and while its
turn is still to come nobody that is visited sees its result, so its readers stay who they are.
-/
import SimdLowering.Proofs.Fixpoint.Splits

set_option autoImplicit false

namespace SimdLowering

open SimdLowering.Graph SimdLowering.Application SimdLowering.Rules

variable {o : LowerOptions} {g g₀ g' : Graph} {gone : List OpId} {func op q x d : OpId}
  {size : Nat} {c c' : AccessSizes} {s s' : Application} {b : BlockId} {v old : ValueId}
  {r : Recipe} {u : Use} {rest : List OpId}

namespace Graph

/-! ## Idle reads -/

/-- The rule for reads has nothing to do at the operation: indices are missing, or its map is
absent or of no use, or its result is no vector, or it has no indices. -/
inductive IdleRead (g : Graph) (x : OpId) : Prop
  | short : g.memAccess? x = .ok none → IdleRead g x
  | map : (∀ map, (g.attrs x).accessMap? = some map →
      map.isMinorIdentity = false ∨ map.isConstant = true) → IdleRead g x
  | scalar : g.resultShape? x = none → IdleRead g x
  | bare (access : MemAccess ValueId) : g.memAccess? x = .ok (some access) →
      access.indices = [] → IdleRead g x

theorem idleRead_of_declined
    (hrun : transferReadToUpd.run g x c = .ok (g', c', .declined)) : g.IdleRead x := by
  obtain ⟨-, decision, hlook, hperform⟩ := Rule.run_ofDecision_eq_ok.mp hrun
  obtain ⟨access?, haccess, hlook⟩ := bind_eq_ok.mp hlook
  cases access? with
  | none => exact .short haccess
  | some access =>
    dsimp only at hlook
    split at hlook
    · cases hlook
      cases (Prod.mk.inj hperform).2
    split at hlook
    · next hmap =>
      refine .map fun map h => ?_
      rw [hmap] at h
      cases h
    · next map hmap =>
      split at hlook
      · next hform =>
        refine .map fun map' h => ?_
        obtain rfl := Option.some.inj (hmap.symm.trans h)
        simpa [Bool.or_eq_true] using hform
      · split at hlook
        · -- Here the rule goes on to plan.
          obtain ⟨ty, -, hlook⟩ := bind_eq_ok.mp hlook
          obtain ⟨value, -, hlook⟩ := bind_eq_ok.mp hlook
          dsimp only at hlook
          split at hlook
          · cases hlook
            cases (Prod.mk.inj hperform).2
          split at hlook
          · cases hlook
          · obtain ⟨indexTy, -, hlook⟩ := bind_eq_ok.mp hlook
            obtain ⟨plan, -, hlook⟩ := bind_eq_ok.mp hlook
            cases hlook
            cases (Prod.mk.inj hperform).2
        · next hnot =>
          cases hshape : g.resultShape? x with
          | none => exact .scalar hshape
          | some shape =>
            cases hlast : access.indices.getLast? with
            | none => exact .bare access haccess (List.getLast?_eq_none_iff.mp hlast)
            | some innermost => exact absurd hlast (hnot shape innermost hshape)

theorem IdleRead.not_matched (h : g.IdleRead x) {edits : Edits} :
    transferReadToUpd.run g x c ≠ .ok (g', c', .matched edits) := by
  intro hrun
  obtain ⟨-, decision, hlook, hperform⟩ := Rule.run_ofDecision_eq_ok.mp hrun
  obtain ⟨access?, haccess, hlook⟩ := bind_eq_ok.mp hlook
  -- Wherever the rule stops, it is before a plan.
  have stops : decision = .decline ∨ ∃ reason, decision = .refuse reason := by
    split at hlook
    · cases hlook
      exact Or.inl rfl
    split at hlook
    · cases hlook
      exact Or.inr ⟨_, rfl⟩
    split at hlook
    · cases hlook
      exact Or.inl rfl
    split at hlook
    · cases hlook
      exact Or.inl rfl
    · next access hform map hmap hmapform =>
      split at hlook
      · next shape innermost hshape hlast =>
        exfalso
        cases h with
        | short hnone =>
          rw [hnone] at haccess
          cases haccess
        | map hno =>
          rcases hno map hmap with e | e <;> simp [e] at hmapform
        | scalar hnone =>
          rw [hnone] at hshape
          cases hshape
        | bare access' haccess' hnil =>
          rw [haccess'] at haccess
          cases haccess
          rw [hnil] at hlast
          cases hlast
      · cases hlook
        exact Or.inl rfl
  rcases stops with rfl | ⟨reason, rfl⟩ <;> cases hperform

/-! ## Splices -/

/-- The operands of the load are sorted out: none of its indices is missing. -/
def Addressed (g : Graph) (d : OpId) : Prop := ∃ access, g.memAccess? d = .ok (some access)

section

variable (hs : Spliced g g' gone op b old r) (h : Scene g gone func) (hr : r.Lawful g func op)
include hs h hr

theorem IdleRead.spliced (hx : g.Inside func x) (hidle : g.IdleRead x) : g'.IdleRead x := by
  have hop := hx.hasOp h.consistent.toNestingAgrees
  cases hidle with
  | short hnone =>
    refine .short ?_
    rw [hs.memAccess?_eq h hr hx, hnone]
    rfl
  | map hno =>
    refine .map ?_
    rwa [hs.attrs_of_hasOp hop]
  | scalar hnone =>
    refine .scalar ?_
    rwa [hs.resultShape?_of_hasOp hop]
  | bare access haccess hnil =>
    refine .bare (access.map (renamed old (g.standIn r))) ?_ ?_
    · rw [hs.memAccess?_eq h hr hx, haccess]
      rfl
    · rw [MemAccess.map, hnil]
      rfl

theorem Addressed.spliced (hd : g.Inside func d) (ha : g.Addressed d) : g'.Addressed d := by
  obtain ⟨access, haccess⟩ := ha
  refine ⟨access.map (renamed old (g.standIn r)), ?_⟩
  rw [hs.memAccess?_eq h hr hd, haccess]
  rfl

/-- A new operation whose first operand is an old value, with as many operands behind as that
has dimensions, is addressed. -/
theorem Spliced.addressed_made {i : Nat} {e : Step} {rest : List Source}
    (he : r.all[i]? = some e) (hops : e.operands = .value v :: rest)
    (hrank : (g.value v).ty.memoryRank ≤ rest.length) : g'.Addressed ⟨g.ops.size + i⟩ := by
  have hfine : g.AtHand func op v := (hr.fine i e he).reads (.value v) (by simp [hops])
  have hv : g.HasValue v := hfine.visible.hasValue h.consistent
  unfold Addressed memAccess?
  rw [hs.operands_made he, hops, List.map_cons, List.map_cons, MemAccess.split?, Source.valueFrom,
    valueTy_of_hasValue (hs.hasValue_renamed hv), hs.ty_renamed_of_hasValue hr hv]
  simp only [Functor.map, Except.map, bind, Except.bind, pure, Except.pure, List.length_map,
    if_neg (Nat.not_lt.mpr hrank)]
  exact ⟨_, rfl⟩

end

/-- While the turn of an operation is still to come, its results are read by whom they were
read. -/
theorem Pending.mem_uses_spliced (hp : Pending g₀ g func (op :: rest)) (h : Scene g gone func)
    (hs : Spliced g g' gone op b old r) (hr : r.Lawful g func op) (hq : q ∈ rest)
    (hv : v ∈ g.results q) : u ∈ g'.uses v ↔ u ∈ g.uses v := by
  have hin := hp.inside op (List.mem_cons_self ..)
  have hvalue := h.consistent.hasValue_of_mem_results hv
  have hold : v ≠ old := by
    rintro rfl
    exact hp.head_not_mem (hs.eq_of_old_mem_results hv ▸ hq)
  rw [hs.mem_uses_of_hasValue hvalue hold]
  constructor
  · rintro (⟨hu, -⟩ | ⟨i, e, he, -, hslot⟩)
    · exact hu
    · have hfine : g.AtHand func op v := (hr.fine i e he).reads _ (List.mem_of_getElem? hslot)
      exact absurd hfine.visible (hp.not_visible hq hv)
  · intro hu
    refine Or.inl ⟨hu, fun e => ?_⟩
    have hmem := h.consistent.mem_operands_of_mem_uses hu
    exact hp.not_visible hq hv (h.ordered.visible op hin v (e ▸ hmem))

end Graph

/-! ## What a rewrite makes -/

namespace Application

variable {Q : AccessSizes → AccessSizes → Prop} {c₀ : AccessSizes}
  (h : Scene s.graph gone func) (hin : s.graph.Inside func op)
  (hrw : Rewrites o.ruleSet o.target.conversionTarget Q func gone c₀ s op s' b old r)
include h hin hrw

/-- All loads that a rewrite makes are addressed. -/
theorem Rewrites.addressed {i : Nat} {e : Step} (he : r.all[i]? = some e) (hk : e.kind = .upd) :
    s'.graph.Addressed ⟨s.graph.ops.size + i⟩ := by
  have hmem := List.mem_of_getElem? he
  obtain ⟨entry, hentry, hroot, c, c', -, hrun, -⟩ := hrw.rule
  -- A load comes from a read or from a load, and either rule writes as many indices as the memory
  -- has.
  rcases ((hrw.lawful.steps i e he).loads hk).1.1 with hread | hload
  · rw [rule_of_transferRead hentry (hread ▸ hroot)] at hrun
    obtain ⟨access, haccess, hplain, -⟩ := plain_of_run h hin hrw.lawful hread hrun
    obtain ⟨-, -, -, hrank⟩ := (h.memAccess? hin).of_eq_ok haccess access rfl
    obtain ⟨ty, indices, rfl, hlen⟩ := hplain e hmem hk
    refine hrw.spliced.addressed_made h hrw.lawful he rfl ?_
    rw [← hrank, ← hlen]
    simp
  · rw [rule_of_upd hentry (hload ▸ hroot)] at hrun
    obtain ⟨access, haccess, ty, hall⟩ := split_of_run h hin hrw.lawful hload hrun
    obtain ⟨-, -, -, hrank⟩ := (h.memAccess? hin).of_eq_ok haccess access rfl
    rw [hall] at hmem
    rcases List.mem_pair.mp hmem with rfl | rfl
    all_goals
      refine hrw.spliced.addressed_made h hrw.lawful he rfl ?_
      rw [← hrank]
      simp

/-- So all loads under the function are addressed after a rewrite if they were before it. -/
theorem Rewrites.forall_addressed
    (hall : ∀ d, s.graph.Inside func d → s.graph.kind d = .upd → s.graph.Addressed d) :
    ∀ d, s'.graph.Inside func d → s'.graph.kind d = .upd → s'.graph.Addressed d := by
  intro d hd hk
  have hs := hrw.spliced
  rcases (hs.inside_iff hin).mp hd with ⟨hd, -⟩ | hd
  · rw [hs.kind_of_hasOp (hd.hasOp hs.before.toNestingAgrees)] at hk
    exact (hall d hd hk).spliced hs h hrw.lawful hd
  · obtain ⟨i, e, he, rfl⟩ := mem_nextOps_all.mp hd
    rw [hs.kind_made he] at hk
    exact hrw.addressed h hin he hk

omit h hin in
/-- An idle read is not what is rewritten. -/
theorem Rewrites.ne_of_idleRead (hk : s.graph.kind x = .transferRead) (hidle : s.graph.IdleRead x) :
    x ≠ op := by
  rintro rfl
  obtain ⟨e, he, hroot, c, c', -, hrun, -⟩ := hrw.rule
  rw [rule_of_transferRead he (hk ▸ hroot)] at hrun
  exact hidle.not_matched hrun

end Application

/-- A read that is visited and neither refused nor rewritten is idle. -/
theorem Application.idleRead_of_idle {Q : AccessSizes → AccessSizes → Prop}
    (hk : s.graph.kind op = .transferRead) (hrejected : s'.rejected = [])
    (hidle : Idle o.ruleSet o.target.conversionTarget Q s.sizes s op s') :
    s.graph.IdleRead op := by
  cases hidle with
  | legal c hlegal _ =>
    rw [Generation.legality_transferRead hk] at hlegal
    cases hlegal
  | already hnoted hsame =>
    rw [isRejected, ← hsame, hrejected] at hnoted
    cases hnoted
  | refused e reason _ _ _ hnoted =>
    rw [hrejected] at hnoted
    exact absurd hnoted.symm (by simp)
  | declined hall _ =>
    obtain ⟨e, he, hrule⟩ := o.exists_transferReadToUpd
    obtain ⟨c, c', -, hrun⟩ := hall e he (by rw [hrule, hk]; exact List.mem_singleton_self _)
    rw [hrule] at hrun
    exact idleRead_of_declined hrun

end SimdLowering
