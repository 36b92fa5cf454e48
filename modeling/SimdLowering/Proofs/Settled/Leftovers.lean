/-
What is left where the rules have come to rest.

An application that reports a fixpoint has asked every rule about everything that may not stay, in a
round that changed nothing; so what verification still finds was refused, or was passed over by
every rule for its kind. For the two generations this can be said in terms of the operations alone:
it is a read that is idle, or one of the operations that no rule serves, and all of these are found.
Loads are never among them, as what the check of loads calls illegal is what the rule for loads
splits.
-/
import SimdLowering.Proofs.Settled.FinalForm
import SimdLowering.Proofs.Settled.Reads
import SimdLowering.Proofs.Target.Clearing
import SimdLowering.Proofs.Target.Unserved

set_option autoImplicit false

namespace SimdLowering

open SimdLowering.Graph SimdLowering.Application SimdLowering.Rules SimdLowering.AccessSizes

variable {o : LowerOptions} {gen : Generation} {g g' : Graph} {gone : List OpId}
  {root func op x : OpId} {size n : Nat} {sizes sizes' c c' c₁ : AccessSizes} {s s' : Application}
  {found : List IllegalOp}

/-! ## What is found -/

/-- What verification finds is under the root and illegal, with sizes that have come to be known
since. -/
theorem Generation.illegal_of_mem_verify
    (h : gen.conversionTarget.verify g root c = .ok (found, c')) {i : IllegalOp} (hi : i ∈ found) :
    g.Inside root i.op ∧
      ∃ d d', Extends g c d ∧ gen.conversionTarget.legality g i.op d = .ok (.illegal, d') := by
  rw [ConversionTarget.verify_eq_foldlM] at h
  -- Invariant: whatever has been noted was illegal under a cache that extends the first one.
  have hend := foldlM_invariant (I := fun rest (u : List IllegalOp × AccessSizes) =>
      (∀ y ∈ rest, g.Inside root y) ∧ Extends g c u.2 ∧
        ∀ i ∈ u.1, g.Inside root i.op ∧ ∃ d d', Extends g c d ∧
          gen.conversionTarget.legality g i.op d = .ok (.illegal, d'))
    (fun y rest u u' ⟨hrest, hext, hall⟩ hnote => ?_)
    ⟨fun y hy => mem_nested_iff.mp hy, .refl g c, fun i hi => absurd hi List.not_mem_nil⟩ h
  · exact hend.2.2 i hi
  obtain ⟨⟨verdict, d⟩, hlegal, hnote⟩ := bind_eq_ok.mp hnote
  cases hnote
  refine ⟨fun z hz => hrest z (List.mem_cons_of_mem _ hz),
    hext.trans ((gen.asks_memoized g y).learns hlegal), fun i hi => ?_⟩
  dsimp only at hi
  split at hi
  · next hverdict =>
    subst hverdict
    rcases List.mem_append.mp hi with hi | hi
    · exact hall i hi
    · obtain rfl := List.mem_singleton.mp hi
      exact ⟨hrest y (List.mem_cons_self ..), u.2, d, hext, hlegal⟩
  · exact hall i hi

/-- The answer to a later question for a size was known before or is what is there to be
measured. -/
theorem AccessSizes.Extends.query_cases {m : Nat} {c₂ : AccessSizes} (hext : Extends g c c')
    (hm : c'.query g x = .ok (m, c₂)) :
    c.get? x = some m ∨ (c.get? x = none ∧ g.accessSize x = .ok m) := by
  rcases query_eq_ok.mp hm with ⟨hget, -⟩ | ⟨hnone, hsize, -⟩
  · rcases hext x with hsame | ⟨hnone, n, hn, hget'⟩
    · exact Or.inl (hsame.symm.trans hget)
    · obtain rfl := Option.some.inj (hget.symm.trans hget')
      exact Or.inr ⟨hnone, hn⟩
  · rcases hext x with hsame | ⟨-, n, -, hget⟩
    · exact Or.inr ⟨hsame.symm.trans hnone, hsize⟩
    · rw [hnone] at hget
      cases hget

/-- The size of a load does not depend on what else has come to be known. -/
theorem AccessSizes.query_of_extends {m : Nat} (hext : Extends g c c')
    (hn : c.query g x = .ok (n, c₁)) {c₂ : AccessSizes} (hm : c'.query g x = .ok (m, c₂)) :
    m = n := by
  rcases query_eq_ok.mp hn with ⟨hget, -⟩ | ⟨hnone, hsize, -⟩ <;>
    rcases hext.query_cases hm with hget' | ⟨hnone', hsize'⟩
  · exact Option.some.inj (hget'.symm.trans hget)
  · rw [hget] at hnone'
    cases hnone'
  · rw [hnone] at hget'
    cases hget'
  · exact Except.ok.inj (hsize'.symm.trans hsize)

/-- What may stay is not called illegal when more is known. -/
theorem Generation.not_illegal_of_extends (hext : Extends g c c')
    (hlegal : gen.conversionTarget.legality g x c = .ok (.legal, c₁)) {c₂ : AccessSizes} :
    gen.conversionTarget.legality g x c' ≠ .ok (.illegal, c₂) := by
  intro hillegal
  by_cases hk : g.kind x = .upd
  · obtain ⟨n, hn, hfits⟩ := legality_upd hk hlegal
    obtain ⟨m, hm, hlong⟩ := legality_upd hk hillegal
    obtain rfl := query_of_extends hext hn hm
    rw [← hfits] at hlong
    cases hlong
  · rw [legality_of_not_load hk hlegal c'] at hillegal
    cases hillegal

/-! ## What is passed over -/

section

variable (h : o.PassesOver g x c)
include h

/-- A load that is addressed and passed over is not called illegal when more is known. -/
theorem LowerOptions.PassesOver.upd (hk : g.kind x = .upd) (haddressed : g.Addressed x)
    (hext : Extends g c c') : o.target.conversionTarget.legality g x c' ≠ .ok (.illegal, c₁) := by
  intro hillegal
  -- The load is too long, so the rule that splits would have matched.
  obtain ⟨m, hm, hlong⟩ := Generation.legality_upd hk hillegal
  have hlong : o.target.maxLoadBits < m := by
    by_contra hle
    rw [if_pos (Nat.le_of_not_lt hle)] at hlong
    cases hlong
  obtain ⟨e, he, hrule⟩ := o.exists_splitUpd
  obtain ⟨c₂, outcome, hrun, hpass⟩ := h e (RuleSet.mem_forKind.mpr
    ⟨he, by rw [hrule, hk]; exact List.mem_singleton_self _⟩)
  rw [hrule] at hrun
  obtain ⟨decision, hlook, hperform⟩ := Rule.run_ofSizedDecision_eq_ok.mp hrun
  obtain ⟨⟨n, c₃⟩, hn, hlook⟩ := bind_eq_ok.mp hlook
  obtain rfl := query_of_extends hext hn hm
  have hsplit : ¬ m < 2 * o.target.nativeBits := Nat.not_lt.mpr (Nat.le_of_lt hlong)
  obtain ⟨limit, hlimit, hlook⟩ := bind_eq_ok.mp hlook
  obtain ⟨-, rfl⟩ := fitU32_eq_ok.mp hlimit
  rw [if_neg hsplit] at hlook
  obtain ⟨access?, haccess, hlook⟩ := bind_eq_ok.mp hlook
  obtain ⟨access, hsome⟩ := haddressed
  obtain rfl := Except.ok.inj (hsome.symm.trans haccess)
  obtain ⟨ty, -, hlook⟩ := bind_eq_ok.mp hlook
  cases hlook
  obtain rfl := (Prod.mk.inj hperform).2
  simp [Outcome.Passes, Edits.isEmpty] at hpass

/-- A read that is passed over is idle. -/
theorem LowerOptions.PassesOver.transferRead (hk : g.kind x = .transferRead) : g.IdleRead x := by
  have hlook := h.declines o.exists_transferReadToUpd (by rw [hk]; exact List.mem_singleton_self _)
    rfl
  exact idleRead_of_declined (c := c) (Rule.run_ofDecision_eq_ok.mpr ⟨rfl, _, hlook, rfl⟩)

end

/-! ## At a fixpoint -/

/-- Where the rules have come to rest, an operation that was not refused is found if it is a read,
which then is idle, or if no rule serves it, and otherwise it is not found. -/
theorem LowerOptions.found_iff {edits : List Edit} {budget : Nat} {result : ApplyResult}
    (history : Edit.replay edits = .ok (g, gone))
    (h : o.ruleSet.apply g root o.target.conversionTarget budget sizes = .ok (g', sizes', result))
    (hfix : result.fixpoint = true)
    (hverify : o.target.conversionTarget.verify g' root sizes' = .ok (found, c))
    (hloads : ∀ d, g'.Inside root d → g'.kind d = .upd → g'.Addressed d)
    (hx : g'.Inside root x) (hfine : x ∉ result.rejected.map Rejection.op) :
    ⟨x, g'.kind x⟩ ∈ found ↔
      (g'.kind x = .transferRead ∧ g'.IdleRead x) ∨ g'.Unserved x o.target := by
  have hrest := o.settles history h hfix hx
  constructor
  · intro hmem
    obtain ⟨-, d, d', hext, hillegal⟩ := Generation.illegal_of_mem_verify hverify hmem
    -- Rewriting has left it legal, refused or passed over, and only the last is still possible.
    rcases hrest with ⟨c₁, hlegal⟩ | hrefused | hpass
    · exact absurd hillegal (Generation.not_illegal_of_extends hext hlegal)
    · exact absurd hrefused hfine
    · have hpass : o.PassesOver g' x sizes' := hpass
      by_cases hread : g'.kind x = .transferRead
      · exact Or.inl ⟨hread, hpass.transferRead hread⟩
      by_cases hload : g'.kind x = .upd
      · exact absurd hillegal (hpass.upd hload (hloads x hx hload) hext)
      · exact Or.inr (unserved_of_illegal hpass hillegal hread hload)
  · intro hwhy
    -- Verification notes whatever is illegal under every cache it may come with.
    refine ConversionTarget.mem_of_verify hverify (mem_nested_iff.mpr hx) fun d v d' hlegal => ?_
    rcases hwhy with ⟨hread, -⟩ | hunserved
    · rw [Generation.legality_transferRead hread] at hlegal
      cases hlegal
      rfl
    · rw [hunserved.legality] at hlegal
      cases hlegal
      rfl

/-- The function is upright, and its loads are addressed. -/
structure Loaded (func : OpId) (size : Nat) (s : Application) : Prop where
  upright : UprightAt func size s
  addressed : ∀ d, s.graph.Inside func d → s.graph.kind d = .upd → s.graph.Addressed d

variable (o func size) in
theorem loaded_visitsKeep :
    VisitsKeep o.ruleSet o.target.conversionTarget func (Loaded func size) := by
  intro s op s' h hin hv
  obtain ⟨gone, hup⟩ := h.upright
  have hgoes := goes_of_visit hup hin hv
  obtain ⟨hup', hstirred⟩ := LowerOptions.upright_of_visited hup hin hgoes
  refine ⟨⟨hup', ?_⟩, hstirred⟩
  cases hgoes with
  | same hg => exact hg ▸ h.addressed
  | rewritten b old r hrw => exact hrw.forall_addressed hup.scene hin h.addressed

/-- Take any function with a history that validates and in which every operation has the operands
and results of its kind, loads among them if they have as many indices as their memory has
dimensions. Where an application of the rules of a generation to it reports a fixpoint,
verification finds, of the operations that were not refused, the reads, all of them idle, and those
that no rule serves. -/
theorem Graph.found_at_fixpoint {edits : List Edit} {budget : Nat} {result : ApplyResult}
    (history : Edit.replay edits = .ok (g, gone)) (hreads : ∀ v, g.uses v ≠ [] → g.HasValue v)
    (hfunc : g.HasOp func) (hvalid : g.Validates func)
    (hshaped : ∀ op, g.Inside func op → g.WellShaped op)
    (hloads : ∀ d, g.Inside func d → g.kind d = .upd → g.Addressed d)
    (h : o.ruleSet.apply g func o.target.conversionTarget budget sizes = .ok (g', sizes', result))
    (hfix : result.fixpoint = true)
    (hverify : o.target.conversionTarget.verify g' func sizes' = .ok (found, c))
    (hx : g'.Inside func x) (hfine : x ∉ result.rejected.map Rejection.op) :
    ⟨x, g'.kind x⟩ ∈ found ↔
      (g'.kind x = .transferRead ∧ g'.IdleRead x) ∨ g'.Unserved x o.target := by
  have hup : Upright g gone func g.ops.size := .of_replay history hreads hfunc hvalid hshaped
  refine LowerOptions.found_iff history h hfix hverify ?_ hx hfine
  obtain ⟨⟨s, n, fixpoint⟩, hrounds, h⟩ := bind_eq_ok.mp h
  cases h
  exact (rounds_visits (loaded_visitsKeep o func g.ops.size) (fun _ h => h.upright.ground)
    ⟨⟨gone, hup⟩, hloads⟩ hrounds).2.addressed

end SimdLowering
