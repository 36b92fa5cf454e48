/-
How many rounds a function needs whose reads are all that may not stay.

In the first round each read becomes loads, since nothing else is rewritten and a plain read is not
refused. If the loads are no longer than two that fit, the second round splits those that do not
fit, and after it all of them are settled and everything may stay. So two rounds lower such a
function, and a third one finds that nothing is left to do. Where a read is longer, no number of
rounds is enough.

A read can start where the machine cannot count any more, and then there is no answer at all. So
what is said is said of lowerings that come back.
-/
import SimdLowering.Proofs.Lowering.Visits
import SimdLowering.Proofs.Settled.Bystanders
import SimdLowering.Proofs.Settled.Leftovers
import SimdLowering.Proofs.Settled.Lowering

set_option autoImplicit false

namespace SimdLowering

open SimdLowering.Graph SimdLowering.Application SimdLowering.Rules

variable {o : LowerOptions} {g g₀ g' : Graph} {gone : List OpId} {func op x d : OpId}
  {size budget : Nat} {c c' c₀ : AccessSizes} {s s' t t' : Application} {b : BlockId}
  {v old : ValueId} {r : Recipe} {rest : List OpId} {Q : AccessSizes → AccessSizes → Prop}

/-! ## Visits to single operations -/

/-- A visit to what may stay asks for sizes at most. -/
theorem Application.visit_of_permitted (hp : s.graph.Permitted o.target op)
    (hv : s.visitOp o.ruleSet o.target.conversionTarget op = .ok s') :
    ∃ c, s' = { s with sizes := c } := by
  obtain ⟨verdict, c, hlegal, ⟨-, rfl⟩ | ⟨-, htrial⟩⟩ := visitOp_cases hv
  · exact ⟨c, rfl⟩
  cases verdict with
  | illegal => exact absurd hlegal (hp _ _)
  | unknown =>
    rw [forKind_of_unknown hlegal] at htrial
    cases htrial
    exact ⟨c, rfl⟩
  | legal =>
    rw [visitOp_of_legal hlegal] at hv
    cases hv
    exact ⟨c, rfl⟩

/-- A visit does not leave a plain read alone that was not refused before. -/
theorem Graph.PlainRead.not_idle (h : s.graph.PlainRead op) (hopen : s.isRejected op = false) :
    ¬ Idle o.ruleSet o.target.conversionTarget Q c₀ s op s' := by
  intro hidle
  cases hidle with
  | legal c hlegal =>
    rw [Generation.legality_transferRead h.kind] at hlegal
    cases hlegal
  | already hnoted =>
    rw [hopen] at hnoted
    cases hnoted
  | refused e reason he hroot hrun =>
    obtain ⟨c, g', c', -, hrun⟩ := hrun
    rw [rule_of_transferRead he (h.kind ▸ hroot)] at hrun
    exact Bool.noConfusion (h.matched hrun)
  | declined hall =>
    obtain ⟨e, he, hrule⟩ := o.exists_transferReadToUpd
    obtain ⟨c, c', -, hrun⟩ := hall e he (by rw [hrule, h.kind]; exact List.mem_singleton_self _)
    rw [hrule] at hrun
    exact Bool.noConfusion (h.matched hrun)

/-- The rule for loads refuses nothing. -/
theorem Rules.splitUpd_not_refused {bits : Nat} {reason : String} :
    (splitUpd bits).run g op c ≠ .ok (g', c', .refused reason) := by
  intro hrun
  obtain ⟨decision, hlook, hperform⟩ := Rule.run_ofSizedDecision_eq_ok.mp hrun
  obtain ⟨⟨n, c₁⟩, -, hlook⟩ := bind_eq_ok.mp hlook
  obtain ⟨limit, -, hlook⟩ := bind_eq_ok.mp hlook
  split at hlook
  · cases hlook
    cases hperform
  obtain ⟨access?, -, hlook⟩ := bind_eq_ok.mp hlook
  cases access? with
  | none =>
    cases hlook
    cases hperform
  | some access =>
    obtain ⟨ty, -, hlook⟩ := bind_eq_ok.mp hlook
    cases hlook
    cases hperform

/-- So a load that is left alone is not refused. -/
theorem rejected_of_idle_load (hk : s.graph.kind op = .upd)
    (hidle : Idle o.ruleSet o.target.conversionTarget Q c₀ s op s') :
    s'.rejected = s.rejected := by
  cases hidle with
  | legal _ _ hsame => exact hsame
  | already _ hsame => exact hsame
  | declined _ hsame => exact hsame
  | refused e reason he hroot hrun =>
    obtain ⟨c, g', c', -, hrun⟩ := hrun
    rw [rule_of_upd he (hk ▸ hroot)] at hrun
    exact absurd hrun splitUpd_not_refused

/-! ## The first two rounds -/

/-- Nothing has been refused, the reads are plain and their turn is still to come, and whatever else
is no load may stay. -/
structure ReadsAhead (o : LowerOptions) (func : OpId) (rest : List OpId) (s : Application) :
    Prop where
  accepted : s.rejected = []
  reads : ∀ x, s.graph.Inside func x → s.graph.kind x = .transferRead →
    x ∈ rest ∧ s.graph.PlainRead x
  others : ∀ x, s.graph.Inside func x → s.graph.kind x ≠ .transferRead → s.graph.kind x ≠ .upd →
    s.graph.Permitted o.target x

namespace ReadsAhead

/-- What a rewrite leaves, which is one of a read or of a load. -/
theorem rewritten (hp : Pending g₀ t.graph func (op :: rest)) (hup : Upright t.graph gone func size)
    (h : ReadsAhead o func (op :: rest) t)
    (hk : t.graph.kind op = .transferRead ∨ t.graph.kind op = .upd)
    (hrw : Rewrites o.ruleSet o.target.conversionTarget (AsksAtMost t.graph op) func gone t.sizes t
      op t' b old r) : ReadsAhead o func rest t' := by
  have hin := hp.inside op (List.mem_cons_self ..)
  have hs := hrw.spliced
  have hr := hrw.lawful
  have hop : ∀ {x}, t.graph.Inside func x → t.graph.HasOp x := fun hx =>
    hx.hasOp hs.before.toNestingAgrees
  have hmade := hrw.writes_access hk
  refine ⟨hrw.rejected.trans h.accepted, fun x hx hkx => ?_, fun x hx hread hload => ?_⟩
  · rcases (hs.inside_iff hin).mp hx with ⟨hx, hne⟩ | hx
    · rw [hs.kind_of_hasOp (hop hx)] at hkx
      obtain ⟨hmem, hplain⟩ := h.reads x hx hkx
      exact ⟨(List.mem_cons.mp hmem).resolve_left hne, hplain.spliced hs hup.scene hr hx⟩
    · obtain ⟨i, e, he, rfl⟩ := mem_nextOps_all.mp hx
      have hlowered := (hr.steps i e he).lowered
      rw [← hs.kind_made he, hkx] at hlowered
      cases hlowered
  · rcases (hs.inside_iff hin).mp hx with ⟨hx, hne⟩ | hx
    · rw [hs.kind_of_hasOp (hop hx)] at hread hload
      exact (h.others x hx hread hload).spliced hload hs hup.scene hin hr hx hne hk hmade
    · -- Constants and windows may stay.
      obtain ⟨i, e, he, rfl⟩ := mem_nextOps_all.mp hx
      have hkind := hs.kind_made he
      have hmem := hmade e (List.mem_of_getElem? he)
      rw [← hkind] at hmem
      intro c c' hillegal
      have hother : ∀ k, k ∉ accessKinds → t'.graph.kind ⟨t.graph.ops.size + i⟩ ≠ k :=
        fun k hk e => hk (e ▸ hmem)
      rw [Generation.legality_of_made (Or.inl (hkind ▸ (hr.steps i e he).lowered)) hload
        (hother .fma (by decide)) (hother .unrealizedCast (by decide))] at hillegal
      cases hillegal

/-- What a visit leaves. -/
theorem visit (hI : Tended func size t) (hp : Pending g₀ t.graph func (op :: rest))
    (h : ReadsAhead o func (op :: rest) t)
    (hv : t.visitOp o.ruleSet o.target.conversionTarget op = .ok t') : ReadsAhead o func rest
      t' := by
  obtain ⟨gone, hup⟩ := hI.upright
  have hin := hp.inside op (List.mem_cons_self ..)
  -- Where the graph stays and no read is visited, the reads ahead are those there were.
  have same : t'.graph = t.graph → t'.rejected = t.rejected → t.graph.kind op ≠ .transferRead →
      ReadsAhead o func rest t' := by
    intro hg hrejected hk
    refine ⟨hrejected.trans h.accepted, fun x hx hkx => ?_, hg ▸ h.others⟩
    rw [hg] at hx hkx ⊢
    obtain ⟨hmem, hplain⟩ := h.reads x hx hkx
    exact ⟨(List.mem_cons.mp hmem).resolve_left fun e => hk (e ▸ hkx), hplain⟩
  by_cases hread : t.graph.kind op = .transferRead
  · cases goes_of_visit hup hin hv with
    | same _ _ _ _ hidle =>
      exact absurd hidle ((h.reads op hin hread).2.not_idle (isRejected_of_nil h.accepted))
    | rewritten b old r hrw => exact h.rewritten hp hup (Or.inl hread) hrw
  by_cases hload : t.graph.kind op = .upd
  · cases goes_of_visit hup hin hv with
    | same hg _ _ _ hidle => exact same hg (rejected_of_idle_load hload hidle) hread
    | rewritten b old r hrw => exact h.rewritten hp hup (Or.inr hload) hrw
  · obtain ⟨c, rfl⟩ := visit_of_permitted (h.others op hin hread hload) hv
    exact same rfl rfl hread

/-- What a round leaves; and if it changes nothing, it leaves the graph it was given. -/
theorem round (hI : Tended func size s) (h : ReadsAhead o func (s.graph.postorder func) s)
    (hround : s.round o.ruleSet o.target.conversionTarget func = .ok s') :
    ReadsAhead o func [] s' ∧ (s'.changes = s.changes → s'.graph = s.graph) := by
  have hend := (round_induction (J := fun rest t => ReadsAhead o func rest t ∧
      s.changes ≤ t.changes ∧ (t.changes = s.changes → t.graph = s.graph))
    (tended_visitsKeep o func size) (fun _ h => h.ground) hI ⟨h, le_refl _, fun _ => rfl⟩
    (fun op rest t t' hI hp ⟨hJ, hle, hsame⟩ hv => by
      refine ⟨hJ.visit hI hp hv, hle.trans (visitOp_changes_le hv), fun hunchanged => ?_⟩
      obtain ⟨gone, hup⟩ := hI.upright
      cases goes_of_visit hup (hp.inside op (List.mem_cons_self ..)) hv with
      | same hg hchanges => exact hg.trans (hsame (hchanges.symm.trans hunchanged))
      | rewritten b old r hrw =>
        have := hrw.changes
        omega) hround).1
  exact ⟨hend.1, hend.2.2⟩

/-- When the first round is over there are no reads left. -/
theorem not_read (h : ReadsAhead o func [] s) (hx : s.graph.Inside func x) :
    s.graph.kind x ≠ .transferRead :=
  fun hk => absurd (h.reads x hx hk).1 List.not_mem_nil

/-- A later round begins with what an earlier one has left. -/
theorem again (h : ReadsAhead o func [] s) : ReadsAhead o func (s.graph.postorder func) s :=
  { h with reads := fun _ hx hk => absurd hk (h.not_read hx) }

end ReadsAhead

/-! ## Rest -/

/-- Nothing has been refused, all that is under the function may stay, and its loads are settled. -/
structure AtRest (o : LowerOptions) (func : OpId) (s : Application) : Prop where
  accepted : s.rejected = []
  halved : s.graph.Halved func o.target.maxLoadBits
  others : ∀ x, s.graph.Inside func x → s.graph.kind x ≠ .upd → s.graph.Permitted o.target x
  loads : ∀ d, s.graph.Inside func d → s.graph.kind d = .upd → Quiet o.target.maxLoadBits s d

namespace AtRest

/-- Rest goes on. -/
theorem visit (hI : Tended func size s) (h : AtRest o func s) (hin : s.graph.Inside func op)
    (hv : s.visitOp o.ruleSet o.target.conversionTarget op = .ok s') :
    AtRest o func s' ∧ s'.changes = s.changes := by
  obtain ⟨gone, hup⟩ := hI.upright
  cases goes_of_visit hup hin hv with
  | same hg hchanges _ hsizes hidle =>
    have hrejected : s'.rejected = s.rejected := by
      by_cases hload : s.graph.kind op = .upd
      · exact rejected_of_idle_load hload hidle
      · obtain ⟨c, rfl⟩ := visit_of_permitted (h.others op hin hload) hv
        rfl
    refine ⟨⟨hrejected.trans h.accepted, hg ▸ h.halved, hg ▸ h.others, fun d hd hk => ?_⟩, hchanges⟩
    rw [hg] at hd hk
    have hquiet := h.loads d hd hk
    exact ⟨hg ▸ hquiet.settled,
      known_of_light hup h.halved hquiet.settled.light hd hk hsizes hquiet.known⟩
  -- At rest nothing is rewritten: loads are spared, and everything else may stay.
  | rewritten b old r hrw =>
    exfalso
    by_cases hload : s.graph.kind op = .upd
    · exact (h.loads op hin hload).spared.not_rewrites hup h.halved hin hload hv hrw
    · obtain ⟨c, rfl⟩ := visit_of_permitted (h.others op hin hload) hv
      have := hrw.changes
      simp at this

/-- A round at rest changes nothing. -/
theorem round (hI : Tended func size s) (h : AtRest o func s)
    (hround : s.round o.ruleSet o.target.conversionTarget func = .ok s') :
    AtRest o func s' ∧ s'.changes = s.changes :=
  (round_induction (J := fun _ t => AtRest o func t ∧ t.changes = s.changes)
    (tended_visitsKeep o func size) (fun _ h => h.ground) hI ⟨h, rfl⟩
    (fun op _ t t' hI hp ⟨hJ, hsame⟩ hv => by
      obtain ⟨hrest, hchanges⟩ := hJ.visit hI (hp.inside op (List.mem_cons_self ..)) hv
      exact ⟨hrest, hchanges.trans hsame⟩) hround).1

/-- So of the rounds that are left at most one is made. -/
theorem rounds (hI : Tended func size s) (h : AtRest o func s) {left done : Nat}
    {y : Application × Nat × Bool}
    (hrounds : Application.rounds o.ruleSet o.target.conversionTarget func left done s = .ok y) :
    AtRest o func y.1 ∧ y.2.1 ≤ done + 1 := by
  cases left with
  | zero =>
    cases hrounds
    exact ⟨h, Nat.le_succ done⟩
  | succ left =>
    obtain ⟨t, hround, hrounds⟩ := bind_eq_ok.mp hrounds
    obtain ⟨hrest, hchanges⟩ := h.round hI hround
    rw [if_pos hchanges] at hrounds
    cases hrounds
    exact ⟨hrest, le_refl _⟩

/-- Verification finds nothing. -/
theorem verified (hI : Tended func size s) (h : AtRest o func s) {found : List IllegalOp}
    (hverify : o.target.conversionTarget.verify s.graph func s.sizes = .ok (found, c)) :
    found = [] := by
  refine List.eq_nil_iff_forall_not_mem.mpr fun i hi => ?_
  obtain ⟨gone, hup⟩ := hI.upright
  obtain ⟨hin, d, d', hext, hillegal⟩ := Generation.illegal_of_mem_verify hverify hi
  by_cases hload : s.graph.kind i.op = .upd
  · have hquiet := h.loads i.op hin hload
    obtain ⟨n, hn, hlong⟩ := Generation.legality_upd hload hillegal
    have hle : n ≤ o.target.maxLoadBits := by
      rcases hext.query_cases hn with hknown | ⟨-, hsize⟩
      · exact hquiet.known n hknown
      · exact (light_iff_of_upright hup h.halved hin hload hsize).mpr hquiet.settled.light
    rw [if_pos hle] at hlong
    cases hlong
  · exact h.others i.op hin hload d d' hillegal

end AtRest

/-! ## Enough rounds -/

/-- Two rounds bring a function without loads to rest whose reads are short and all that may not
stay, and at most one more is made. -/
theorem atRest_of_rounds (hI : Tended func size s)
    (h : ReadsAhead o func (s.graph.postorder func) s)
    (hnone : ∀ d, s.graph.Inside func d → s.graph.kind d ≠ .upd)
    (hshort : ∀ d, s.graph.Inside func d → s.graph.kind d = .transferRead →
      ∀ shape, s.graph.resultShape? d = some shape → shape.bits ≤ 2 * o.target.maxLoadBits)
    {left done : Nat} {y : Application × Nat × Bool}
    (hrounds : rounds o.ruleSet o.target.conversionTarget func (left + 2) done s = .ok y) :
    AtRest o func y.1 ∧ y.2.1 ≤ done + 3 := by
  obtain ⟨t, hround, hrounds⟩ := bind_eq_ok.mp hrounds
  have ht := (round_visits (tended_visitsKeep o func size) (fun _ h => h.ground) hI hround).2
  obtain ⟨hahead, hsame⟩ := h.round hI hround
  obtain ⟨hfirst, hshape⟩ := firstLoads_of_round hI hround hnone hshort hahead.accepted
  split at hrounds
  · next hunchanged =>
    -- There were no reads, so there are no loads.
    have hnone' : ∀ d, t.graph.Inside func d → t.graph.kind d ≠ .upd := hsame hunchanged ▸ hnone
    cases hrounds
    refine ⟨⟨hahead.accepted, ⟨hshape, fun d hd hk => absurd hk (hnone' d hd)⟩,
      fun x hx hk => hahead.others x hx (hahead.not_read hx) hk,
      fun d hd hk => absurd hk (hnone' d hd)⟩, by dsimp only; omega⟩
  obtain ⟨t₂, hround₂, hrounds⟩ := bind_eq_ok.mp hrounds
  have ht₂ := (round_visits (tended_visitsKeep o func size) (fun _ h => h.ground) ht hround₂).2
  have hahead₂ := (hahead.again.round ht hround₂).1
  have hlater := laterLoads_of_round ht hround₂ (fun _ => hfirst.later ht hshape) hahead₂.accepted
  have hrest : AtRest o func t₂ := by
    refine ⟨hahead₂.accepted, hlater.halved,
      fun x hx hk => hahead₂.others x hx (hahead₂.not_read hx) hk, fun d hd hk => ?_⟩
    exact (hlater.loads d hd hk).resolve_left fun ha => absurd ha.pending List.not_mem_nil
  split at hrounds
  · cases hrounds
    exact ⟨hrest, by dsimp only; omega⟩
  · exact hrest.rounds ht₂ hrounds

namespace Graph

section

variable {edits : List Edit} (history : Edit.replay edits = .ok (g, gone))
  (hreads : ∀ v, g.uses v ≠ [] → g.HasValue v) (hfunc : g.HasOp func) (hkind : g.kind func = .func)
  (hvalid : g.Validates func) (hshaped : ∀ op, g.Inside func op → g.WellShaped op)
  (hnone : ∀ op, g.Inside func op → g.kind op ≠ .upd)
  (honly : ∀ op c c', g.Inside func op →
    o.target.conversionTarget.legality g op c = .ok (.illegal, c') → g.PlainRead op)
include history hreads hfunc hkind hvalid hshaped hnone honly

/-- Take any function with a history that validates, in which every operation has the operands and
results of its kind, without loads. If all that may not stay are plain reads, and none is longer
than two loads may be, then a lowering with two rounds or more that comes back has succeeded and
left nothing behind. It has made no more than three rounds, and no load that it leaves contributes
more than one may. -/
theorem lower_shortReads {answer : Except LowerError LowerReport}
    (hlower : g.lower func o = .ok (g', answer))
    (hshort : ∀ op, g.Inside func op → g.kind op = .transferRead →
      ∀ shape, g.resultShape? op = some shape → shape.bits ≤ 2 * o.target.maxLoadBits)
    (hbudget : 2 ≤ o.maxIterations) :
    ∃ report, answer = .ok report ∧ report.remaining = [] ∧
      report.iterations ≤ 3 ∧ ∀ d, g'.Inside func d → g'.kind d = .upd →
        ∃ n, g'.accessSize d = .ok n ∧ n ≤ o.target.maxLoadBits := by
  have hup : Upright g gone func g.ops.size := .of_replay history hreads hfunc hvalid hshaped
  have hI : Tended func g.ops.size (.start g .empty) := ⟨⟨gone, hup⟩, nofun⟩
  -- At the start every read is still to be visited, and nothing else may not stay.
  have hahead : ReadsAhead o func (g.postorder func) (.start g .empty) := by
    refine ⟨rfl, fun x hx hk => ⟨(mem_postorder hup.scene.consistent hup.valid.acyclic).mpr hx,
      honly x .empty .empty hx (Generation.legality_transferRead hk _)⟩,
      fun x hx hread _ c c' hillegal => hread (honly x c c' hx hillegal).kind⟩
  obtain ⟨-, ⟨hnot, -⟩ | ⟨-, s, n, fixpoint, hrounds, rfl, hanswer⟩⟩ := lower_eq_ok hlower
  · exact absurd hkind hnot
  obtain ⟨left, hleft⟩ := Nat.exists_eq_add_of_le' hbudget
  have hend := (rounds_visits (tended_visitsKeep o func g.ops.size) (fun _ h => h.ground) hI
    hrounds).2
  rw [hleft] at hrounds
  obtain ⟨hrest, hle⟩ := atRest_of_rounds hI hahead hnone hshort hrounds
  cases hanswer with
  | refused first others hrejected =>
    rw [hrest.accepted] at hrejected
    cases hrejected
  | illegal ops sizes _ hverify hops => exact absurd (hrest.verified hend hverify) hops
  -- What is left over is nothing, so every load that is left is settled and light.
  | done ops sizes _ hverify _ =>
    have hleft := hrest.verified hend hverify
    refine ⟨_, rfl, hleft, by dsimp only at hle ⊢; omega, fun d hd hk => ?_⟩
    obtain ⟨-, -, -, hloads, -⟩ := lower_settles hup hlower hleft hnone
    obtain ⟨hset, n, hsize⟩ := hloads d hd hk
    obtain ⟨gone', hup'⟩ := hend.upright
    exact ⟨n, hsize, (light_iff_of_upright hup' hrest.halved hd hk hsize).mpr hset.light⟩

/-- If the lowering comes back with two rounds, there is a number of rounds with which it leaves
nothing behind exactly if no read is longer than two loads may be. -/
theorem exists_budget_iff
    (hanswers : ∃ answer, g.lower func { o with maxIterations := 2 } = .ok answer) :
    (∃ budget g' report, g.lower func { o with maxIterations := budget } = .ok (g', .ok report) ∧
        report.remaining = []) ↔
      ∀ op, g.Inside func op → g.kind op = .transferRead →
        ∀ shape, g.resultShape? op = some shape → shape.bits ≤ 2 * o.target.maxLoadBits := by
  constructor
  · rintro ⟨budget, g', report, hlower, hleft⟩ op hop hk shape hshape
    have hup : Upright g gone func g.ops.size := .of_replay history hreads hfunc hvalid hshaped
    by_contra hlong
    exact not_isLong_of_lower hup hlower hleft hnone hop hk
      ⟨shape, hshape, Nat.lt_of_not_le hlong⟩
  · intro hshort
    obtain ⟨⟨g', answer⟩, hlower⟩ := hanswers
    obtain ⟨report, rfl, hleft, -⟩ := lower_shortReads (o := { o with maxIterations := 2 }) history
      hreads hfunc hkind hvalid hshaped hnone honly hlower hshort (le_refl 2)
    exact ⟨2, g', report, hlower, hleft⟩

end

/-- The history of a function that returns what it reads, which are forty-eight lanes. -/
def tripleHistory : List Edit :=
  [.createBlock [.memory [96] (.i 32), .index],
    .createOp (Instr.transferRead (.vector 48 (.i 32)) ⟨0⟩ [⟨1⟩] (.minorIdentity 1) none),
    .append ⟨0⟩ ⟨0⟩, .createOp (Instr.ret [⟨2⟩]), .append ⟨0⟩ ⟨1⟩, .createRegion [⟨0⟩],
    .createOp (Instr.func "triple" ⟨0⟩)]

/-- The graph the history ends with. -/
def tripleGraph : Graph where
  ops := #[⟨.transferRead, [⟨0⟩, ⟨1⟩], [⟨2⟩],
      .ofList [(AttrName.permutationMap, .map (.minorIdentity 1))], [], some ⟨0⟩⟩,
    ⟨.ret, [⟨2⟩], [], .empty, [], some ⟨0⟩⟩,
    ⟨.func, [], [], .ofList [(AttrName.symName, .str "triple")], [⟨0⟩], none⟩]
  values := #[⟨.argument ⟨0⟩ 0, .memory [96] (.i 32)⟩, ⟨.argument ⟨0⟩ 1, .index⟩,
    ⟨.result ⟨0⟩ 0, .vector 48 (.i 32)⟩]
  blocks := #[⟨[⟨0⟩, ⟨1⟩], [⟨0⟩, ⟨1⟩], some ⟨0⟩⟩]
  regions := #[⟨[⟨0⟩], some ⟨2⟩⟩]
  chains := #[[⟨⟨0⟩, 0⟩], [⟨⟨0⟩, 1⟩], [⟨⟨1⟩, 0⟩]]

/-- Of these lanes two loads of the first generation take two thirds, and no number of rounds takes
the rest. -/
theorem exists_budget_iff_triple : ¬ ∃ budget g' report,
    tripleGraph.lower ⟨2⟩ ⟨.aie, 0, budget, true⟩ = .ok (g', .ok report) ∧
      report.remaining = [] := by
  have history : Edit.replay tripleHistory = .ok (tripleGraph, []) := by cbv
  have hvalid : tripleGraph.Validates ⟨2⟩ := .of_replay history rfl (by cbv)
  have inside : ∀ op, tripleGraph.Inside ⟨2⟩ op → op = ⟨0⟩ ∨ op = ⟨1⟩ := by
    intro op hop
    have hlist : tripleGraph.nested ⟨2⟩ = [⟨0⟩, ⟨1⟩] := by decide
    have hmem := mem_nested_iff.mpr hop
    rw [hlist] at hmem
    exact List.mem_pair.mp hmem
  have hgeneric : ∀ op, tripleGraph.Inside ⟨2⟩ op → tripleGraph.Generic op := by
    intro op hop
    rcases inside op hop with rfl | rfl
    · refine ⟨⟨_, .transferRead (.vector 48 (.i 32)) ⟨0⟩ [⟨1⟩] (.minorIdentity 1) none, rfl, rfl,
        rfl, rfl, rfl⟩, fun n elem h => ?_⟩
      cases List.mem_singleton.mp h
      decide
    · exact ⟨⟨_, .ret [⟨2⟩], rfl, rfl, rfl, rfl, rfl⟩, fun n elem h => by cases h⟩
  have hanswers : ∃ answer, tripleGraph.lower ⟨2⟩ ⟨.aie, 0, 2, true⟩ = .ok answer :=
    exists_of_isOk (by cbv)
  -- The characterization would give a size in bounds, which the read does not have.
  intro hsome
  refine absurd ((exists_budget_iff (o := ⟨.aie, 0, 8, true⟩) history
    (hasValue_of_uses (Nat.le_refl 3)) (by decide) rfl hvalid
    (fun op hop => (hgeneric op hop).wellShaped) ?_ ?_ hanswers).mp hsome ⟨0⟩
      (mem_nested_iff.mp (by decide)) rfl _ rfl) (by decide)
  · intro op hop
    rcases inside op hop with rfl | rfl <;> decide
  · intro op c c' hop hillegal
    rcases inside op hop with rfl | rfl
    · exact ⟨rfl, ⟨⟨⟨0⟩, [⟨1⟩], none⟩, rfl, rfl, by decide⟩,
        ⟨.minorIdentity 1, rfl, by decide, by decide⟩, ⟨_, rfl⟩⟩
    · rw [Generation.legality_of_made (Or.inr rfl) (by decide) (by decide) (by decide)] at hillegal
      cases hillegal

end Graph

end SimdLowering
