/-
Three rounds are enough.

On the second generation a rewrite can make work in two ways. A sum takes the product it reads
with it, and the product is then loose; and a read becomes a load that may have to be split. The
first round meets only what was there from the start, and leaves each of it rewritten, at rest or
loose, since nothing that has been visited looks behind what is still to come. The second round
meets loose products and loads of which nothing is remembered. Neither can disturb what is at
rest: only instructions that rules have made read a loose product, and nobody looks behind a
load. So the second round leaves everything at rest, and the third does nothing.
-/
import SimdLowering.Proofs.Fixpoint.Products
import SimdLowering.Proofs.Fixpoint.Splits

set_option autoImplicit false

namespace SimdLowering

open SimdLowering.Graph SimdLowering.Application SimdLowering.Rules

variable {o : LowerOptions} {func op x d : OpId} {size n : Nat} {gone rest : List OpId}
  {g₀ g : Graph}
  {s s' t t' : Application} {b : BlockId} {old : ValueId} {r : Recipe}

/-- No visit can rewrite the operation, which is no load: it was refused, or rests. -/
def Application.Calm (o : LowerOptions) (s : Application) (x : OpId) : Prop :=
  s.isRejected x = true ∨ o.ruleSet.Rests o.target.conversionTarget s.graph x

/-- What each visit keeps: the function is upright, no read is without lanes, and sizes are
remembered of what is there. -/
structure Ready (func : OpId) (size : Nat) (s : Application) : Prop where
  upright : UprightAt func size s
  lanes : ∀ x, s.graph.Inside func x → s.graph.HasLanes x
  keys : ∀ d n, s.sizes.get? d = some n → s.graph.HasOp d

/-- What has been visited in the first round is calm or loose, and reads nothing that is still to
come; and the loads are new, in front, and nobody has asked for their size. -/
structure FirstRound (o : LowerOptions) (func : OpId) (rest : List OpId) (s : Application) :
    Prop where
  calm : ∀ x, s.graph.Inside func x → x ∉ rest → s.graph.kind x ≠ .upd →
    s.Calm o x ∨ s.graph.Loose x
  behind : ∀ x, s.graph.Inside func x → x ∉ rest → ∀ q ∈ rest, ∀ v ∈ s.graph.results q,
    v ∉ s.graph.operands x
  halved : s.graph.Halved func o.target.maxLoadBits
  loads : ∀ d, s.graph.Inside func d → s.graph.kind d = .upd →
    d ∉ rest ∧ s.graph.updOffset d = 0 ∧ s.sizes.get? d = none

/-- What is not calm in the second round is a loose product that is still to come; and loads are
spared once they have been visited, and before that are as the first round left them. -/
structure SecondRound (o : LowerOptions) (func : OpId) (rest : List OpId) (s : Application) :
    Prop where
  calm : ∀ x, s.graph.Inside func x → s.graph.kind x ≠ .upd →
    s.Calm o x ∨ (s.graph.Loose x ∧ x ∈ rest)
  halved : s.graph.Halved func o.target.maxLoadBits
  loads : ∀ d, s.graph.Inside func d → s.graph.kind d = .upd →
    (d ∈ rest ∧ s.graph.updOffset d = 0 ∧ s.sizes.get? d = none) ∨
      (d ∉ rest ∧ s.Spared o.target.maxLoadBits d)

/-- No visit can rewrite anything. -/
structure Still (o : LowerOptions) (func : OpId) (s : Application) : Prop where
  calm : ∀ x, s.graph.Inside func x → s.graph.kind x ≠ .upd → s.Calm o x
  halved : s.graph.Halved func o.target.maxLoadBits
  loads : ∀ d, s.graph.Inside func d → s.graph.kind d = .upd → s.Spared o.target.maxLoadBits d

/-! ## Visits -/

variable (o func size) in
theorem ready_visitsKeep :
    VisitsKeep o.ruleSet o.target.conversionTarget func (Ready func size) := by
  intro s op s' h hin hv
  obtain ⟨gone, hup⟩ := h.upright
  have hgoes := goes_of_visit hup hin hv
  obtain ⟨hup', hstirred⟩ := LowerOptions.upright_of_visited hup hin hgoes
  refine ⟨⟨hup', ?_, ?_⟩, hstirred⟩
  · cases hgoes with
    | same hg => exact hg ▸ h.lanes
    | rewritten b old r hrw => exact hrw.spliced.hasLanes hin hrw.lawful h.lanes
  · exact hgoes.keys (hin.hasOp hup.scene.consistent.toNestingAgrees) h.keys

theorem Ready.ground (h : Ready func size s) :
    ∃ gone, Consistent s.graph gone ∧ ¬ s.graph.Inside func func := h.upright.ground

section

variable (ho : o.target = .aieml)
include ho

/-- Of what rules make, only loads do not rest. -/
theorem rests_of_isLowered (hl : (g.kind x).isLowered = true) (hk : g.kind x ≠ .upd) :
    o.ruleSet.Rests o.target.conversionTarget g x := by
  refine .of_no_rule fun e he hroot => ?_
  have tables : (aiemlRules o.shift).all fun r => !r.roots.contains .fma := rfl
  have hmem : e.rule ∈ aiemlRules o.shift := by
    unfold LowerOptions.ruleSet at he
    rw [ho] at he
    exact RuleSet.mem_entries_ofList he
  rcases root_of_isLowered he hroot hl with hk' | hk'
  · exact hk hk'
  · have := List.all_eq_true.mp tables e.rule hmem
    rw [hk'] at hroot
    simp [hroot] at this

namespace Application

/-- What a visit leaves alone is calm, unless it is a load. -/
theorem calm_of_idle {Q : AccessSizes → AccessSizes → Prop} {c₀ : AccessSizes}
    (hk : s.graph.kind op ≠ .upd) (hg : s'.graph = s.graph)
    (hidle : Idle o.ruleSet o.target.conversionTarget Q c₀ s op s') : s'.Calm o op := by
  unfold Calm
  rw [hg]
  cases hidle with
  | legal c hlegal _ => exact Or.inr (rests_of_legal ho hk hlegal)
  | already hrejected hsame =>
    exact Or.inl (isRejected_mono (hsame ▸ List.prefix_refl _) hrejected)
  | refused e reason _ _ _ hnoted =>
    refine Or.inl ?_
    rw [isRejected, hnoted, List.any_append]
    simp
  | declined hall _ =>
    refine Or.inr (rests_of_declined hk fun e he hroot => ?_)
    obtain ⟨c, c', -, hrun⟩ := hall e he hroot
    exact ⟨c, c', hrun⟩

omit ho in
theorem Calm.same (h : s.Calm o x) (hg : s'.graph = s.graph) (hr : s.rejected <+: s'.rejected) :
    s'.Calm o x :=
  h.imp (isRejected_mono hr) fun hrests => hg ▸ hrests

omit ho in
theorem Calm.not_rewrites {Q : AccessSizes → AccessSizes → Prop} {c₀ : AccessSizes}
    (h : s.Calm o op) (hv : s.visitOp o.ruleSet o.target.conversionTarget op = .ok s') :
    ¬ Rewrites o.ruleSet o.target.conversionTarget Q func gone c₀ s op s' b old r := by
  intro hrw
  rcases h with hrejected | hrests
  · have := hrw.changes.symm.trans (changes_of_isRejected hrejected hv)
    omega
  · exact hrests.not_rewrites hrw

section

variable {Q : AccessSizes → AccessSizes → Prop} {c₀ : AccessSizes}
  (hI : Ready func size s) (h : Scene s.graph gone func) (hin : s.graph.Inside func op)
  (hrw : Rewrites o.ruleSet o.target.conversionTarget Q func gone c₀ s op s' b old r)
include hI h hin hrw

/-- What is calm stays so when something goes that it does not look behind, or is a product that
has come loose. -/
theorem Calm.rewritten (hcalm : s.Calm o x) (hk : s.graph.kind x ≠ .upd)
    (hx : s.graph.Inside func x) (hne : x ≠ op)
    (hread : old ∈ s.graph.operands x → s.graph.kind op ∉ watchedKinds) :
    s'.Calm o x ∨
      (s'.graph.Loose x ∧ (s.graph.kind op = .addi ∨ s.graph.kind op = .addf)) := by
  rcases hcalm with hrejected | hrests
  · exact Or.inl (Or.inl (isRejected_mono (hrw.rejected ▸ List.prefix_refl _) hrejected))
  · exact (hrests.spliced ho hk hrw.spliced h hin hrw.lawful hx (hI.lanes x hx) hne hread).imp_left
      Or.inr

end

end Application

/-! ## The first round -/

omit ho in
/-- What does not read results that are still to come does not read them after a rewrite. -/
theorem FirstRound.behind_rewritten {Q : AccessSizes → AccessSizes → Prop} {c₀ : AccessSizes}
    (hscene : Scene t.graph gone func) (hp : Pending g₀ t.graph func (op :: rest))
    (h : FirstRound o func (op :: rest) t)
    (hrw : Rewrites o.ruleSet o.target.conversionTarget Q func gone c₀ t op t' b old r)
    {q : OpId} {v : ValueId} (hx : t'.graph.Inside func x) (hxr : x ∉ rest) (hq : q ∈ rest)
    (hv : v ∈ t'.graph.results q) : v ∉ t'.graph.operands x := by
  have hs := hrw.spliced
  have hin := hp.inside op (List.mem_cons_self ..)
  have hqin := hp.tail.inside q hq
  have hqop : q ≠ op := fun e => hp.head_not_mem (e ▸ hq)
  rw [hs.results_of_hasOp (hqin.hasOp hs.before.toNestingAgrees)] at hv
  have hvalue := hs.before.hasValue_of_mem_results hv
  have hold : v ≠ old := by
    rintro rfl
    exact hqop (hs.eq_of_old_mem_results hv)
  intro hmem
  -- Either the reader was there before, or the plan has made it.
  rcases (hs.inside_iff hin).mp hx with ⟨hx, hne⟩ | hx
  · rw [hs.operands_of_inside hscene hx] at hmem
    obtain ⟨w, hw, e⟩ := List.mem_map.mp hmem
    rw [renamed_eq_iff hvalue hold] at e
    exact h.behind x hx (by simp [hne, hxr]) q (List.mem_cons_of_mem _ hq) v hv (e ▸ hw)
  · obtain ⟨i, e, he, rfl⟩ := mem_nextOps_all.mp hx
    rw [hs.operands_made he, List.map_map] at hmem
    obtain ⟨source, hsource, e⟩ := List.mem_map.mp hmem
    -- A step of the plan reads what the operation saw, and that lies before what is still to come.
    have hfine := (hrw.lawful.visible i _ he).reads source hsource
    cases source with
    | value w =>
      obtain rfl : w = v := (renamed_eq_iff hvalue hold).mp e
      exact hp.not_visible hq hv hfine
    | step j =>
      have e : renamed old (t.graph.standIn r) ⟨t.graph.values.size + j⟩ = v := e
      rw [hs.renamed_step] at e
      exact not_hasValue_add j (e ▸ hvalue)

theorem FirstRound.visit (hI : Ready func size t) (hp : Pending g₀ t.graph func (op :: rest))
    (h : FirstRound o func (op :: rest) t)
    (hv : t.visitOp o.ruleSet o.target.conversionTarget op = .ok t') : FirstRound o func rest
      t' := by
  obtain ⟨gone, hup⟩ := hI.upright
  have hin := hp.inside op (List.mem_cons_self ..)
  have hk : t.graph.kind op ≠ .upd := fun hk => (h.loads op hin hk).1 (List.mem_cons_self ..)
  have visited : ∀ {x}, x ≠ op → x ∉ rest → x ∉ op :: rest := fun hne hxr => by simp [hne, hxr]
  cases goes_of_visit hup hin hv with
  | same hg _ hrejected hsizes hidle =>
    refine ⟨fun x hx hxr hkx => ?_, fun x hx hxr q hq v hv => ?_, hg ▸ h.halved, fun d hd hkd => ?_⟩
    · rw [hg] at hx hkx
      by_cases e : x = op
      · exact Or.inl (e ▸ calm_of_idle ho hk hg hidle)
      · exact (h.calm x hx (visited e hxr) hkx).imp (·.same hg hrejected) fun hl => hg ▸ hl
    · rw [hg] at hx hv ⊢
      by_cases e : x = op
      · exact fun hmem => hp.not_visible hq hv
          (hup.scene.ordered.visible op hin v (e ▸ hmem))
      · exact h.behind x hx (visited e hxr) q (List.mem_cons_of_mem _ hq) v hv
    · rw [hg] at hd hkd ⊢
      obtain ⟨hnot, hfront, hnone⟩ := h.loads d hd hkd
      refine ⟨fun hmem => hnot (List.mem_cons_of_mem _ hmem), hfront, ?_⟩
      rw [hsizes.eq_of_ne hk, hnone]
  | rewritten b old r hrw =>
    have hs := hrw.spliced
    have hr := hrw.lawful
    have hop : ∀ {x}, t.graph.Inside func x → t.graph.HasOp x := fun hx =>
      hx.hasOp hs.before.toNestingAgrees
    have hnew : ∀ i, (⟨t.graph.ops.size + i⟩ : OpId) ∉ rest := fun i hmem =>
      not_hasOp_add i (hop (hp.tail.inside _ hmem))
    -- Loads are made from reads only, and start in front.
    have hfront : ∀ (i : Nat) (e : Step), r.all[i]? = some e → e.kind = .upd →
        e.attrs.intOrZero AttrName.offset = 0 := by
      intro i e he hke
      have hread : t.graph.kind op = .transferRead :=
        ((hr.steps i e he).loads hke).1.1.resolve_right hk
      obtain ⟨e', he', hroot, c, c', -, hrun, -⟩ := hrw.rule
      rw [rule_of_transferRead he' (hread ▸ hroot)] at hrun
      exact inFront_of_run hup.scene hin hr hread hrun (List.mem_of_getElem? he) hke
    refine ⟨fun x hx hxr hkx => ?_,
      fun x hx hxr q hq v hv => h.behind_rewritten hup.scene hp hrw hx hxr hq hv,
      h.halved.spliced hs hin hr fun i e he hke => Or.inl (hfront i e he hke), fun d hd hkd => ?_⟩
    · rcases (hs.inside_iff hin).mp hx with ⟨hx, hne⟩ | hx
      · rw [hs.kind_of_hasOp (hop hx)] at hkx
        rcases h.calm x hx (visited hne hxr) hkx with hcalm | hloose
        · have hunread : old ∉ t.graph.operands x :=
            h.behind x hx (visited hne hxr) op (List.mem_cons_self ..) old (by simp [hs.single])
          exact (hcalm.rewritten ho hI hup.scene hin hrw hkx hx hne
            fun hmem => absurd hmem hunread).imp_right And.left
        · exact Or.inr (hloose.spliced hs hr hx hne)
      · obtain ⟨i, e, he, rfl⟩ := mem_nextOps_all.mp hx
        refine Or.inl (Or.inr (rests_of_isLowered ho ?_ hkx))
        rw [hs.kind_made he]
        exact (hr.steps i e he).lowered
    · rcases (hs.inside_iff hin).mp hd with ⟨hd, hne⟩ | hd
      · rw [hs.kind_of_hasOp (hop hd)] at hkd
        obtain ⟨hnot, hfront, hnone⟩ := h.loads d hd hkd
        refine ⟨fun hmem => hnot (List.mem_cons_of_mem _ hmem), ?_, ?_⟩
        · rw [updOffset, hs.attrs_of_hasOp (hop hd)]
          exact hfront
        · exact hrw.get?_kept hne hnone
      · obtain ⟨i, e, he, rfl⟩ := mem_nextOps_all.mp hd
        rw [hs.kind_made he] at hkd
        refine ⟨hnew i, ?_, hrw.get?_made hI.keys i⟩
        rw [updOffset, hs.attrs_made he]
        exact hfront i e he hkd

/-! ## The second round -/

/-- What comes out of a rewrite in the second round. -/
theorem SecondRound.rewritten (hI : Ready func size t) (hup : Upright t.graph gone func size)
    (hp : Pending g₀ t.graph func (op :: rest)) (h : SecondRound o func (op :: rest) t)
    (hv : t.visitOp o.ruleSet o.target.conversionTarget op = .ok t')
    (hrw : Rewrites o.ruleSet o.target.conversionTarget (AsksAtMost t.graph op) func gone t.sizes t
      op t' b old r) : SecondRound o func rest t' := by
  have hin := hp.inside op (List.mem_cons_self ..)
  have hs := hrw.spliced
  have hr := hrw.lawful
  have hop : ∀ {x}, t.graph.Inside func x → t.graph.HasOp x := fun hx =>
    hx.hasOp hs.before.toNestingAgrees
  have hnew : ∀ i, (⟨t.graph.ops.size + i⟩ : OpId) ∉ rest := fun i hmem =>
    not_hasOp_add i (hop (hp.tail.inside _ hmem))
  have later : ∀ {x}, x ≠ op → x ∈ op :: rest → x ∈ rest := fun hne hx =>
    (List.mem_cons.mp hx).resolve_left hne
  -- What goes is a loose product or a load in front.
  have hkind : t.graph.kind op = .upd ∨ t.graph.Loose op := by
    by_cases hk : t.graph.kind op = .upd
    · exact Or.inl hk
    · exact (h.calm op hin hk).elim (fun hcalm => absurd hrw (hcalm.not_rewrites hv))
        fun hloose => Or.inr hloose.1
  have hfront : t.graph.kind op = .upd → t.graph.updOffset op = 0 := fun hk =>
    (h.loads op hin hk).elim (fun hload => hload.2.1) fun hspared =>
      absurd (List.mem_cons_self ..) hspared.1
  have hsum : ¬ (t.graph.kind op = .addi ∨ t.graph.kind op = .addf) := by
    rcases hkind with hk | ⟨hk | hk, -⟩ <;> rw [hk] <;> decide
  have hload : ∀ (i : Nat) (e : Step), r.all[i]? = some e → e.kind = .upd →
      t.graph.kind op = .upd := by
    intro i e he hke
    refine ((hr.steps i e he).loads hke).1.1.resolve_left fun hread => ?_
    rcases hkind with hk | ⟨hk | hk, -⟩ <;> rw [hk] at hread <;> cases hread
  refine ⟨fun x hx hkx => ?_, h.halved.spliced hs hin hr fun i e he hke =>
    (settled_of_split hup hin hrw (hload i e he hke) he).1, fun d hd hkd => ?_⟩
  · rcases (hs.inside_iff hin).mp hx with ⟨hx, hne⟩ | hx
    · rw [hs.kind_of_hasOp (hop hx)] at hkx
      by_cases hl : (t.graph.kind x).isLowered = true
      · refine Or.inl (Or.inr (rests_of_isLowered ho ?_ ?_))
        · rwa [hs.kind_of_hasOp (hop hx)]
        · rwa [hs.kind_of_hasOp (hop hx)]
      -- Nobody else reads a loose product, and a load is nothing to look behind.
      have hread : old ∈ t.graph.operands x → t.graph.kind op ∉ watchedKinds := by
        intro hmem
        rcases hkind with hk | hloose
        · rw [hk]
          decide
        · obtain ⟨u, hu, huser⟩ :=
            hs.before.mem_uses_of_mem_operands (hup.scene.not_mem_gone hx hmem) hmem
          exact absurd (huser ▸ hloose.readers old (by simp [hs.single]) u hu) hl
      rcases h.calm x hx hkx with hcalm | ⟨hloose, hxr⟩
      · exact (hcalm.rewritten ho hI hup.scene hin hrw hkx hx hne hread).imp_right
          fun hl => absurd hl.2 hsum
      · exact Or.inr ⟨hloose.spliced hs hr hx hne, later hne hxr⟩
    · obtain ⟨i, e, he, rfl⟩ := mem_nextOps_all.mp hx
      refine Or.inl (Or.inr (rests_of_isLowered ho ?_ hkx))
      rw [hs.kind_made he]
      exact (hr.steps i e he).lowered
  · rcases (hs.inside_iff hin).mp hd with ⟨hd, hne⟩ | hd
    · rw [hs.kind_of_hasOp (hop hd)] at hkd
      rcases h.loads d hd hkd with ⟨hdr, hzero, hnone⟩ | ⟨hdr, hspared⟩
      · refine Or.inl ⟨later hne hdr, ?_, ?_⟩
        · rw [updOffset, hs.attrs_of_hasOp (hop hd)]
          exact hzero
        · exact hrw.get?_kept hne hnone
      · refine Or.inr ⟨fun hmem => hdr (List.mem_cons_of_mem _ hmem), ?_⟩
        refine hspared.rewritten hup hrw hd hne fun hk => ?_
        rw [hfront hk]
        exact Int.natCast_pos.mpr o.target.maxLoadBits_bounds.1
    · obtain ⟨i, e, he, rfl⟩ := mem_nextOps_all.mp hd
      rw [hs.kind_made he] at hkd
      exact Or.inr ⟨hnew i, spared_of_split hup hin hrw (hload i e he hkd) hI.keys he⟩

theorem SecondRound.visit (hI : Ready func size t) (hp : Pending g₀ t.graph func (op :: rest))
    (h : SecondRound o func (op :: rest) t)
    (hv : t.visitOp o.ruleSet o.target.conversionTarget op = .ok t') :
    SecondRound o func rest t' := by
  obtain ⟨gone, hup⟩ := hI.upright
  have hin := hp.inside op (List.mem_cons_self ..)
  have later : ∀ {x}, x ≠ op → x ∈ op :: rest → x ∈ rest := fun hne hx =>
    (List.mem_cons.mp hx).resolve_left hne
  cases goes_of_visit hup hin hv with
  -- Nothing was changed, so the operation is calm, or spared if it is a load.
  | same hg _ hrejected hsizes hidle =>
    refine ⟨fun x hx hkx => ?_, hg ▸ h.halved, fun d hd hkd => ?_⟩
    · rw [hg] at hx hkx
      by_cases e : x = op
      · subst e
        exact Or.inl (calm_of_idle ho hkx hg hidle)
      · exact (h.calm x hx hkx).imp (·.same hg hrejected) fun hl => ⟨hg ▸ hl.1, later e hl.2⟩
    · rw [hg] at hd hkd
      by_cases e : d = op
      · subst e
        refine Or.inr ⟨hp.head_not_mem, ?_⟩
        refine spared_of_idle hup h.halved hd hkd ?_ hg hsizes hidle
        exact (h.loads d hd hkd).elim (fun hload => hload.2.2) fun hspared =>
          absurd (List.mem_cons_self ..) hspared.1
      -- The others have not been visited now, and only the size of `op` may have become known.
      · refine (h.loads d hd hkd).imp (fun hload => ?_) fun hspared => ?_
        · rw [hg, hsizes.get?_of_ne e]
          exact ⟨later e hload.1, hload.2⟩
        · exact ⟨fun hmem => hspared.1 (List.mem_cons_of_mem _ hmem),
            hspared.2.same hup h.halved hg hrejected hsizes hd hkd⟩
  | rewritten b old r hrw => exact h.rewritten ho hI hup hp hv hrw

end

end SimdLowering
