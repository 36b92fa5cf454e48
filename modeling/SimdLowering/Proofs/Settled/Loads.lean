/-
Loads come to rest.

In the first round loads are made of reads, all of them in front, and nobody asks for their size.
In the second round each is visited, and when its turn comes the loads that may carry it have not
been visited and so still start in front: what the load contributes is its whole length. It is
found to be short, or is split, and in either case is settled. A settled load is split no more,
whoever reads it goes on reading it, and nobody new ever does, so settled it stays.

Round by round the same is kept: each load is settled, or its turn is still to come and nothing
starts behind it. This holds as long as nothing was refused, on either generation, where no read
is longer than two halves that fit.
-/
import SimdLowering.Proofs.Settled.Reads

set_option autoImplicit false

namespace SimdLowering

open SimdLowering.Graph SimdLowering.Application SimdLowering.Rules

variable {o : LowerOptions} {g g₀ g' : Graph} {gone : List OpId} {func op x d : OpId}
  {size n bound : Nat} {s t t' : Application} {b : BlockId} {v old : ValueId} {r : Recipe}
  {rest : List OpId}

/-- What each visit keeps: the function is upright, and sizes are remembered of what is there. -/
structure Tended (func : OpId) (size : Nat) (s : Application) : Prop where
  upright : UprightAt func size s
  keys : ∀ d n, s.sizes.get? d = some n → s.graph.HasOp d

variable (o func size) in
theorem tended_visitsKeep :
    VisitsKeep o.ruleSet o.target.conversionTarget func (Tended func size) := by
  intro s op s' h hin hv
  obtain ⟨gone, hup⟩ := h.upright
  have hgoes := goes_of_visit hup hin hv
  obtain ⟨hup', hstirred⟩ := LowerOptions.upright_of_visited hup hin hgoes
  exact ⟨⟨hup', hgoes.keys (hin.hasOp hup.scene.consistent.toNestingAgrees) h.keys⟩, hstirred⟩

theorem Tended.ground (h : Tended func size s) :
    ∃ gone, Consistent s.graph gone ∧ ¬ s.graph.Inside func func := h.upright.ground

/-! ## The first round -/

/-- What has been visited in the first round is no read, or an idle one; and the loads are new, in
front and addressed, and nobody has asked for their size. -/
structure FirstLoads (func : OpId) (rest : List OpId) (s : Application) : Prop where
  reads : ∀ x, s.graph.Inside func x → s.graph.kind x = .transferRead → x ∉ rest →
    s.graph.IdleRead x
  loads : ∀ d, s.graph.Inside func d → s.graph.kind d = .upd →
    d ∉ rest ∧ s.graph.updOffset d = 0 ∧ s.sizes.get? d = none
  addressed : ∀ d, s.graph.Inside func d → s.graph.kind d = .upd → s.graph.Addressed d

theorem FirstLoads.visit (hI : Tended func size t) (hp : Pending g₀ t.graph func (op :: rest))
    (h : FirstLoads func (op :: rest) t)
    (hv : t.visitOp o.ruleSet o.target.conversionTarget op = .ok t')
      (hrejected : t'.rejected = []) :
    FirstLoads func rest t' := by
  obtain ⟨gone, hup⟩ := hI.upright
  have hin := hp.inside op (List.mem_cons_self ..)
  have hk : t.graph.kind op ≠ .upd := fun hk => (h.loads op hin hk).1 (List.mem_cons_self ..)
  have visited : ∀ {x}, x ≠ op → x ∉ rest → x ∉ op :: rest := fun hne hxr => by simp [hne, hxr]
  cases goes_of_visit hup hin hv with
  | same hg _ _ hsizes hidle =>
    refine ⟨fun x hx hkx hxr => ?_, fun d hd hkd => ?_, hg ▸ h.addressed⟩
    · rw [hg] at hx hkx ⊢
      by_cases e : x = op
      · exact e ▸ idleRead_of_idle (e ▸ hkx) hrejected hidle
      · exact h.reads x hx hkx (visited e hxr)
    · rw [hg] at hd hkd ⊢
      obtain ⟨hnot, hfront, hnone⟩ := h.loads d hd hkd
      refine ⟨fun hmem => hnot (List.mem_cons_of_mem _ hmem), hfront, ?_⟩
      rw [hsizes.eq_of_ne hk, hnone]
  | rewritten b old r hrw =>
    have hs := hrw.spliced
    have hr := hrw.lawful
    have hop : ∀ {x}, t.graph.Inside func x → t.graph.HasOp x := fun hx =>
      hx.hasOp hs.before.toNestingAgrees
    -- Loads are made from reads only, and start in front.
    have hfront : ∀ (i : Nat) (e : Step), r.all[i]? = some e → e.kind = .upd →
        e.attrs.intOrZero AttrName.offset = 0 := by
      intro i e he hke
      have hread : t.graph.kind op = .transferRead :=
        ((hr.steps i e he).loads hke).1.1.resolve_right hk
      obtain ⟨e', he', hroot, c, c', -, hrun, -⟩ := hrw.rule
      rw [rule_of_transferRead he' (hread ▸ hroot)] at hrun
      exact inFront_of_run hup.scene hin hr hread hrun (List.mem_of_getElem? he) hke
    refine ⟨fun x hx hkx hxr => ?_, fun d hd hkd => ?_,
      hrw.forall_addressed hup.scene hin h.addressed⟩
    · rcases (hs.inside_iff hin).mp hx with ⟨hx, hne⟩ | hx
      · rw [hs.kind_of_hasOp (hop hx)] at hkx
        exact (h.reads x hx hkx (visited hne hxr)).spliced hs hup.scene hr hx
      · obtain ⟨i, e, he, rfl⟩ := mem_nextOps_all.mp hx
        have hlowered := (hr.steps i e he).lowered
        rw [← hs.kind_made he, hkx] at hlowered
        cases hlowered
    · rcases (hs.inside_iff hin).mp hd with ⟨hd, hne⟩ | hd
      · rw [hs.kind_of_hasOp (hop hd)] at hkd
        obtain ⟨hnot, hzero, hnone⟩ := h.loads d hd hkd
        refine ⟨fun hmem => hnot (List.mem_cons_of_mem _ hmem), ?_, hrw.get?_kept hne hnone⟩
        rw [updOffset, hs.attrs_of_hasOp (hop hd)]
        exact hzero
      · obtain ⟨i, e, he, rfl⟩ := mem_nextOps_all.mp hd
        rw [hs.kind_made he] at hkd
        refine ⟨fun hmem => not_hasOp_add i (hop (hp.tail.inside _ hmem)), ?_,
          hrw.get?_made hI.keys i⟩
        rw [updOffset, hs.attrs_made he]
        exact hfront i e he hkd

/-! ## Later rounds -/

/-- The turn of the load is still to come, and all is as it was when it was made: it starts in
front, as do the loads that carry it, and nobody has asked for its size. -/
structure Awaited (rest : List OpId) (s : Application) (d : OpId) : Prop where
  pending : d ∈ rest
  front : s.graph.updOffset d = 0
  unknown : s.sizes.get? d = none
  uncarried : ∀ v ∈ s.graph.results d, ∀ u ∈ s.graph.uses v, s.graph.kind u.user = .upd →
    s.graph.updOffset u.user = 0

/-- The load is settled, and no more is remembered of it than it may contribute. -/
structure Quiet (bound : Nat) (s : Application) (d : OpId) : Prop where
  settled : s.graph.Settled bound d
  known : ∀ n, s.sizes.get? d = some n → n ≤ bound

/-- After the first round reads are idle, and loads are settled or still to come. -/
structure LaterLoads (o : LowerOptions) (func : OpId) (rest : List OpId) (s : Application) :
    Prop where
  reads : ∀ x, s.graph.Inside func x → s.graph.kind x = .transferRead → s.graph.IdleRead x
  halved : s.graph.Halved func o.target.maxLoadBits
  addressed : ∀ d, s.graph.Inside func d → s.graph.kind d = .upd → s.graph.Addressed d
  loads : ∀ d, s.graph.Inside func d → s.graph.kind d = .upd →
    Awaited rest s d ∨ Quiet o.target.maxLoadBits s d

/-- Where nothing starts behind, a load is light only if it is short. -/
theorem Awaited.settled_of_light (h : Awaited rest s d) (hbound : 0 < bound)
    (hlight : s.graph.Light bound d) : s.graph.Settled bound d := by
  rcases hlight with hshort | hbehind | ⟨v, hv, u, hu, hk, hbehind⟩
  · exact Or.inl hshort
  · exact Or.inr (Or.inl hbehind)
  · rw [h.uncarried v hv u hu hk] at hbehind
    omega

theorem Quiet.spared (h : Quiet bound s d) : s.Spared bound d :=
  Or.inr (Or.inr ⟨h.settled.light, h.known⟩)

/-- The first round ends as later rounds begin. -/
theorem FirstLoads.later (hI : Tended func size s) (h : FirstLoads func [] s)
    (hshort : ∀ d, s.graph.Inside func d → s.graph.kind d = .transferRead ∨ s.graph.kind d = .upd →
      ∀ shape, s.graph.resultShape? d = some shape → shape.bits ≤ 2 * o.target.maxLoadBits) :
    LaterLoads o func (s.graph.postorder func) s := by
  obtain ⟨gone, hup⟩ := hI.upright
  have hc := hup.scene.consistent
  refine ⟨fun x hx hk => h.reads x hx hk List.not_mem_nil,
    ⟨hshort, fun d hd hk => Or.inl (h.loads d hd hk).2.1⟩, h.addressed, fun d hd hk => ?_⟩
  obtain ⟨-, hfront, hnone⟩ := h.loads d hd hk
  refine Or.inl ⟨(mem_postorder hc hup.valid.acyclic).mpr hd, hfront, hnone,
    fun v hv u hu hku => ?_⟩
  obtain ⟨hin, -⟩ := (hup.valid.mem_uses hc (Or.inr ⟨d, hd, hv⟩)).mp hu
  exact (h.loads u.user hin hku).2.1

/-- So does every later round. -/
theorem LaterLoads.again (h : LaterLoads o func [] s) :
    LaterLoads o func (s.graph.postorder func) s :=
  ⟨h.reads, h.halved, h.addressed, fun d hd hk =>
    (h.loads d hd hk).imp_left fun ha => absurd ha.pending List.not_mem_nil⟩

/-! ### Splices -/

/-- A load that is settled stays so if no load goes that starts behind. -/
theorem Graph.Settled.spliced (hset : g.Settled bound d) (hs : Spliced g g' gone op b old r)
    (h : Scene g gone func) (hin : g.Inside func op) (hr : r.Lawful g func op)
    (hd : g.Inside func d) (hne : d ≠ op) (hfront : g.kind op = .upd → g.updOffset op < bound) :
    g'.Settled bound d := by
  have hop := hd.hasOp hs.before.toNestingAgrees
  refine hset.imp (fun hshort => ?_) (Or.imp (fun hbehind => ?_) ?_)
  · rwa [hs.resultShape?_of_hasOp hop]
  · rwa [updOffset, hs.attrs_of_hasOp hop]
  rintro ⟨v, hres, hread, hall⟩
  have hv : v ∈ g.results d := by simp [hres]
  have hold : v ≠ old := by
    rintro rfl
    exact hne (hs.eq_of_old_mem_results hv)
  -- Loads that start behind are not what goes, and are nothing to look through.
  have hreaders : ∀ p, g.Inside func p → v ∈ g.operands p →
      p ≠ op ∧ (g.kind p).isTransparent = false := by
    intro p hp hmem
    obtain ⟨u, hu, rfl⟩ := hs.before.mem_uses_of_mem_operands (h.not_mem_gone hp hmem) hmem
    obtain ⟨hk, hbehind⟩ := hall u hu
    refine ⟨fun e => ?_, by rw [hk]; rfl⟩
    rw [e] at hk hbehind
    exact absurd (hfront hk) (by omega)
  have huses : ∀ u, u ∈ g'.uses v ↔ u ∈ g.uses v := fun u =>
    hs.mem_uses_of_opaque hin hr (hs.before.hasValue_of_mem_results hv) hold hreaders
  refine ⟨v, by rw [hs.results_of_hasOp hop, hres], ?_, fun u hu => ?_⟩
  · obtain ⟨u, hu⟩ := List.exists_mem_of_ne_nil _ hread
    exact List.ne_nil_of_mem ((huses u).mpr hu)
  · have hu := (huses u).mp hu
    have hreader := hasOp_of_mem_operands (hs.before.mem_operands_of_mem_uses hu)
    rw [hs.kind_of_hasOp hreader, updOffset, hs.attrs_of_hasOp hreader]
    exact hall u hu

section

variable (hp : Pending g₀ t.graph func (op :: rest))
  (hrw : Rewrites o.ruleSet o.target.conversionTarget (AsksAtMost t.graph op) func gone t.sizes t op
    t' b old r)
include hp hrw

/-- A load whose turn is still to come awaits it after a rewrite. -/
theorem Awaited.rewritten (h : Scene t.graph gone func) (ha : Awaited (op :: rest) t d)
    (hne : d ≠ op) : Awaited rest t' d := by
  have hs := hrw.spliced
  have hmem : d ∈ rest := (List.mem_cons.mp ha.pending).resolve_left hne
  have hop := (hp.tail.inside d hmem).hasOp hs.before.toNestingAgrees
  refine ⟨hmem, ?_, hrw.get?_kept hne ha.unknown, fun v hv u hu hk => ?_⟩
  · rw [updOffset, hs.attrs_of_hasOp hop]
    exact ha.front
  · rw [hs.results_of_hasOp hop] at hv
    have hu := (hp.mem_uses_spliced h hs hrw.lawful hmem hv).mp hu
    have hreader := hasOp_of_mem_operands (hs.before.mem_operands_of_mem_uses hu)
    rw [hs.kind_of_hasOp hreader] at hk
    rw [updOffset, hs.attrs_of_hasOp hreader]
    exact ha.uncarried v hv u hu hk

/-- What comes out of a rewrite in a later round. -/
theorem LaterLoads.rewritten (hI : Tended func size t) (hup : Upright t.graph gone func size)
    (h : LaterLoads o func (op :: rest) t)
    (hv : t.visitOp o.ruleSet o.target.conversionTarget op = .ok t') : LaterLoads o func rest
      t' := by
  have hin := hp.inside op (List.mem_cons_self ..)
  have hs := hrw.spliced
  have hr := hrw.lawful
  have hop : ∀ {x}, t.graph.Inside func x → t.graph.HasOp x := fun hx =>
    hx.hasOp hs.before.toNestingAgrees
  -- A load that goes starts in front, since one that is quiet does not go.
  have hfront : t.graph.kind op = .upd → t.graph.updOffset op = 0 := fun hk =>
    (h.loads op hin hk).elim Awaited.front fun hquiet =>
      absurd hrw (hquiet.spared.not_rewrites hup h.halved hin hk hv)
  have hload : ∀ (i : Nat) (e : Step), r.all[i]? = some e → e.kind = .upd →
      t.graph.kind op = .upd := by
    intro i e he hke
    refine ((hr.steps i e he).loads hke).1.1.resolve_left fun hread => ?_
    exact hrw.ne_of_idleRead hread (h.reads op hin hread) rfl
  refine ⟨fun x hx hk => ?_, h.halved.spliced hs hin hr fun i e he hke =>
    (settled_of_split hup hin hrw (hload i e he hke) he).1,
    hrw.forall_addressed hup.scene hin h.addressed, fun d hd hk => ?_⟩
  · rcases (hs.inside_iff hin).mp hx with ⟨hx, -⟩ | hx
    · rw [hs.kind_of_hasOp (hop hx)] at hk
      exact (h.reads x hx hk).spliced hs hup.scene hr hx
    · obtain ⟨i, e, he, rfl⟩ := mem_nextOps_all.mp hx
      have hlowered := (hr.steps i e he).lowered
      rw [← hs.kind_made he, hk] at hlowered
      cases hlowered
  · rcases (hs.inside_iff hin).mp hd with ⟨hd, hne⟩ | hd
    · rw [hs.kind_of_hasOp (hop hd)] at hk
      refine (h.loads d hd hk).imp (fun ha => ha.rewritten hp hrw hup.scene hne) fun hquiet => ?_
      refine ⟨hquiet.settled.spliced hs hup.scene hin hr hd hne fun hk => ?_,
        fun n hn => hquiet.known n (hrw.get?_sizes hne hn)⟩
      rw [hfront hk]
      exact Int.natCast_pos.mpr o.target.maxLoadBits_bounds.1
    · obtain ⟨i, e, he, rfl⟩ := mem_nextOps_all.mp hd
      rw [hs.kind_made he] at hk
      refine Or.inr ⟨(settled_of_split hup hin hrw (hload i e he hk) he).2, fun n hn => ?_⟩
      rw [hrw.get?_made hI.keys] at hn
      cases hn

end

/-! ### Visits -/

theorem LaterLoads.visit (hI : Tended func size t) (hp : Pending g₀ t.graph func (op :: rest))
    (h : LaterLoads o func (op :: rest) t)
    (hv : t.visitOp o.ruleSet o.target.conversionTarget op = .ok t')
      (hrejected : t'.rejected = []) :
    LaterLoads o func rest t' := by
  obtain ⟨gone, hup⟩ := hI.upright
  have hin := hp.inside op (List.mem_cons_self ..)
  cases goes_of_visit hup hin hv with
  | same hg _ _ hsizes hidle =>
    refine ⟨hg ▸ h.reads, hg ▸ h.halved, hg ▸ h.addressed, fun d hd hk => ?_⟩
    rw [hg] at hd hk
    rcases h.loads d hd hk with ha | hquiet
    · by_cases e : d = op
      · -- A load that is visited and left alone is found to be light.
        subst e
        refine Or.inr ?_
        rcases spared_of_idle hup h.halved hd hk ha.unknown hg hsizes hidle with
          hnoted | hnone | ⟨hlight, hknown⟩
        · rw [isRejected, hrejected] at hnoted
          cases hnoted
        · obtain ⟨access, haccess⟩ := h.addressed d hd hk
          rw [hg, haccess] at hnone
          cases hnone
        · rw [hg] at hlight
          exact ⟨hg ▸ ha.settled_of_light o.target.maxLoadBits_bounds.1 hlight, hknown⟩
      · refine Or.inl ⟨(List.mem_cons.mp ha.pending).resolve_left e, hg ▸ ha.front, ?_,
          hg ▸ ha.uncarried⟩
        rw [hsizes.get?_of_ne e, ha.unknown]
    · exact Or.inr ⟨hg ▸ hquiet.settled,
        known_of_light hup h.halved hquiet.settled.light hd hk hsizes hquiet.known⟩
  | rewritten b old r hrw => exact h.rewritten hp hrw hI hup hv

end SimdLowering
