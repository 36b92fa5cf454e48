/-
Sizes that are remembered stay what loads contribute.

What a load contributes depends on the loads that read its result, and these come and go. A rewrite
forgets the sizes of what the new operations read, so a load that gains a reader is measured anew.
It does not forget the sizes of what the old operation read. That does no harm unless the old one is
a load: both halves of a split load from where it did, so what gave the address is read again; but
neither carries what it carried. So the size that is remembered of a load goes out of date in one
way only, namely when a load that carries it is split.

Where the loads that carry others start behind what one load may contribute, as in what the rules
make of reads that are short enough, this never happens: such a load contributes no more than it
may, and as long as sizes are right nobody splits it.
-/
import SimdLowering.Proofs.Settled.Leftovers

set_option autoImplicit false

namespace SimdLowering

open SimdLowering.Graph SimdLowering.Application SimdLowering.Rules

variable {o : LowerOptions} {g g' : Graph} {gone : List OpId} {func op d n : OpId}
  {size bound m : Nat}
  {c c' : AccessSizes} {s s' : Application} {b : BlockId} {v old : ValueId} {r : Recipe}
  {Q : AccessSizes → AccessSizes → Prop} {c₀ : AccessSizes}

/-! ## What is forgotten -/

/-- Nothing is remembered of what is forgotten. -/
theorem AccessSizes.get?_invalidateAll_of_mem {ops : List OpId} (h : d ∈ ops) :
    (c.invalidateAll ops).get? d = none := by
  induction ops generalizing c with
  | nil => cases h
  | cons o ops ih =>
    by_cases hmem : d ∈ ops
    · exact ih hmem
    · obtain rfl := (List.mem_cons.mp h).resolve_right hmem
      refine Option.eq_none_iff_forall_not_mem.mpr fun n hn => ?_
      have hkept : (c.invalidate d).get? d = some n := get?_of_invalidateAll hn
      rw [get?_invalidate, if_pos rfl] at hkept
      cases hkept

namespace Graph

/-- What defines something that the operations read is among its producers. -/
theorem mem_producersOf (hc : Consistent g gone) {ops touched : List OpId}
    (h : g.producersOf ops = .ok touched) (hn : n ∈ ops) (hv : v ∈ g.operands n)
    (hd : v ∈ g.results d) : d ∈ touched := by
  obtain ⟨found, hfound, h⟩ := bind_eq_ok.mp h
  cases h
  have answers : ∀ {read : List ValueId} {found}, List.Forall₂
      (fun v x => g.definingOp? v = .ok x) read found → v ∈ read → some d ∈ found := by
    intro read found hall hmem
    induction hall with
    | nil => cases hmem
    | @cons w x read found hx _ ih =>
      rcases List.mem_cons.mp hmem with rfl | hmem
      · obtain ⟨hvalue, horigin⟩ := (mem_results_iff hc).mp hd
        rw [definingOp?, lookup, value?_eq_some hvalue] at hx
        cases hx
        exact horigin ▸ List.mem_cons_self ..
      · exact List.mem_cons_of_mem _ (ih hmem)
  exact List.mem_filterMap.mpr
    ⟨some d, answers (forall₂_of_mapM hfound) (List.mem_flatMap.mpr ⟨n, hn, hv⟩), rfl⟩

end Graph

/-- Nothing is remembered of what the new operations read. -/
theorem Application.Rewrites.forgets (h : Scene s.graph gone func)
    (hrw : Rewrites o.ruleSet o.target.conversionTarget Q func gone c₀ s op s' b old r) {i : Nat}
    {e : Step} (he : r.all[i]? = some e) (hread : .value v ∈ e.operands)
    (hv : v ∈ s.graph.results d) : s'.sizes.get? d = none := by
  obtain ⟨-, -, -, c, c', touched, -, -, htouched, hforget⟩ := hrw.rule
  obtain ⟨g₁, hrun, hmade, hc₁⟩ := addRecipe_created h.consistent hrw.lawful.fine
  rw [hrun] at htouched
  have hoperand : v ∈ g₁.operands ⟨s.graph.ops.size + i⟩ := by
    rw [operands, hmade.op_new he]
    exact List.mem_map.mpr ⟨.value v, hread, rfl⟩
  have hresult : v ∈ g₁.results d := by
    rw [results, hmade.op, if_pos (hasOp_of_mem_results hv)]
    exact hv
  have hnew : (⟨s.graph.ops.size + i⟩ : OpId) ∈ (Edits.mk (s.graph.nextOps r.steps.length)
      (.replace ⟨s.graph.ops.size + r.steps.length⟩)).newOps := by
    have hmem : (⟨s.graph.ops.size + i⟩ : OpId) ∈ s.graph.nextOps r.all.length :=
      mem_nextOps_all.mpr ⟨i, e, he, rfl⟩
    rwa [nextOps_all] at hmem
  rw [hforget]
  exact AccessSizes.get?_invalidateAll_of_mem
    (List.mem_cons_of_mem _ (mem_producersOf hc₁ htouched hnew hoperand hresult))

/-- Neither is anything of what goes. -/
theorem Application.Rewrites.ne_of_get?
    (hrw : Rewrites o.ruleSet o.target.conversionTarget Q func gone c₀ s op s' b old r)
    (hn : s'.sizes.get? d = some m) : d ≠ op := by
  rintro rfl
  obtain ⟨-, -, -, c, c', touched, -, -, -, hforget⟩ := hrw.rule
  rw [hforget, AccessSizes.get?_invalidateAll_of_mem (List.mem_cons_self ..)] at hn
  cases hn

/-! ## What goes out of date -/

/-- The load reads a result of the operation, but not to know where to load from. -/
def Graph.CarriesResult (g : Graph) (op d : OpId) : Prop :=
  g.kind op = .upd ∧ ∃ v ∈ g.results d, v ∈ g.operands op ∧
    ∀ access, g.memAccess? op = .ok (some access) → v ∉ access.source :: access.indices

section

variable (h : Upright s.graph gone func size) (hin : s.graph.Inside func op)
  (hrw : Rewrites o.ruleSet o.target.conversionTarget (AsksAtMost s.graph op) func gone s.sizes s
    op s' b old r)
include h hin hrw

/-- A value whose definer is still remembered is carried after a rewrite as it was, unless a load
that carries it is what goes. -/
theorem Application.Rewrites.carried_kept (hv : v ∈ s.graph.results d) (hne : d ≠ op)
    (hn : s'.sizes.get? d = some m) (hcarries : ¬ s.graph.CarriesResult op d) :
    s'.graph.carried v = s.graph.carried v := by
  have hs := hrw.spliced
  have hc := hs.before
  have hvalue := hc.hasValue_of_mem_results hv
  have hold : v ≠ old := by
    rintro rfl
    exact hne (hs.eq_of_old_mem_results hv)
  have unread : ∀ {i : Nat} {e : Step}, r.all[i]? = some e → .value v ∉ e.operands := by
    intro i e he hread
    rw [hrw.forgets h.scene he hread hv] at hn
    cases hn
  -- A load that goes and reads the value reads it to load from there, and so do its halves.
  have hgoes : s.graph.kind op = .upd → v ∉ s.graph.operands op := by
    intro hk hmem
    refine hcarries ⟨hk, v, hv, hmem, fun access haccess hread => ?_⟩
    obtain ⟨entry, hentry, hroot, c, c', -, hrun, -⟩ := hrw.rule
    rw [rule_of_upd hentry (hk ▸ hroot)] at hrun
    obtain ⟨access', haccess', ty, hall⟩ := split_of_run h.scene hin hrw.lawful hk hrun
    obtain rfl := Option.some.inj (Except.ok.inj (haccess.symm.trans haccess'))
    refine unread (i := 0) (by rw [hall]; rfl) ?_
    rcases List.mem_cons.mp hread with rfl | hread
    · exact List.mem_cons_self ..
    · simp [loadStep, Instr.upd, Draft.withAttr, Draft.pureOp, hread]
  refine carried_congr hc hs.after (fun u => ?_) fun u hu _ => ?_
  · rw [hs.mem_uses_of_hasValue hvalue hold]
    constructor
    · rintro ⟨⟨hu, hother⟩ | ⟨i, e, he, -, hslot⟩, hk⟩
      · rw [hs.kind_of_hasOp (hasOp_of_mem_operands (hc.mem_operands_of_mem_uses hu))] at hk
        exact ⟨hu, hk⟩
      · exact absurd (List.mem_of_getElem? hslot) (unread he)
    · rintro ⟨hu, hk⟩
      have hmem := hc.mem_operands_of_mem_uses hu
      refine ⟨Or.inl ⟨hu, fun e => hgoes (e ▸ hk) (e ▸ hmem)⟩, ?_⟩
      rw [hs.kind_of_hasOp (hasOp_of_mem_operands hmem), hk]
  · rw [updOffset, updOffset,
      hs.attrs_of_hasOp (hasOp_of_mem_operands (hc.mem_operands_of_mem_uses hu))]

/-- If what is remembered is what loads contribute, then so it is after a rewrite of all but what
the old operation carried. -/
theorem Application.Rewrites.fresh (hagrees : s.sizes.Agrees s.graph)
    (hn : s'.sizes.get? d = some m) (hcarries : ¬ s.graph.CarriesResult op d)
    (hoffsets : ∀ v ∈ s'.graph.results d, ∀ u ∈ s'.graph.uses v, s'.graph.kind u.user = .upd →
      0 ≤ s'.graph.updOffset u.user) : s'.graph.accessSize d = .ok m := by
  have hs := hrw.spliced
  have hne := hrw.ne_of_get? hn
  have hsize := hagrees d m (hrw.get?_sizes hne hn)
  cases hhead : (s.graph.results d).head? with
  | none =>
    unfold accessSize at hsize
    rw [hhead] at hsize
    cases hsize
  | some v =>
    have hv : v ∈ s.graph.results d := List.mem_of_mem_head? hhead
    have hop := hasOp_of_mem_results hv
    have hhead' : (s'.graph.results d).head? = some v := by rw [hs.results_of_hasOp hop, hhead]
    have hoffset : s'.graph.updOffset d = s.graph.updOffset d := by
      rw [updOffset, updOffset, hs.attrs_of_hasOp hop]
    exact accessSize_congr hhead hhead' (hs.resultShape?_of_hasOp hop) hoffset
      (hrw.carried_kept h hin hv hne hn hcarries) (hoffsets v (List.mem_of_mem_head? hhead')) hsize

end

/-! ## Where nothing goes out of date -/

/-- The reads and loads under the function are short, the loads start in front or behind what one
load may contribute, and those in front carry nothing. -/
structure Graph.Layered (g : Graph) (func : OpId) (bound : Nat) : Prop where
  halved : g.Halved func bound
  front : ∀ d, g.Inside func d → g.kind d = .upd → g.updOffset d = 0 →
    ∃ access, g.memAccess? d = .ok (some access) ∧
      g.operands d = access.source :: access.indices

namespace Graph.Layered

/-- A function without loads is layered if its reads are short. -/
theorem of_unloaded (hnone : ∀ d, g.Inside func d → g.kind d ≠ .upd)
    (hshort : ∀ d, g.Inside func d → g.kind d = .transferRead →
      ∀ shape, g.resultShape? d = some shape → shape.bits ≤ 2 * bound) : g.Layered func bound :=
  ⟨⟨fun d hd hk => hshort d hd (hk.resolve_right (hnone d hd)),
    fun d hd hk => absurd hk (hnone d hd)⟩, fun d hd hk => absurd hk (hnone d hd)⟩

/-- A load in front carries nothing. -/
theorem not_carries (h : g.Layered func bound) (hin : g.Inside func op)
    (hfront : g.kind op = .upd → g.updOffset op = 0) (d : OpId) : ¬ g.CarriesResult op d := by
  rintro ⟨hk, v, -, hmem, hother⟩
  obtain ⟨access, haccess, hops⟩ := h.front op hin hk (hfront hk)
  exact hother access haccess (hops ▸ hmem)

end Graph.Layered

/-- A load that a rewrite makes with as many indices as its memory has dimensions reads nothing
else. -/
theorem Graph.Spliced.memAccess?_made (hs : Spliced g g' gone op b old r) (h : Scene g gone func)
    (hr : r.Lawful g func op) {i : Nat} {e : Step} {rest : List Source} (he : r.all[i]? = some e)
    (hops : e.operands = .value v :: rest) (hrank : (g.value v).ty.memoryRank = rest.length) :
    ∃ access, g'.memAccess? ⟨g.ops.size + i⟩ = .ok (some access) ∧
      g'.operands ⟨g.ops.size + i⟩ = access.source :: access.indices := by
  have hfine : g.AtHand func op v := (hr.fine i e he).reads (.value v) (by simp [hops])
  have hv : g.HasValue v := hfine.visible.hasValue h.consistent
  unfold memAccess?
  rw [hs.operands_made he, hops, List.map_cons, List.map_cons, MemAccess.split?, Source.valueFrom,
    valueTy_of_hasValue (hs.hasValue_renamed hv), hs.ty_renamed_of_hasValue hr hv]
  simp only [Functor.map, Except.map, bind, Except.bind, pure, Except.pure, List.length_map, hrank,
    lt_irrefl, if_false]
  exact ⟨_, rfl, by simp⟩

section

variable (h : Upright s.graph gone func size) (hin : s.graph.Inside func op)
  (hrw : Rewrites o.ruleSet o.target.conversionTarget (AsksAtMost s.graph op) func gone s.sizes s
    op s' b old r)
include h hin hrw

/-- The loads that a rewrite makes start in front, and then read nothing but where they load from,
or behind. -/
theorem Application.Rewrites.layered_made {i : Nat} {e : Step} (he : r.all[i]? = some e)
    (hk : e.kind = .upd) :
    (e.attrs.intOrZero AttrName.offset = 0 ∧
      ∃ access, s'.graph.memAccess? ⟨s.graph.ops.size + i⟩ = .ok (some access) ∧
        s'.graph.operands ⟨s.graph.ops.size + i⟩ = access.source :: access.indices) ∨
      e.attrs.intOrZero AttrName.offset = o.target.maxLoadBits := by
  have hs := hrw.spliced
  have hr := hrw.lawful
  have hmem := List.mem_of_getElem? he
  obtain ⟨entry, hentry, hroot, c, c', -, hrun, -⟩ := hrw.rule
  -- A load comes from a read or from a load, and the rule says how it is written.
  rcases ((hr.steps i e he).loads hk).1.1 with hread | hload
  · rw [rule_of_transferRead hentry (hread ▸ hroot)] at hrun
    obtain ⟨access, haccess, hplain, -⟩ := plain_of_run h.scene hin hr hread hrun
    obtain ⟨-, -, -, hrank⟩ := (h.scene.memAccess? hin).of_eq_ok haccess access rfl
    obtain ⟨ty, indices, rfl, hlen⟩ := hplain e hmem hk
    refine Or.inl ⟨rfl, hs.memAccess?_made h.scene hr he rfl ?_⟩
    rw [← hrank, ← hlen]
    simp
  · rw [rule_of_upd hentry (hload ▸ hroot)] at hrun
    obtain ⟨access, haccess, ty, hall⟩ := split_of_run h.scene hin hr hload hrun
    obtain ⟨-, -, -, hrank⟩ := (h.scene.memAccess? hin).of_eq_ok haccess access rfl
    rw [hall] at hmem
    -- Of the two halves the first one reads memory, and the second one has the offset of a whole
    -- load.
    rcases List.mem_pair.mp hmem with rfl | rfl
    · refine Or.inl ⟨rfl, hs.memAccess?_made h.scene hr he rfl ?_⟩
      rw [← hrank]
      simp
    · exact Or.inr rfl

/-- Layers stay layers. -/
theorem Graph.Layered.rewritten (hl : s.graph.Layered func o.target.maxLoadBits) :
    s'.graph.Layered func o.target.maxLoadBits := by
  have hs := hrw.spliced
  refine ⟨hl.halved.spliced hs hin hrw.lawful fun i e he hk =>
    (hrw.layered_made h hin he hk).imp_left And.left, fun d hd hk hzero => ?_⟩
  -- What is left alone is read through the renaming; what is made keeps to the form that its rule
  -- writes.
  rcases (hs.inside_iff hin).mp hd with ⟨hd, -⟩ | hd
  · have hop := hd.hasOp hs.before.toNestingAgrees
    rw [hs.kind_of_hasOp hop] at hk
    rw [updOffset, hs.attrs_of_hasOp hop] at hzero
    obtain ⟨access, haccess, hops⟩ := hl.front d hd hk hzero
    refine ⟨access.map (renamed old (s.graph.standIn r)), ?_, ?_⟩
    · rw [hs.memAccess?_eq h.scene hrw.lawful hd, haccess]
      rfl
    · rw [hs.operands_of_inside h.scene hd, hops]
      rfl
  · obtain ⟨i, e, he, rfl⟩ := mem_nextOps_all.mp hd
    rw [hs.kind_made he] at hk
    rw [updOffset, hs.attrs_made he] at hzero
    rcases hrw.layered_made h hin he hk with ⟨-, hfront⟩ | hbehind
    · exact hfront
    · have := o.target.maxLoadBits_bounds.1
      omega

end

/-- Loads are layered, and what is remembered is what they contribute, of no others than those under
the function. -/
structure Fresh (o : LowerOptions) (func : OpId) (size : Nat) (s : Application) : Prop where
  upright : UprightAt func size s
  layered : s.graph.Layered func o.target.maxLoadBits
  known : ∀ d n, s.sizes.get? d = some n → s.graph.Inside func d
  agrees : s.sizes.Agrees s.graph

/-- To begin with nothing is remembered. -/
theorem Fresh.start (h : Upright g gone func g.ops.size)
    (hlayered : g.Layered func o.target.maxLoadBits) :
    Fresh o func g.ops.size (.start g .empty) where
  upright := ⟨gone, h⟩
  layered := hlayered
  known _ _ hn := by cases hn
  agrees := AccessSizes.agrees_empty g

/-- What is split starts in front, as long as sizes are right. -/
theorem Fresh.front (h : Fresh o func size s) (hup : Upright s.graph gone func size)
    (hin : s.graph.Inside func op)
    (hv : s.visitOp o.ruleSet o.target.conversionTarget op = .ok s')
    (hrw : Rewrites o.ruleSet o.target.conversionTarget Q func gone s.sizes s op s' b old r)
    (hk : s.graph.kind op = .upd) : s.graph.updOffset op = 0 := by
  refine (h.layered.halved.offsets op hin hk).resolve_right fun hbehind => ?_
  have hlight : s.graph.Light o.target.maxLoadBits op := Or.inr (Or.inl (Int.le_of_eq hbehind.symm))
  have hspared : s.Spared o.target.maxLoadBits op := Or.inr (Or.inr ⟨hlight, fun n hn =>
    (light_iff_of_upright hup h.layered.halved hin hk (h.agrees op n hn)).mpr hlight⟩)
  exact hspared.not_rewrites hup h.layered.halved hin hk hv hrw

variable (o func size) in
theorem fresh_visitsKeep :
    VisitsKeep o.ruleSet o.target.conversionTarget func (Fresh o func size) := by
  intro s op s' h hin hv
  obtain ⟨gone, hup⟩ := h.upright
  have hgoes := goes_of_visit hup hin hv
  obtain ⟨hup', hstirred⟩ := LowerOptions.upright_of_visited hup hin hgoes
  cases hgoes with
  | same hg _ _ hsizes _ =>
    refine ⟨⟨hup', hg ▸ h.layered, fun d n hn => ?_, hg ▸ hsizes.agrees h.agrees⟩, hstirred⟩
    rw [hg]
    -- Only the size of `op` can have become known in the visit.
    by_cases e : d = op
    · exact e ▸ hin
    · exact h.known d n (hsizes.get?_of_ne e ▸ hn)
  | rewritten b old r hrw =>
    obtain ⟨gone', hup'⟩ := hup'
    -- Nothing that is remembered is carried by the load that was split, so all sizes stay true.
    have hcarries := h.layered.not_carries hin (h.front hup hin hv hrw)
    have hlayered := h.layered.rewritten hup hin hrw
    have hknown : ∀ d n, s'.sizes.get? d = some n → s'.graph.Inside func d := fun d n hn =>
      (hrw.spliced.inside_iff hin).mpr
        (Or.inl ⟨h.known d n (hrw.get?_sizes (hrw.ne_of_get? hn) hn), hrw.ne_of_get? hn⟩)
    refine ⟨⟨⟨gone', hup'⟩, hlayered, hknown, fun d n hn => ?_⟩, hstirred⟩
    exact hrw.fresh hup hin h.agrees hn (hcarries d) fun v hv u hu hk =>
      hlayered.halved.nonneg_of_reads hup'.scene.consistent hup'.valid (hknown d n hn) hv hu hk

/-- Take any function with a history that validates and in which every operation has the operands
and results of its kind, and whose loads, if there are any, are layered. However many visits have
been made, and whatever sizes have been asked for since the last one, every answer to the question
for the size of a load is what the load contributes on the graph as it is. -/
theorem Graph.answers_fresh {edits : List Edit} (history : Edit.replay edits = .ok (g, gone))
    (hreads : ∀ v, g.uses v ≠ [] → g.HasValue v) (hfunc : g.HasOp func) (hvalid : g.Validates func)
    (hshaped : ∀ op, g.Inside func op → g.WellShaped op)
    (hlayered : g.Layered func o.target.maxLoadBits)
    (hvisits : Relation.ReflTransGen (VisitTo o.ruleSet o.target.conversionTarget func)
      (.start g .empty) s)
    (hasked : AccessSizes.Extends s.graph s.sizes c) (hanswer : c.query s.graph d = .ok (m, c')) :
    s.graph.accessSize d = .ok m := by
  have hstart := Fresh.start (.of_replay history hreads hfunc hvalid hshaped) hlayered
  have hend := (fresh_visitsKeep o func g.ops.size).visits hstart hvisits
  rcases hasked.query_cases hanswer with hknown | ⟨-, hsize⟩
  · exact hend.agrees d m hknown
  · exact hsize

/-! ## Where something does -/

/-- The history of a function with two loads, of which the second one carries the first. -/
def carriedHistory : List Edit :=
  [.createBlock [.memory [64] (.i 32), .index],
    .createOp (Instr.upd (.vector 32 (.i 32)) ⟨0⟩ [⟨1⟩] 256 0 none), .append ⟨0⟩ ⟨0⟩,
    .createOp (Instr.upd (.vector 32 (.i 32)) ⟨0⟩ [⟨1⟩] 256 1 (some ⟨2⟩)), .append ⟨0⟩ ⟨1⟩,
    .createOp (Instr.ret [⟨3⟩]), .append ⟨0⟩ ⟨2⟩, .createRegion [⟨0⟩],
    .createOp (Instr.func "carried" ⟨0⟩)]

/-- The graph the history ends with. -/
def carriedGraph : Graph where
  ops := #[⟨.upd, [⟨0⟩, ⟨1⟩], [⟨2⟩],
      .ofList [(AttrName.index, .int 0), (AttrName.offset, .int 256)], [], some ⟨0⟩⟩,
    ⟨.upd, [⟨0⟩, ⟨1⟩, ⟨2⟩], [⟨3⟩],
      .ofList [(AttrName.index, .int 1), (AttrName.offset, .int 256)], [], some ⟨0⟩⟩,
    ⟨.ret, [⟨3⟩], [], .empty, [], some ⟨0⟩⟩,
    ⟨.func, [], [], .ofList [(AttrName.symName, .str "carried")], [⟨0⟩], none⟩]
  values := #[⟨.argument ⟨0⟩ 0, .memory [64] (.i 32)⟩, ⟨.argument ⟨0⟩ 1, .index⟩,
    ⟨.result ⟨0⟩ 0, .vector 32 (.i 32)⟩, ⟨.result ⟨1⟩ 0, .vector 32 (.i 32)⟩]
  blocks := #[⟨[⟨0⟩, ⟨1⟩], [⟨0⟩, ⟨1⟩, ⟨2⟩], some ⟨0⟩⟩]
  regions := #[⟨[⟨0⟩], some ⟨3⟩⟩]
  chains := #[[⟨⟨0⟩, 0⟩, ⟨⟨1⟩, 0⟩], [⟨⟨0⟩, 1⟩, ⟨⟨1⟩, 1⟩], [⟨⟨1⟩, 2⟩], [⟨⟨2⟩, 0⟩]]

/-- The graph after the second load is split. -/
def uncarriedGraph : Graph where
  ops := #[⟨.upd, [⟨0⟩, ⟨1⟩], [⟨2⟩],
      .ofList [(AttrName.index, .int 0), (AttrName.offset, .int 256)], [], some ⟨0⟩⟩,
    ⟨.upd, [⟨0⟩, ⟨1⟩, ⟨2⟩], [⟨3⟩],
      .ofList [(AttrName.index, .int 1), (AttrName.offset, .int 256)], [], none⟩,
    ⟨.ret, [⟨5⟩], [], .empty, [], some ⟨0⟩⟩,
    ⟨.func, [], [], .ofList [(AttrName.symName, .str "carried")], [⟨0⟩], none⟩,
    ⟨.upd, [⟨0⟩, ⟨1⟩], [⟨4⟩],
      .ofList [(AttrName.index, .int 0), (AttrName.offset, .int 0)], [], some ⟨0⟩⟩,
    ⟨.upd, [⟨0⟩, ⟨1⟩, ⟨4⟩], [⟨5⟩],
      .ofList [(AttrName.index, .int 1), (AttrName.offset, .int 512)], [], some ⟨0⟩⟩]
  values := #[⟨.argument ⟨0⟩ 0, .memory [64] (.i 32)⟩, ⟨.argument ⟨0⟩ 1, .index⟩,
    ⟨.result ⟨0⟩ 0, .vector 32 (.i 32)⟩, ⟨.result ⟨1⟩ 0, .vector 32 (.i 32)⟩,
    ⟨.result ⟨4⟩ 0, .vector 32 (.i 32)⟩, ⟨.result ⟨5⟩ 0, .vector 32 (.i 32)⟩]
  blocks := #[⟨[⟨0⟩, ⟨1⟩], [⟨0⟩, ⟨4⟩, ⟨5⟩, ⟨2⟩], some ⟨0⟩⟩]
  regions := #[⟨[⟨0⟩], some ⟨3⟩⟩]
  chains := #[[⟨⟨0⟩, 0⟩, ⟨⟨4⟩, 0⟩, ⟨⟨5⟩, 0⟩], [⟨⟨0⟩, 1⟩, ⟨⟨4⟩, 1⟩, ⟨⟨5⟩, 1⟩], [], [],
    [⟨⟨5⟩, 2⟩], [⟨⟨2⟩, 0⟩]]

/-- Without layers it is otherwise: once the load that carries it has been split, what is remembered
of the first load is out of date. -/
theorem Graph.answers_fresh_carried : Edit.replay carriedHistory = .ok (carriedGraph, []) ∧
    carriedGraph.Validates ⟨3⟩ ∧ (∀ op, carriedGraph.Inside ⟨3⟩ op → carriedGraph.WellShaped op) ∧
    ∃ s, Relation.ReflTransGen (VisitTo (⟨.aie, 0, 10, true⟩ : LowerOptions).ruleSet
        Generation.aie.conversionTarget ⟨3⟩) (.start carriedGraph .empty) s ∧
      s.sizes.query s.graph ⟨0⟩ = .ok (512, s.sizes) ∧ s.graph.accessSize ⟨0⟩ = .ok 768 := by
  have history : Edit.replay carriedHistory = .ok (carriedGraph, []) := by cbv
  have hlist : carriedGraph.nested ⟨3⟩ = [⟨0⟩, ⟨1⟩, ⟨2⟩] := by decide
  have inside : ∀ {op}, op ∈ carriedGraph.nested ⟨3⟩ → carriedGraph.Inside ⟨3⟩ op :=
    mem_nested_iff.mp
  refine ⟨history, .of_replay history rfl (by cbv), fun op hop => ?_,
    ⟨uncarriedGraph, ⟨[(⟨0⟩, 512)]⟩, [], 1⟩, ?_, rfl, rfl⟩
  · have hmem := mem_nested_iff.mpr hop
    rw [hlist] at hmem
    simp only [List.mem_cons, List.not_mem_nil, or_false] at hmem
    rcases hmem with rfl | rfl | rfl
    · exact ⟨fun _ => rfl, fun _ _ => ⟨_, rfl⟩, by decide, fun _ h => by cases h⟩
    · exact ⟨fun _ => rfl, fun _ _ => ⟨_, rfl⟩, by decide, fun _ h => by cases h⟩
    · exact ⟨fun _ => rfl, fun _ h => absurd rfl h, by decide, fun _ h => by cases h⟩
  -- The first load is measured before the second one is halved.
  · have measured : VisitTo (⟨.aie, 0, 10, true⟩ : LowerOptions).ruleSet
        Generation.aie.conversionTarget ⟨3⟩ (.start carriedGraph .empty)
        ⟨carriedGraph, ⟨[(⟨0⟩, 512)]⟩, [], 0⟩ :=
      ⟨⟨0⟩, inside (by decide), rfl⟩
    -- Halving the second one takes the first one's reader away, and its size stays remembered.
    have halves : Application.tryRules ⟨1⟩
        (((⟨.aie, 0, 10, true⟩ : LowerOptions).ruleSet.forKind .upd).map RuleEntry.rule)
        ⟨carriedGraph, ⟨[(⟨1⟩, 768), (⟨0⟩, 512)]⟩, [], 0⟩ =
          .ok ⟨uncarriedGraph, ⟨[(⟨0⟩, 512)]⟩, [], 1⟩ := by
      cbv
    have split : VisitTo (⟨.aie, 0, 10, true⟩ : LowerOptions).ruleSet
        Generation.aie.conversionTarget ⟨3⟩ ⟨carriedGraph, ⟨[(⟨0⟩, 512)]⟩, [], 0⟩
        ⟨uncarriedGraph, ⟨[(⟨0⟩, 512)]⟩, [], 1⟩ :=
      ⟨⟨1⟩, inside (by decide),
        bind_eq_ok.mpr ⟨(.illegal, ⟨[(⟨1⟩, 768), (⟨0⟩, 512)]⟩), rfl, halves⟩⟩
    exact .tail (.single measured) split

end SimdLowering
