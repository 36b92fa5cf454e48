/-
The default pipeline does its work once.

When dead operations go, what is settled and still alive is settled after all: a load that only
loads behind it read is read by one that is left. So a lowering that leaves nothing behind and the
clean-up after it end with a function in final form without dead operations, and such a function
the pipeline leaves alone, whatever is remembered or forgotten between the runs.

One thing is asked of the function: it is built by the constructors of the generic vocabulary. A
product with two results shows why. That no number gets too large in the second run is not assumed;
the loads that are left have been measured, and with fewer readers they carry no more than before.
-/
import SimdLowering.Proofs.Settled.Lowering

set_option autoImplicit false

namespace SimdLowering

open SimdLowering.Graph

variable {o : LowerOptions} {gen : Generation} {g g' : Graph} {gone : List OpId} {func d x : OpId}
  {bound : Nat}

namespace Graph.Cleared

variable (h : Cleared g g')
include h

/-- A load has the offset it had. -/
theorem updOffset (d : OpId) : g'.updOffset d = g.updOffset d := by
  rw [Graph.updOffset, Graph.updOffset, h.attrs]

/-- And types are what they were. -/
theorem resultTypes (d : OpId) : g'.resultTypes d = g.resultTypes d := by
  simp only [Graph.resultTypes, typesOf, value, h.results, h.value?]

/-- Of values as well. -/
theorem typesOf (vs : List ValueId) : g'.typesOf vs = g.typesOf vs := by
  simp only [Graph.typesOf, value, h.value?]

/-- So what was well shaped is. -/
theorem wellShaped (hx : g.WellShaped x) : g'.WellShaped x := by
  refine ⟨?_, ?_, ?_, ?_⟩
  · rw [h.kind, h.regionsOf]
    exact hx.bare
  · rw [h.kind, h.results]
    exact hx.single
  · rw [h.kind, h.operands]
    exact hx.arity
  · rw [h.kind, h.operands, h.typesOf, h.resultTypes]
    exact hx.typed

/-- And loads keep to halves. -/
theorem halved (hg : g.Halved func bound) : g'.Halved func bound := by
  refine ⟨fun d hd hk => ?_, fun d hd hk => ?_⟩
  · rw [h.kind] at hk
    rw [h.resultShape?]
    exact hg.short d (h.inside hd) hk
  · rw [h.kind] at hk
    rw [h.updOffset]
    exact hg.offsets d (h.inside hd) hk

/-- A value that is not read by more is carried by no more, where no load starts before it begins.
-/
theorem carried_le {v : ValueId} (hc : Consistent g' gone)
    (hoffsets : ∀ u ∈ g.uses v, g.kind u.user = .upd → 0 ≤ g.updOffset u.user) :
    g'.carried v ≤ g.carried v := by
  have hkinds : (fun u : Use => g'.kind u.user == .upd) = fun u => g.kind u.user == .upd :=
    funext fun u => by rw [h.kind]
  obtain ⟨l, hperm, hsub⟩ := List.subperm_of_subset (hc.readOnce v) (h.uses v)
  rw [carried, carried, hkinds, totalOffset_congr fun u _ => h.updOffset u.user,
    ← totalOffset_perm (hperm.filter _)]
  refine totalOffset_le (hsub.filter _) fun u hu => ?_
  obtain ⟨hu, hk⟩ := List.mem_filter.mp hu
  exact hoffsets u hu (by simpa using hk)

/-- A load that could be measured still can. -/
theorem exists_accessSize {v : ValueId} {n : Nat} (hc : Consistent g' gone)
    (hres : g.results d = [v])
    (hoffsets : ∀ u ∈ g.uses v, g.kind u.user = .upd → 0 ≤ g.updOffset u.user)
    (hn : g.accessSize d = .ok n) : ∃ m, g'.accessSize d = .ok m := by
  refine exists_accessSize_of_le (v := v) (by rw [hres]; rfl) (by rw [h.results, hres]; rfl)
    (h.resultShape? d) (h.updOffset d) (h.carried_le hc hoffsets) (fun u hu hk => ?_) hn
  rw [h.updOffset]
  exact hoffsets u (h.uses v hu) (by rw [← h.kind, hk])

/-- A load that is settled and not dead is settled when dead operations have gone: of the loads
that read it one is left. -/
theorem settled (hk : g.kind d = .upd) (hbare : g.regionsOf d = []) (hlive : g'.isDead d = false)
    (hset : g.Settled bound d) : g'.Settled bound d := by
  refine hset.imp (fun hshort => ?_) (Or.imp (fun hbehind => ?_) ?_)
  · rwa [h.resultShape?]
  · rwa [h.updOffset]
  rintro ⟨v, hres, -, hall⟩
  refine ⟨v, by rw [h.results, hres], fun hunread => ?_, fun u hu => ?_⟩
  · refine Bool.noConfusion (hlive.symm.trans (isDead_eq_true.mpr ⟨?_, ?_, fun w hw => ?_⟩))
    · rw [h.kind, hk]
      rfl
    · rw [h.regionsOf, hbare]
    · rw [h.results, hres, List.mem_singleton] at hw
      rw [hw, hunread]
  · rw [h.kind, h.updOffset]
    exact hall u (h.uses v hu)

end Graph.Cleared

/-- What a lowering has left that may stay is in final form once dead operations have gone. -/
theorem final_of_cleared {gone₀ : List OpId} {size : Nat} (hup : Upright g gone₀ func size)
    (h : Cleared g g') (hc : Consistent g' gone) (hvalid : g'.Valid func gone)
    (hlive : ∀ x, g'.Inside func x → g'.isDead x = false) (hhalved : g.Halved func gen.maxLoadBits)
    (hsettled : ∀ d, g.Inside func d → g.kind d = .upd →
      g.Settled gen.maxLoadBits d ∧ ∃ n, g.accessSize d = .ok n)
    (hstays : ∀ x, g.Inside func x → g.kind x ≠ .upd → ∀ c, ∃ verdict,
      gen.conversionTarget.legality g x c = .ok (verdict, c) ∧ verdict ≠ .illegal) :
    g'.Final gen func := by
  intro x hx c hagrees
  have hin := h.inside hx
  have hwell := hup.scene.shaped x hin
  -- Only loads are judged by their size, which clearing can change; all other checks answer as
  -- before.
  by_cases hk : g.kind x = .upd
  · have hk' : g'.kind x = .upd := by rw [h.kind, hk]
    obtain ⟨v, hres⟩ := hup.scene.single_of_kind hin (by rw [hk]; decide) (by rw [hk]; decide)
    obtain ⟨hset, m, hm⟩ := hsettled x hin hk
    have hset := h.settled hk (hwell.bare (by rw [hk]; decide)) (hlive x hx) hset
    obtain ⟨n, hsize⟩ := h.exists_accessSize hc hres (fun u hu hku =>
      hhalved.nonneg_of_reads hup.scene.consistent hup.valid hin (by simp [hres]) hu hku) hm
    obtain ⟨hpos, hword⟩ := gen.maxLoadBits_bounds
    have hle : n ≤ gen.maxLoadBits := ((h.halved hhalved).light_iff hpos hword hc hvalid hx hk'
      (by rw [h.results, hres]) hsize).mpr hset.light
    obtain ⟨c', hquery⟩ := hagrees.exists_query hsize
    refine ⟨_, c', Generation.legality_of_query hk' hquery, ?_⟩
    rw [if_pos hle]
    decide
  · obtain ⟨verdict, hlegal, hnot⟩ := hstays x hin hk c
    obtain ⟨verdict', hlegal', hnot'⟩ :=
      Generation.legality_cleared h hc hwell hk (hlive x hx) hlegal hnot
    exact ⟨verdict', c, hlegal', hnot'⟩

namespace Graph

/-- Take any function with a history that validates, reads nothing that is still to come and is made
by constructors of the generic vocabulary, and any options. If the default pipeline succeeds and
leaves nothing behind that may not stay, then verification from scratch finds nothing in the
function it ends with, and the same pipeline succeeds on that function as well, rewrites nothing,
removes nothing, and ends with the very function it was given. -/
theorem run_again {edits : List Edit} (history : Edit.replay edits = .ok (g, gone))
    (hreads : ∀ v, g.uses v ≠ [] → g.HasValue v) (hvalid : g.Validates func)
    (hmade : ∀ op, g.Inside func op → g.Made op)
    {report : PipelineReport}
    (hrun : (Pipeline.withDefaultCleanups o).run g func = .ok (g', .ok report))
    (hleft : report.lowering.remaining = []) :
    (∃ sizes, o.target.conversionTarget.verify g' func .empty = .ok ([], sizes)) ∧
      ∃ again, (Pipeline.withDefaultCleanups o).run g' func = .ok (g', .ok again) ∧
        again.lowering.rewrites = 0 ∧ again.lowering.remaining = [] ∧
        again.cleanups = [("dce", 0)] := by
  obtain ⟨⟨g₁, lowered⟩, hlower, hrun⟩ := bind_eq_ok.mp hrun
  cases lowered with
  | error e => cases hrun
  | ok lowering =>
    obtain ⟨⟨g₂, cleanups⟩, hcleanups, hrun⟩ := bind_eq_ok.mp hrun
    cases hrun
    have hfunc : g.HasOp func := (lower_eq_ok hlower).1
    have hup : Upright g gone func g.ops.size :=
      .of_replay history hreads hfunc hvalid fun op hop => (hmade op hop).wellShaped
    have hnone : ∀ d, g.Inside func d → g.kind d ≠ .upd := by
      intro d hd hk
      obtain ⟨draft, hdraft, hmatches⟩ := hmade d hd
      have := hdraft.dialect_ne
      rw [← hmatches.kind, hk] at this
      exact this rfl
    obtain ⟨⟨gone₁, hup₁⟩, hkind, hhalved, hsettled, hstays⟩ :=
      lower_settles hup hlower hleft hnone
    -- The clean-up ends without dead operations.
    obtain ⟨g₃, result, hsweep, hcleared, ⟨gone₃, hc₃, hvalid₃⟩, hlive⟩ :=
      eliminateDead_complete hup₁.scene.consistent hup₁.valid
    obtain rfl : g₃ = g' := by
      obtain ⟨⟨g₄, n⟩, hclean, hcleanups⟩ := bind_eq_ok.mp hcleanups
      obtain ⟨⟨g₅, result₅⟩, hsweep₅, hclean⟩ := bind_eq_ok.mp hclean
      rw [hsweep] at hsweep₅
      cases hsweep₅
      cases hclean
      obtain ⟨-, -, hcleanups⟩ := bind_eq_ok.mp hcleanups
      cases hcleanups
      rfl
    have hfinal : g₃.Final o.target func :=
      final_of_cleared hup₁ hcleared hc₃ hvalid₃ hlive hhalved hsettled hstays
    obtain ⟨sizes, hverify⟩ := hfinal.verify (AccessSizes.agrees_empty g₃)
    have hop : g₃.HasOp func := Nat.lt_of_lt_of_eq hup₁.root hcleared.opsSize.symm
    obtain ⟨n, hagain⟩ := hfinal.run hc₃ hvalid₃ hop ((hcleared.kind func).trans hkind) hlive
    exact ⟨⟨sizes, hverify⟩, _, hagain, rfl, rfl, rfl⟩

/-! ## A function that is lowered and cleaned up -/

/-- The history of a function that returns what it reads. Before the read there is a constant that
nobody reads. -/
def fetchHistory : List Edit :=
  [.createBlock [.memory [256] (.i 32), .index], .createOp (Instr.constantInt (.i 32) 7),
    .append ⟨0⟩ ⟨0⟩,
    .createOp (Instr.transferRead (.vector 16 (.i 32)) ⟨0⟩ [⟨1⟩] (.minorIdentity 1) none),
    .append ⟨0⟩ ⟨1⟩, .createOp (Instr.ret [⟨3⟩]), .append ⟨0⟩ ⟨2⟩, .createRegion [⟨0⟩],
    .createOp (Instr.func "fetch" ⟨0⟩)]

/-- The graph the history ends with. -/
def fetchGraph : Graph where
  ops := #[⟨.constant, [], [⟨2⟩], .ofList [(AttrName.value, .int 7)], [], some ⟨0⟩⟩,
    ⟨.transferRead, [⟨0⟩, ⟨1⟩], [⟨3⟩],
      .ofList [(AttrName.permutationMap, .map (.minorIdentity 1))], [], some ⟨0⟩⟩,
    ⟨.ret, [⟨3⟩], [], .empty, [], some ⟨0⟩⟩,
    ⟨.func, [], [], .ofList [(AttrName.symName, .str "fetch")], [⟨0⟩], none⟩]
  values := #[⟨.argument ⟨0⟩ 0, .memory [256] (.i 32)⟩, ⟨.argument ⟨0⟩ 1, .index⟩,
    ⟨.result ⟨0⟩ 0, .i 32⟩, ⟨.result ⟨1⟩ 0, .vector 16 (.i 32)⟩]
  blocks := #[⟨[⟨0⟩, ⟨1⟩], [⟨0⟩, ⟨1⟩, ⟨2⟩], some ⟨0⟩⟩]
  regions := #[⟨[⟨0⟩], some ⟨3⟩⟩]
  chains := #[[⟨⟨1⟩, 0⟩], [⟨⟨1⟩, 1⟩], [], [⟨⟨2⟩, 0⟩]]

/-- The graph after one round: the read is a load. -/
def fetchedGraph : Graph where
  ops := #[⟨.constant, [], [⟨2⟩], .ofList [(AttrName.value, .int 7)], [], some ⟨0⟩⟩,
    ⟨.transferRead, [⟨0⟩, ⟨1⟩], [⟨3⟩],
      .ofList [(AttrName.permutationMap, .map (.minorIdentity 1))], [], none⟩,
    ⟨.ret, [⟨4⟩], [], .empty, [], some ⟨0⟩⟩,
    ⟨.func, [], [], .ofList [(AttrName.symName, .str "fetch")], [⟨0⟩], none⟩,
    ⟨.upd, [⟨0⟩, ⟨1⟩], [⟨4⟩], .ofList [(AttrName.offset, .int 0), (AttrName.index, .int 0)], [],
      some ⟨0⟩⟩]
  values := #[⟨.argument ⟨0⟩ 0, .memory [256] (.i 32)⟩, ⟨.argument ⟨0⟩ 1, .index⟩,
    ⟨.result ⟨0⟩ 0, .i 32⟩, ⟨.result ⟨1⟩ 0, .vector 16 (.i 32)⟩,
    ⟨.result ⟨4⟩ 0, .vector 16 (.i 32)⟩]
  blocks := #[⟨[⟨0⟩, ⟨1⟩], [⟨0⟩, ⟨4⟩, ⟨2⟩], some ⟨0⟩⟩]
  regions := #[⟨[⟨0⟩], some ⟨3⟩⟩]
  chains := #[[⟨⟨4⟩, 0⟩], [⟨⟨4⟩, 1⟩], [], [], [⟨⟨2⟩, 0⟩]]

theorem fetchGraph_history : Edit.replay fetchHistory = .ok (fetchGraph, []) := by
  cbv

theorem fetchGraph_validates : fetchGraph.Validates ⟨3⟩ :=
  .of_replay fetchGraph_history rfl rfl

theorem fetchGraph_inside {op : OpId} (hop : fetchGraph.Inside ⟨3⟩ op) :
    op = ⟨0⟩ ∨ op = ⟨1⟩ ∨ op = ⟨2⟩ := by
  have hlist : fetchGraph.nested ⟨3⟩ = [⟨0⟩, ⟨1⟩, ⟨2⟩] := by decide
  have hmem := mem_nested_iff.mpr hop
  rw [hlist] at hmem
  simpa using hmem

/-- All of it comes from constructors. -/
theorem fetchGraph_made {op : OpId} (hop : fetchGraph.Inside ⟨3⟩ op) : fetchGraph.Made op := by
  rcases fetchGraph_inside hop with rfl | rfl | rfl
  · exact ⟨_, .constantInt (.i 32) 7, rfl, rfl, rfl, rfl, rfl⟩
  · exact ⟨_, .transferRead (.vector 16 (.i 32)) ⟨0⟩ [⟨1⟩] (.minorIdentity 1) none,
      rfl, rfl, rfl, rfl, rfl⟩
  · exact ⟨_, .ret [⟨3⟩], rfl, rfl, rfl, rfl, rfl⟩

/-- The second round measures the load and changes nothing. -/
theorem fetchGraph_lower : fetchGraph.lower ⟨3⟩ ⟨.aieml, 0, 10, true⟩ =
    .ok (fetchedGraph, .ok ⟨.aieml, 2, 1, []⟩) := by
  have first : (Application.start fetchGraph .empty).round
      (⟨.aieml, 0, 10, true⟩ : LowerOptions).ruleSet Generation.aieml.conversionTarget ⟨3⟩ =
        .ok ⟨fetchedGraph, .empty, [], 1⟩ := by
    cbv
  have rounds : Application.rounds (⟨.aieml, 0, 10, true⟩ : LowerOptions).ruleSet
      Generation.aieml.conversionTarget ⟨3⟩ 10 0 (.start fetchGraph .empty) =
        .ok (⟨fetchedGraph, ⟨[(⟨4⟩, 512)]⟩, [], 1⟩, 2, true) :=
    bind_eq_ok.mpr ⟨_, first, rfl⟩
  exact bind_eq_ok.mpr ⟨_, bind_eq_ok.mpr ⟨_, rounds, rfl⟩, rfl⟩

/-- The pipeline makes a load of the read and drops the constant. What it ends with it leaves
alone. -/
theorem run_again_fetch : ∃ g' again,
    (Pipeline.withDefaultCleanups ⟨.aieml, 0, 10, true⟩).run fetchGraph ⟨3⟩ =
        .ok (g', .ok ⟨⟨.aieml, 2, 1, []⟩, [("dce", 1)]⟩) ∧
      (Pipeline.withDefaultCleanups ⟨.aieml, 0, 10, true⟩).run g' ⟨3⟩ = .ok (g', .ok again) ∧
      again.lowering.rewrites = 0 ∧ again.cleanups = [("dce", 0)] := by
  obtain ⟨g', hrun⟩ : ∃ g', (Pipeline.withDefaultCleanups ⟨.aieml, 0, 10, true⟩).run
    fetchGraph ⟨3⟩ =
      .ok (g', .ok ⟨⟨.aieml, 2, 1, []⟩, [("dce", 1)]⟩) :=
    ⟨_, bind_eq_ok.mpr ⟨_, fetchGraph_lower, rfl⟩⟩
  obtain ⟨-, again, hagain, hrewrites, -, hcleanups⟩ := run_again fetchGraph_history
    (hasValue_of_uses (Nat.le_refl 4)) fetchGraph_validates (fun _ hop => fetchGraph_made hop)
    hrun rfl
  exact ⟨g', again, hrun, hagain, hrewrites, hcleanups⟩

/-! ## A function that no constructor makes -/

/-- The history of a function with a product that has two results, which no constructor gives it.
The first one is read by a sum that nobody reads, and the second one is returned. -/
def twinHistory : List Edit :=
  [.createBlock [.vector 16 (.i 32), .vector 16 (.i 32), .i 32],
    .createOp ⟨.muli, [⟨0⟩, ⟨1⟩], [.vector 16 (.i 32), .vector 16 (.i 32)], .empty, []⟩,
    .append ⟨0⟩ ⟨0⟩, .createOp (Instr.binary .addi ⟨⟨2⟩, .i 32⟩ ⟨3⟩), .append ⟨0⟩ ⟨1⟩,
    .createOp (Instr.ret [⟨4⟩]), .append ⟨0⟩ ⟨2⟩, .createRegion [⟨0⟩],
    .createOp (Instr.func "twin" ⟨0⟩)]

/-- The graph the history ends with. -/
def twinGraph : Graph where
  ops := #[⟨.muli, [⟨0⟩, ⟨1⟩], [⟨3⟩, ⟨4⟩], .empty, [], some ⟨0⟩⟩,
    ⟨.addi, [⟨2⟩, ⟨3⟩], [⟨5⟩], .empty, [], some ⟨0⟩⟩, ⟨.ret, [⟨4⟩], [], .empty, [], some ⟨0⟩⟩,
    ⟨.func, [], [], .ofList [(AttrName.symName, .str "twin")], [⟨0⟩], none⟩]
  values := #[⟨.argument ⟨0⟩ 0, .vector 16 (.i 32)⟩, ⟨.argument ⟨0⟩ 1, .vector 16 (.i 32)⟩,
    ⟨.argument ⟨0⟩ 2, .i 32⟩, ⟨.result ⟨0⟩ 0, .vector 16 (.i 32)⟩,
    ⟨.result ⟨0⟩ 1, .vector 16 (.i 32)⟩, ⟨.result ⟨1⟩ 0, .i 32⟩]
  blocks := #[⟨[⟨0⟩, ⟨1⟩, ⟨2⟩], [⟨0⟩, ⟨1⟩, ⟨2⟩], some ⟨0⟩⟩]
  regions := #[⟨[⟨0⟩], some ⟨3⟩⟩]
  chains := #[[⟨⟨0⟩, 0⟩], [⟨⟨0⟩, 1⟩], [⟨⟨1⟩, 0⟩], [⟨⟨1⟩, 1⟩], [⟨⟨2⟩, 0⟩]]

theorem twinGraph_history : Edit.replay twinHistory = .ok (twinGraph, []) := by
  cbv

theorem twinGraph_validates : twinGraph.Validates ⟨3⟩ :=
  .of_replay twinGraph_history rfl rfl

/-- The product may stay for the sum, of which it alone knows the first result is read; when the
sum has been dropped, the product is not dead and may not stay. -/
theorem illegal_after_run_twin : Edit.replay twinHistory = .ok (twinGraph, []) ∧
    twinGraph.Validates ⟨3⟩ ∧
    (∀ op, twinGraph.Inside ⟨3⟩ op → (twinGraph.kind op).dialect ≠ .aievec) ∧
    ∃ g' report sizes, (Pipeline.withDefaultCleanups ⟨.aieml, 0, 10, true⟩).run twinGraph ⟨3⟩ =
        .ok (g', .ok report) ∧ report.lowering.remaining = [] ∧
      Generation.aieml.conversionTarget.verify g' ⟨3⟩ .empty = .ok ([⟨⟨0⟩, .muli⟩], sizes) := by
  refine ⟨twinGraph_history, twinGraph_validates, fun op hop => ?_, _, _, _, rfl, rfl, rfl⟩
  have hlist : twinGraph.nested ⟨3⟩ = [⟨0⟩, ⟨1⟩, ⟨2⟩] := by decide
  have hmem := mem_nested_iff.mpr hop
  rw [hlist] at hmem
  simp only [List.mem_cons, List.not_mem_nil, or_false] at hmem
  rcases hmem with rfl | rfl | rfl <;> decide

end Graph

end SimdLowering
