/-
The bound on the rounds of the second generation.

After two rounds everything under the function is still, so a third round, if there is one,
changes nothing. The rounds come back because no read is without lanes, unless a number misses its
machine word on the way. With more of them allowed nothing else happens.
-/
import SimdLowering.Proofs.Fixpoint.Rounds
import SimdLowering.Proofs.Target.Records

set_option autoImplicit false

namespace SimdLowering

open SimdLowering.Graph SimdLowering.Application SimdLowering.Rules

variable {o : LowerOptions} {func op : OpId} {size : Nat} {gone : List OpId} {g : Graph}
  {s s' t : Application}

/-- A visit where everything is still does nothing. -/
theorem Still.visit (hI : Ready func size s) (h : Still o func s) (hin : s.graph.Inside func op)
    (hv : s.visitOp o.ruleSet o.target.conversionTarget op = .ok s') :
    Still o func s' ∧ s'.changes = s.changes := by
  obtain ⟨gone, hup⟩ := hI.upright
  cases goes_of_visit hup hin hv with
  | same hg hchanges hrejected hsizes hidle =>
    refine ⟨⟨fun x hx hk => ?_, hg ▸ h.halved, fun d hd hk => ?_⟩, hchanges⟩
    · rw [hg] at hx hk
      exact (h.calm x hx hk).same hg hrejected
    · rw [hg] at hd hk
      exact (h.loads d hd hk).same hup h.halved hg hrejected hsizes hd hk
  | rewritten b old r hrw =>
    by_cases hk : s.graph.kind op = .upd
    · exact absurd hrw ((h.loads op hin hk).not_rewrites hup h.halved hin hk hv)
    · exact absurd hrw ((h.calm op hin hk).not_rewrites hv)

/-! ## Rounds -/

section

variable (ho : o.target = .aieml) (hI : Ready func size s)
include ho hI

/-- The first round over a function without loads ends as the second one is to begin. -/
theorem firstRound_of_round (hnone : ∀ d, s.graph.Inside func d → s.graph.kind d ≠ .upd)
    (hshort : ∀ d, s.graph.Inside func d → s.graph.kind d = .transferRead →
      ∀ shape, s.graph.resultShape? d = some shape → shape.bits ≤ 2 * o.target.maxLoadBits)
    (h : s.round o.ruleSet o.target.conversionTarget func = .ok s') :
    FirstRound o func [] s' ∧ Ready func size s' := by
  obtain ⟨gone, hc, hacyclic⟩ := hI.ground
  refine round_induction (ready_visitsKeep o func size) (fun _ h => h.ground) hI
    ⟨fun x hx hxr => ?_, fun x hx hxr => ?_, ⟨fun d hd hk => ?_, fun d hd hk => ?_⟩,
      fun d hd hk => ?_⟩ (fun op rest t t' hI hp h hv => h.visit ho hI hp hv) h
  · exact absurd ((mem_postorder hc hacyclic).mpr hx) hxr
  · exact absurd ((mem_postorder hc hacyclic).mpr hx) hxr
  · exact hshort d hd (hk.resolve_right (hnone d hd))
  · exact absurd hk (hnone d hd)
  · exact absurd hk (hnone d hd)

/-- The second round leaves everything still. -/
theorem still_of_round (hfirst : FirstRound o func [] s)
    (h : s.round o.ruleSet o.target.conversionTarget func = .ok s') :
    Still o func s' ∧ Ready func size s' := by
  obtain ⟨gone, hc, hacyclic⟩ := hI.ground
  have hsecond : SecondRound o func [] s' ∧ Ready func size s' := by
    refine round_induction (ready_visitsKeep o func size) (fun _ h => h.ground) hI
      ⟨fun x hx hk => ?_, hfirst.halved, fun d hd hk => ?_⟩
      (fun op rest t t' hI hp h hv => h.visit ho hI hp hv) h
    · exact (hfirst.calm x hx List.not_mem_nil hk).imp_right fun hl =>
        ⟨hl, (mem_postorder hc hacyclic).mpr hx⟩
    · obtain ⟨-, hfront, hnone⟩ := hfirst.loads d hd hk
      exact Or.inl ⟨(mem_postorder hc hacyclic).mpr hd, hfront, hnone⟩
  refine ⟨⟨fun x hx hk => ?_, hsecond.1.halved, fun d hd hk => ?_⟩, hsecond.2⟩
  · exact (hsecond.1.calm x hx hk).resolve_right fun hl => absurd hl.2 List.not_mem_nil
  · exact (hsecond.1.loads d hd hk).elim (fun hl => absurd hl.1 List.not_mem_nil) And.right

omit ho in
/-- A round where everything is still changes nothing. -/
theorem changes_of_still (hstill : Still o func s)
    (h : s.round o.ruleSet o.target.conversionTarget func = .ok s') : s'.changes = s.changes := by
  have hend : (Still o func s' ∧ s'.changes = s.changes) ∧ Ready func size s' :=
    round_induction (J := fun _ t => Still o func t ∧ t.changes = s.changes)
      (ready_visitsKeep o func size) (fun _ h => h.ground) hI ⟨hstill, rfl⟩
      (fun op rest t t' hI hp hJ hv =>
        have hstep := hJ.1.visit hI (hp.inside op (List.mem_cons_self ..)) hv
        ⟨hstep.1, hstep.2.trans hJ.2⟩) h
  exact hend.1.2

/-- Of three rounds over a function without loads one changes nothing. -/
theorem fixpoint_of_rounds (hnone : ∀ d, s.graph.Inside func d → s.graph.kind d ≠ .upd)
    (hshort : ∀ d, s.graph.Inside func d → s.graph.kind d = .transferRead →
      ∀ shape, s.graph.resultShape? d = some shape → shape.bits ≤ 2 * o.target.maxLoadBits)
    {n : Nat} {fixpoint : Bool}
    (h : rounds o.ruleSet o.target.conversionTarget func 3 0 s = .ok (t, n, fixpoint)) :
    fixpoint = true ∧ n ≤ 3 := by
  obtain ⟨s₁, h₁, h⟩ := bind_eq_ok.mp h
  -- What the first round leaves to do is done by the second one, and the third is idle.
  obtain ⟨hfirst, hI₁⟩ := firstRound_of_round ho hI hnone hshort h₁
  split at h
  · cases h
    exact ⟨rfl, by omega⟩
  obtain ⟨s₂, h₂, h⟩ := bind_eq_ok.mp h
  obtain ⟨hstill, hI₂⟩ := still_of_round ho hI₁ hfirst h₂
  split at h
  · cases h
    exact ⟨rfl, by omega⟩
  obtain ⟨s₃, h₃, h⟩ := bind_eq_ok.mp h
  rw [if_pos (changes_of_still hI₂ hstill h₃)] at h
  cases h
  exact ⟨rfl, by omega⟩

end

/-- Rounds that have reached their end go on to it when more are allowed. -/
theorem rounds_of_fixpoint {rules : RuleSet} {target : ConversionTarget} {left done n : Nat}
    (h : rounds rules target func left done s = .ok (t, n, true)) (more : Nat) :
    rounds rules target func (left + more) done s = .ok (t, n, true) := by
  induction left generalizing done s with
  | zero => cases h
  | succ left ih =>
    obtain ⟨next, hnext, h⟩ := bind_eq_ok.mp h
    rw [Nat.succ_add, rounds, hnext]
    dsimp only [bind, Except.bind]
    split at h
    · next hsame =>
      rw [if_pos hsame]
      exact h
    · next hchanged =>
      rw [if_neg hchanged]
      exact ih h

/-- Rounds that fail do so when more are allowed. -/
theorem rounds_of_error {rules : RuleSet} {target : ConversionTarget} {left done : Nat} {e : Fault}
    (h : rounds rules target func left done s = .error e) (more : Nat) :
    rounds rules target func (left + more) done s = .error e := by
  induction left generalizing done s with
  | zero => cases h
  | succ left ih =>
    rw [Nat.succ_add, rounds]
    rcases bind_eq_error.mp h with h | ⟨next, hnext, h⟩
    · rw [h]
      rfl
    rw [hnext]
    dsimp only [bind, Except.bind]
    split at h
    · cases h
    · next hchanged =>
      rw [if_neg hchanged]
      exact ih h

namespace Graph

/-- Take any function with a history that validates, reads nothing that is still to come and is
made in the generic vocabulary, on the second generation and with any shift, in which no read
gives more than twice what one load may contribute; and let sizes be remembered of operations
that are there, or of none. Then there is one outcome with every budget of at least three: a number
is too large, which takes an operation where this may be, or a fixpoint is reached in at most three
rounds, and one more round after that does nothing. -/
theorem apply_reaches_fixpoint {edits : List Edit} {o : LowerOptions} (htarget : o.target = .aieml)
    (history : Edit.replay edits = .ok (g, gone)) (hreads : ∀ v, g.uses v ≠ [] → g.HasValue v)
    (hfunc : g.HasOp func) (hvalid : g.Validates func)
    (hgeneric : ∀ op, g.Inside func op → g.Generic op)
    (hshort : ∀ op, g.Inside func op → g.kind op = .transferRead →
      ∀ shape, g.resultShape? op = some shape → shape.bits ≤ 2 * o.target.maxLoadBits)
    (sizes : AccessSizes) (hsizes : ∀ op n, sizes.get? op = some n → g.HasOp op) :
    (g.MayOverflowUnder func ∧ ∀ budget, 3 ≤ budget →
      o.ruleSet.apply g func o.target.conversionTarget budget sizes = .error .overflow) ∨
    ∃ g' sizes' result, result.fixpoint = true ∧ result.iterations ≤ 3 ∧
      (∀ budget, 3 ≤ budget → o.ruleSet.apply g func o.target.conversionTarget budget sizes =
        .ok (g', sizes', result)) ∧
      ∃ s, Application.round o.ruleSet o.target.conversionTarget func
          ⟨g', sizes', result.rejected, result.changes⟩ = .ok s ∧
        s.graph = g' ∧ s.rejected = result.rejected ∧ s.changes = result.changes := by
  have hup : Upright g gone func g.ops.size :=
    .of_replay history hreads hfunc hvalid fun op hop => (hgeneric op hop).wellShaped
  have hlanes : ∀ op, g.Inside func op → g.HasLanes op := fun op hop => (hgeneric op hop).hasLanes
  -- With three rounds there is an outcome; it is the same with more.
  rcases LowerOptions.apply_upright (o := { o with maxIterations := 3 }) hup hlanes sizes with
    ⟨⟨g', sizes', result⟩, happly, ⟨gone', hup'⟩, -⟩ | ⟨e, ⟨rfl, hover⟩, happly⟩
  swap
  · refine Or.inl ⟨hover, fun budget hbudget => ?_⟩
    obtain ⟨more, rfl⟩ := Nat.exists_eq_add_of_le hbudget
    rcases bind_eq_error.mp happly with h | ⟨x, -, h⟩
    · exact bind_eq_error.mpr (Or.inl (rounds_of_error h more))
    · cases h
  have happlied := happly
  obtain ⟨⟨s, n, fixpoint⟩, hrounds, h⟩ := bind_eq_ok.mp happly
  -- There are no loads at the start.
  have hnone : ∀ d, g.Inside func d → g.kind d ≠ .upd := by
    intro d hd hk
    obtain ⟨draft, hdraft, hmatches⟩ := (hgeneric d hd).made
    have := hdraft.dialect_ne
    rw [← hmatches.kind, hk] at this
    exact this rfl
  obtain ⟨rfl, hn⟩ := fixpoint_of_rounds htarget ⟨⟨gone, hup⟩, hlanes, hsizes⟩ hnone hshort hrounds
  cases h
  -- The third round at the latest changed nothing, and so would another one.
  obtain ⟨t, hround, hidle⟩ := o.idles history hup'.scene.consistent.toNestingAgrees happlied rfl
  refine Or.inr ⟨s.graph, s.sizes, ⟨n, s.changes, true, s.rejected⟩, rfl, hn,
    fun budget hbudget => ?_, t, hround, hidle.graph, hidle.same⟩
  obtain ⟨more, rfl⟩ := Nat.exists_eq_add_of_le hbudget
  have hmore := rounds_of_fixpoint hrounds more
  exact bind_eq_ok.mpr ⟨_, hmore, rfl⟩

/-- The history of a function that returns the smaller lanes of two vectors of more than `2 ^ 32`
bits. -/
def longMinimumHistory : List Edit :=
  [.createBlock [.vector 134217744 (.i 32), .vector 134217744 (.i 32)],
    .createOp (Instr.binary .minsi ⟨⟨0⟩, .vector 134217744 (.i 32)⟩ ⟨1⟩), .append ⟨0⟩ ⟨0⟩,
    .createOp (Instr.ret [⟨2⟩]), .append ⟨0⟩ ⟨1⟩, .createRegion [⟨0⟩],
    .createOp (Instr.func "long_minimum" ⟨0⟩)]

/-- The graph the history ends with. -/
def longMinimumGraph : Graph where
  ops := #[⟨.minsi, [⟨0⟩, ⟨1⟩], [⟨2⟩], .empty, [], some ⟨0⟩⟩,
    ⟨.ret, [⟨2⟩], [], .empty, [], some ⟨0⟩⟩,
    ⟨.func, [], [], .ofList [(AttrName.symName, .str "long_minimum")], [⟨0⟩], none⟩]
  values := #[⟨.argument ⟨0⟩ 0, .vector 134217744 (.i 32)⟩,
    ⟨.argument ⟨0⟩ 1, .vector 134217744 (.i 32)⟩, ⟨.result ⟨0⟩ 0, .vector 134217744 (.i 32)⟩]
  blocks := #[⟨[⟨0⟩, ⟨1⟩], [⟨0⟩, ⟨1⟩], some ⟨0⟩⟩]
  regions := #[⟨[⟨0⟩], some ⟨2⟩⟩]
  chains := #[[⟨⟨0⟩, 0⟩], [⟨⟨0⟩, 1⟩], [⟨⟨1⟩, 0⟩]]

/-- The bits of such a vector cannot be counted in a machine word, and so no fixpoint is reached,
although nothing is read. -/
theorem apply_overflows :
    Edit.replay longMinimumHistory = .ok (longMinimumGraph, []) ∧ longMinimumGraph.Validates ⟨2⟩ ∧
      (∀ op, longMinimumGraph.Inside ⟨2⟩ op → longMinimumGraph.Generic op) ∧
      (∀ op, longMinimumGraph.Inside ⟨2⟩ op → longMinimumGraph.kind op ≠ .transferRead) ∧
      (⟨.aieml, 0, 10, true⟩ : LowerOptions).ruleSet.apply longMinimumGraph ⟨2⟩
        Generation.aieml.conversionTarget 10 .empty = .error .overflow := by
  have history : Edit.replay longMinimumHistory = .ok (longMinimumGraph, []) := by cbv
  have hinside : ∀ op, longMinimumGraph.Inside ⟨2⟩ op → op = ⟨0⟩ ∨ op = ⟨1⟩ := fun op hop => by
    have hlist : longMinimumGraph.nested ⟨2⟩ = [⟨0⟩, ⟨1⟩] := by decide
    exact List.mem_pair.mp (hlist ▸ mem_nested_iff.mpr hop)
  refine ⟨history, .of_replay history rfl (by cbv), fun op hop => ?_, fun op hop => ?_, by cbv⟩
  · rcases hinside op hop with rfl | rfl
    · refine ⟨⟨_, .binary .minsi ⟨0⟩ ⟨1⟩ (by decide), rfl, rfl, rfl, rfl, rfl⟩, fun n elem h => ?_⟩
      cases List.mem_singleton.mp h
      decide
    · exact ⟨⟨_, .ret [⟨2⟩], rfl, rfl, rfl, rfl, rfl⟩, fun n elem h => absurd h List.not_mem_nil⟩
  · rcases hinside op hop with rfl | rfl <;> decide

/-- The history of a function with a read of two thousand bits and a product that is left for a
sum. -/
def cascadeHistory : List Edit :=
  [.createBlock [.memory [256] (.i 32), .index, .vector 16 (.i 32), .vector 16 (.i 32),
      .vector 16 (.i 32)],
    .createOp (Instr.transferRead (.vector 64 (.i 32)) ⟨0⟩ [⟨1⟩] (.minorIdentity 1) none),
    .append ⟨0⟩ ⟨0⟩, .createOp (Instr.binary .muli ⟨⟨2⟩, .vector 16 (.i 32)⟩ ⟨3⟩), .append ⟨0⟩ ⟨1⟩,
    .createOp (Instr.binary .addi ⟨⟨6⟩, .vector 16 (.i 32)⟩ ⟨4⟩), .append ⟨0⟩ ⟨2⟩,
    .createOp (Instr.ret [⟨5⟩, ⟨7⟩]), .append ⟨0⟩ ⟨3⟩, .createRegion [⟨0⟩],
    .createOp (Instr.func "cascade" ⟨0⟩)]

/-- The graph the history ends with. -/
def cascadeGraph : Graph where
  ops := #[⟨.transferRead, [⟨0⟩, ⟨1⟩], [⟨5⟩],
      .ofList [(AttrName.permutationMap, .map (.minorIdentity 1))], [], some ⟨0⟩⟩,
    ⟨.muli, [⟨2⟩, ⟨3⟩], [⟨6⟩], .empty, [], some ⟨0⟩⟩,
    ⟨.addi, [⟨6⟩, ⟨4⟩], [⟨7⟩], .empty, [], some ⟨0⟩⟩,
    ⟨.ret, [⟨5⟩, ⟨7⟩], [], .empty, [], some ⟨0⟩⟩,
    ⟨.func, [], [], .ofList [(AttrName.symName, .str "cascade")], [⟨0⟩], none⟩]
  values := #[⟨.argument ⟨0⟩ 0, .memory [256] (.i 32)⟩, ⟨.argument ⟨0⟩ 1, .index⟩,
    ⟨.argument ⟨0⟩ 2, .vector 16 (.i 32)⟩, ⟨.argument ⟨0⟩ 3, .vector 16 (.i 32)⟩,
    ⟨.argument ⟨0⟩ 4, .vector 16 (.i 32)⟩, ⟨.result ⟨0⟩ 0, .vector 64 (.i 32)⟩,
    ⟨.result ⟨1⟩ 0, .vector 16 (.i 32)⟩, ⟨.result ⟨2⟩ 0, .vector 16 (.i 32)⟩]
  blocks := #[⟨[⟨0⟩, ⟨1⟩, ⟨2⟩, ⟨3⟩, ⟨4⟩], [⟨0⟩, ⟨1⟩, ⟨2⟩, ⟨3⟩], some ⟨0⟩⟩]
  regions := #[⟨[⟨0⟩], some ⟨4⟩⟩]
  chains := #[[⟨⟨0⟩, 0⟩], [⟨⟨0⟩, 1⟩], [⟨⟨1⟩, 0⟩], [⟨⟨1⟩, 1⟩], [⟨⟨2⟩, 1⟩], [⟨⟨3⟩, 0⟩], [⟨⟨2⟩, 0⟩],
    [⟨⟨3⟩, 1⟩]]

theorem cascadeGraph_history : Edit.replay cascadeHistory = .ok (cascadeGraph, []) := by
  cbv

theorem cascadeGraph_validates : cascadeGraph.Validates ⟨4⟩ :=
  .of_replay cascadeGraph_history rfl (by cbv)

theorem cascadeGraph_inside {op : OpId} (hop : cascadeGraph.Inside ⟨4⟩ op) :
    op ∈ [⟨0⟩, ⟨1⟩, ⟨2⟩, ⟨3⟩] := by
  have hlist : cascadeGraph.nested ⟨4⟩ = [⟨0⟩, ⟨1⟩, ⟨2⟩, ⟨3⟩] := by decide
  exact hlist ▸ mem_nested_iff.mpr hop

theorem cascadeGraph_generic {op : OpId} (hop : cascadeGraph.Inside ⟨4⟩ op) :
    cascadeGraph.Generic op := by
  have hmem := cascadeGraph_inside hop
  simp only [List.mem_cons, List.not_mem_nil, or_false] at hmem
  rcases hmem with rfl | rfl | rfl | rfl
  · refine ⟨⟨_, .transferRead (.vector 64 (.i 32)) ⟨0⟩ [⟨1⟩] (.minorIdentity 1) none,
      rfl, rfl, rfl, rfl, rfl⟩, fun m elem h => ?_⟩
    cases List.mem_singleton.mp h
    decide
  · refine ⟨⟨_, .binary .muli ⟨2⟩ ⟨3⟩ (by decide), rfl, rfl, rfl, rfl, rfl⟩, fun m elem h => ?_⟩
    cases List.mem_singleton.mp h
    decide
  · refine ⟨⟨_, .binary .addi ⟨6⟩ ⟨4⟩ (by decide), rfl, rfl, rfl, rfl, rfl⟩, fun m elem h => ?_⟩
    cases List.mem_singleton.mp h
    decide
  · exact ⟨⟨_, .ret [⟨5⟩, ⟨7⟩], rfl, rfl, rfl, rfl, rfl⟩, fun m elem h => nomatch h⟩

/-- The read is as long as a read may be. -/
theorem cascadeGraph_short {op : OpId} (hop : cascadeGraph.Inside ⟨4⟩ op)
    (hk : cascadeGraph.kind op = .transferRead) {shape : VectorShape}
    (hshape : cascadeGraph.resultShape? op = some shape) :
    shape.bits ≤ 2 * Generation.aieml.maxLoadBits := by
  have hmem := cascadeGraph_inside hop
  simp only [List.mem_cons, List.not_mem_nil, or_false] at hmem
  rcases hmem with rfl | rfl | rfl | rfl
  · obtain rfl := Option.some.inj hshape
    decide
  all_goals cases hk

set_option maxRecDepth 20000 in
/-- The three rounds, one by one. -/
theorem cascadeGraph_rounds :
    ∃ s, rounds (⟨.aieml, 5, 10, true⟩ : LowerOptions).ruleSet Generation.aieml.conversionTarget
        ⟨4⟩ 3 0 ⟨cascadeGraph, .empty, [], 0⟩ = .ok (s, 3, true) ∧ s.changes = 4 ∧
      (s.graph.nested ⟨4⟩).map s.graph.kind =
        [.upd, .upd, .mulElem, .srs, .ups, .fmaElem, .srs, .ret] := by
  -- All rounds at once are too much for one evaluation, so each is given its own.
  rw [rounds]
  generalize h : Application.round _ _ _ _ = first
  cbv at h
  subst h
  dsimp only [bind, Except.bind]
  rw [if_neg (by decide), rounds]
  generalize h : Application.round _ _ _ _ = second
  cbv at h
  subst h
  dsimp only [bind, Except.bind]
  rw [if_neg (by decide), rounds]
  generalize h : Application.round _ _ _ _ = third
  cbv at h
  subst h
  dsimp only [bind, Except.bind]
  rw [if_pos (by decide)]
  exact ⟨_, rfl, rfl, rfl⟩

/-- The sum takes the product into itself in the first round and leaves it behind, and the read
becomes one load; the second round splits the load and replaces the product that nobody reads any
more; the third round finds nothing to do, and with every larger budget it is the last. -/
theorem apply_reaches_fixpoint_cascade :
    ∃ g' sizes' result, result.fixpoint = true ∧ result.iterations = 3 ∧ result.changes = 4 ∧
      (g'.nested ⟨4⟩).map g'.kind =
        [.upd, .upd, .mulElem, .srs, .ups, .fmaElem, .srs, .ret] ∧
      ∀ budget, 3 ≤ budget → (⟨.aieml, 5, 10, true⟩ : LowerOptions).ruleSet.apply cascadeGraph ⟨4⟩
        Generation.aieml.conversionTarget budget .empty = .ok (g', sizes', result) := by
  obtain ⟨s, hrounds, hchanges, hkinds⟩ := cascadeGraph_rounds
  have hrun : (⟨.aieml, 5, 10, true⟩ : LowerOptions).ruleSet.apply cascadeGraph ⟨4⟩
      Generation.aieml.conversionTarget 3 .empty =
        .ok (s.graph, s.sizes, ⟨3, s.changes, true, s.rejected⟩) := by
    rw [RuleSet.apply, hrounds]
    rfl
  rcases apply_reaches_fixpoint (o := ⟨.aieml, 5, 10, true⟩) rfl cascadeGraph_history
    (hasValue_of_uses (Nat.le_refl 8)) (by decide) cascadeGraph_validates
    (fun op hop => cascadeGraph_generic hop) (fun op hop hk shape => cascadeGraph_short hop hk)
    .empty (fun op n h => by cases h) with ⟨-, hover⟩ | ⟨g', sizes', result, -, -, happly, -⟩
  · cases hrun.symm.trans (hover 3 Nat.le.refl)
  · cases hrun.symm.trans (happly 3 Nat.le.refl)
    exact ⟨_, _, _, rfl, rfl, hchanges, hkinds, happly⟩

end Graph

end SimdLowering
