/-
Reads that no rule can do are never lowered.

A read with a mask is refused, and a read that is not strided along the last dimensions is
left alone. Neither is a promise that one visit can keep: rules rewrite all around a read,
and what it reads goes by other names afterwards. But its attributes stay, and so does the
number of its operands and the rank of its source, which is all that the rule for reads goes
by. So a read that cannot be lowered stays one to the end. If it has a mask, the first round
gets to it and the refusal stays on record; and a read that is left is found by verification.
-/
import SimdLowering.Proofs.Lowering.Rounds
import SimdLowering.Proofs.Rewrite.Renaming

set_option autoImplicit false

namespace SimdLowering

open SimdLowering.Graph SimdLowering.Application SimdLowering.Rules

namespace Graph

variable {g g' g₁ : Graph} {gone : List OpId} {func root op x : OpId} {b : BlockId} {old : ValueId}
  {r : Recipe}

/-- An operand of a read after as many indices as its source has dimensions is its mask. -/
def HasMask (g : Graph) (op : OpId) : Prop :=
  ∃ access mask, g.memAccess? op = .ok (some access) ∧ access.trailing = some mask

/-- The operation is a read that has a mask, or whose map is absent, not a minor identity, or
constant. -/
structure IsUnsupportedRead (g : Graph) (op : OpId) : Prop where
  kind : g.kind op = .transferRead
  form : g.HasMask op ∨ ∀ map, (g.attrs op).accessMap? = some map →
    map.isMinorIdentity = false ∨ map.isConstant = true

/-- The operation lies under the root in the block it lay in, and has its kind, its
attributes and its results. -/
structure Remains (g g' : Graph) (root op : OpId) : Prop where
  inside : g'.Inside root op
  block : g'.blockOf? op = g.blockOf? op
  kind : g'.kind op = g.kind op
  attrs : g'.attrs op = g.attrs op
  results : g'.results op = g.results op
  types : g'.resultTypes op = g.resultTypes op

theorem Remains.refl (h : g.Inside root op) : g.Remains g root op := ⟨h, rfl, rfl, rfl, rfl, rfl⟩

theorem Remains.trans (h₁ : g.Remains g₁ root op) (h₂ : g₁.Remains g' root op) :
    g.Remains g' root op :=
  ⟨h₂.inside, h₂.block.trans h₁.block, h₂.kind.trans h₁.kind, h₂.attrs.trans h₁.attrs,
    h₂.results.trans h₁.results, h₂.types.trans h₁.types⟩

/-! ## Splices -/

section

variable (hs : Spliced g g' gone op b old r) (h : Scene g gone func) (hin : g.Inside func op)
  (hr : r.Lawful g func op)
include hs hin

/-- A splice elsewhere leaves an operation where it is and what it is. -/
theorem Spliced.remains (hx : g.Inside func x) (hne : x ≠ op) : g.Remains g' func x := by
  have hop := hx.hasOp hs.before.toNestingAgrees
  exact ⟨(hs.inside_iff hin).mpr (Or.inl ⟨hx, hne⟩), hs.blockOf?_of_ne hop hne,
    hs.kind_of_hasOp hop, hs.attrs_of_hasOp hop, hs.results_of_hasOp hop,
    hs.resultTypes_of_hasOp hop⟩

include h hr
omit hin

theorem HasMask.spliced (hx : g.Inside func x) (hm : g.HasMask x) : g'.HasMask x := by
  obtain ⟨access, mask, haccess, hmask⟩ := hm
  refine ⟨access.map (renamed old (g.standIn r)), renamed old (g.standIn r) mask, ?_, ?_⟩
  · rw [hs.memAccess?_eq h hr hx, haccess]
    rfl
  · rw [MemAccess.map, hmask]
    rfl

theorem IsUnsupportedRead.spliced (hx : g.Inside func x) (hu : g.IsUnsupportedRead x) :
    g'.IsUnsupportedRead x := by
  have hop := hx.hasOp h.consistent.toNestingAgrees
  refine ⟨by rw [hs.kind_of_hasOp hop, hu.kind], ?_⟩
  rw [hs.attrs_of_hasOp hop]
  exact hu.form.imp_left fun hm => hm.spliced hs h hr hx

end

/-! ## The rule for reads -/

theorem transferReadToUpd_of_hasMask (hm : g.HasMask op) (sizes : AccessSizes) :
    transferReadToUpd.run g op sizes =
      .ok (g, sizes, .refused "masked loads are not supported") := by
  obtain ⟨access, mask, haccess, hmask⟩ := hm
  simp only [transferReadToUpd, Rule.ofDecision, Rule.ofSizedDecision, haccess, hmask, bind,
    Except.bind, Option.isSome_some, if_true]
  rfl

/-- The rule has nothing to do at a read that cannot be lowered. -/
theorem IsUnsupportedRead.not_matched (hu : g.IsUnsupportedRead op) {sizes sizes' : AccessSizes}
    {edits : Edits} : transferReadToUpd.run g op sizes ≠ .ok (g', sizes', .matched edits) := by
  intro hrun
  rcases hu.form with hm | hmap
  · rw [transferReadToUpd_of_hasMask hm] at hrun
    cases hrun
  · obtain ⟨-, decision, hlook, hperform⟩ := Rule.run_ofDecision_eq_ok.mp hrun
    obtain ⟨access?, -, hlook⟩ := bind_eq_ok.mp hlook
    -- Wherever the rule stops, it is before a match.
    have stops : decision = .decline ∨ ∃ reason, decision = .refuse reason := by
      split at hlook
      · cases hlook
        exact Or.inl rfl
      split at hlook
      · cases hlook
        exact Or.inr ⟨_, rfl⟩
      split at hlook
      · cases hlook
        exact Or.inl rfl
      · next map hattr =>
        have hform : (!map.isMinorIdentity || map.isConstant) = true := by
          rcases hmap map hattr with h | h <;> simp [h]
        rw [if_pos hform] at hlook
        cases hlook
        exact Or.inl rfl
    rcases stops with rfl | ⟨reason, rfl⟩ <;> cases hperform

end Graph

/-! ## Visits -/

variable {o : LowerOptions} {func op x : OpId} {size : Nat} {s s' : Application} {gone : List OpId}
  {Q : AccessSizes → AccessSizes → Prop} {c₀ : AccessSizes}

/-- No visit takes a read away that cannot be lowered, or makes it one that can. -/
theorem Application.Visited.keeps_unsupported (h : Scene s.graph gone func)
    (hin : s.graph.Inside func op)
    (hv : Visited o.ruleSet o.target.conversionTarget Q func gone c₀ s op s')
    (hx : s.graph.Inside func x) (hu : s.graph.IsUnsupportedRead x) :
    s.graph.Remains s'.graph func x ∧ s'.graph.IsUnsupportedRead x := by
  cases hv with
  | same hg =>
    rw [hg]
    exact ⟨.refl hx, hu⟩
  | rewritten b old r hrw =>
    obtain ⟨e, he, hk, c, c', touched, hrun, -⟩ := hrw.rule
    have hne : x ≠ op := by
      rintro rfl
      rw [rule_of_transferRead he (hu.kind ▸ hk)] at hrun
      exact hu.not_matched hrun
    exact ⟨hrw.spliced.remains hin hx hne, hu.spliced hrw.spliced h hrw.lawful hx⟩

/-- A visit to a read with a mask leaves a refusal on record. -/
theorem Application.visitOp_of_hasMask (hk : s.graph.kind op = .transferRead)
    (hm : s.graph.HasMask op)
    (hv : s.visitOp o.ruleSet o.target.conversionTarget op = .ok s') : s'.rejected ≠ [] := by
  unfold visitOp at hv
  rw [Generation.legality_transferRead hk] at hv
  dsimp only [bind, Except.bind] at hv
  by_cases hrejected : s.isRejected op = true
  · rw [if_pos (by simp [hrejected])] at hv
    cases hv
    intro hnil
    have hnil : s.rejected = [] := hnil
    rw [isRejected, hnil] at hrejected
    cases hrejected
  · rw [if_neg (by simp [hrejected])] at hv
    -- All rules tried on reads are the same one, and there is one.
    cases hrules : o.ruleSet.forKind (s.graph.kind op) with
    | nil =>
      obtain ⟨e, he, hrule⟩ := o.exists_transferReadToUpd
      have hmem : e ∈ o.ruleSet.forKind (s.graph.kind op) :=
        RuleSet.mem_forKind.mpr ⟨he, by rw [hrule, hk]; decide⟩
      rw [hrules] at hmem
      cases hmem
    | cons e rest =>
      have hmem : e ∈ o.ruleSet.forKind (s.graph.kind op) := hrules ▸ List.mem_cons_self ..
      obtain ⟨he, hroot⟩ := RuleSet.mem_forKind.mp hmem
      rw [hrules, List.map_cons, rule_of_transferRead he (hk ▸ hroot), tryRules,
        transferReadToUpd_of_hasMask hm] at hv
      cases hv
      simp

/-! ## Rounds -/

/-- However many visits are made, a read that cannot be lowered remains. -/
theorem remains_of_visits (h : UprightAt func size s)
    (hv : Relation.ReflTransGen (VisitTo o.ruleSet o.target.conversionTarget func) s s')
    (hx : s.graph.Inside func x) (hu : s.graph.IsUnsupportedRead x) :
    s.graph.Remains s'.graph func x ∧ s'.graph.IsUnsupportedRead x := by
  refine h.visits_induction
    (P := fun t => s.graph.Remains t.graph func x ∧ t.graph.IsUnsupportedRead x) ⟨.refl hx, hu⟩
    (fun ht hin hv ⟨hremains, hu⟩ => ?_) hv
  obtain ⟨hstep, hu⟩ := (LowerOptions.visited ht hin (tracks_any ..) hv).keeps_unsupported
    ht.scene hin hremains.inside hu
  exact ⟨hremains.trans hstep, hu⟩

/-- A round over a function with a masked read ends with a refusal on record. -/
theorem rejected_of_round (h : UprightAt func size s) (hx : s.graph.Inside func x)
    (hk : s.graph.kind x = .transferRead) (hm : s.graph.HasMask x)
    (hround : s.round o.ruleSet o.target.conversionTarget func = .ok s') : s'.rejected ≠ [] := by
  obtain ⟨gone, hc, acyclic⟩ := h.ground
  -- Invariant: the read is still to be visited and has its mask, or something was refused.
  have hend := round_induction (J := fun rest t => (x ∈ rest ∧ t.graph.Inside func x ∧
      t.graph.kind x = .transferRead ∧ t.graph.HasMask x) ∨ t.rejected ≠ [])
    (o.visitsKeep func size) (fun _ h => h.ground) h
    (Or.inl ⟨(mem_postorder hc acyclic).mpr hx, hx, hk, hm⟩) ?_ hround
  · exact hend.1.resolve_left fun h => List.not_mem_nil h.1
  · intro op rest t t' ⟨gone, ht⟩ hpending hJ hv
    have hin := hpending.inside op (List.mem_cons_self ..)
    have hvisited := LowerOptions.visited ht hin (tracks_any ..) hv
    rcases hJ with ⟨hmem, hx, hk, hm⟩ | hrejected
    · by_cases e : x = op
      · subst e
        exact Or.inr (visitOp_of_hasMask hk hm hv)
      · have hrest : x ∈ rest := (List.mem_cons.mp hmem).resolve_left e
        refine Or.inl ⟨hrest, ?_⟩
        cases hvisited with
        | same hg => exact hg ▸ ⟨hx, hk, hm⟩
        | rewritten b old r hrw =>
          have hremains := hrw.spliced.remains hin hx e
          exact ⟨hremains.inside, hremains.kind.trans hk,
            hm.spliced hrw.spliced ht.scene hrw.lawful hx⟩
    · right
      -- What was refused stays refused for the rest of the round.
      intro hnil
      have hpre := rejected_of_visits ⟨gone, ht⟩ (.single ⟨op, hin, hv⟩)
      rw [hnil] at hpre
      exact hrejected (List.prefix_nil.mp hpre)

namespace Graph

variable {g g' : Graph} {answer : Except LowerError LowerReport}

/-- What a lowering with at least one round says about a function with a masked read. -/
theorem unsupported_of_hasMask (hg : Upright g gone func size) (hfunc : g.kind func = .func)
    (hrounds : 1 ≤ o.maxIterations) (hx : g.Inside func x) (hk : g.kind x = .transferRead)
    (hm : g.HasMask x) (h : g.lower func o = .ok (g', answer)) :
    ∃ op kind reason, answer = .error (.unsupported op kind reason) := by
  obtain ⟨-, ⟨hf, -⟩ | ⟨-, s, n, fixpoint, hrun, -, hanswer⟩⟩ := lower_eq_ok h
  · exact absurd hfunc hf
  -- The first round leaves the refusal, and the later ones keep it.
  have hrejected : s.rejected ≠ [] := by
    obtain ⟨left, hleft⟩ := Nat.exists_eq_add_of_le' hrounds
    rw [hleft] at hrun
    obtain ⟨t, hround, hrun⟩ := bind_eq_ok.mp hrun
    have ht := rejected_of_round ⟨gone, hg⟩ hx hk hm hround
    have htu := (round_visits (o.visitsKeep func size) (fun _ h => h.ground) ⟨gone, hg⟩ hround).2
    split at hrun
    · cases hrun
      exact ht
    · intro hnil
      have hpre := rejected_of_visits htu
        (rounds_visits (o.visitsKeep func size) (fun _ h => h.ground) htu hrun).1
      rw [hnil] at hpre
      exact ht (List.prefix_nil.mp hpre)
  cases hanswer with
  | refused first rest _ => exact ⟨first.op, first.kind, first.reason, rfl⟩
  | illegal ops sizes hnil => exact absurd hnil hrejected
  | done ops sizes hnil => exact absurd hnil hrejected

/-- A lowering that succeeds reports every read that is left. -/
theorem mem_remaining (hg : Upright g gone func size) (hx : g.Inside func x)
    (hu : g.IsUnsupportedRead x) {report : LowerReport}
    (h : g.lower func o = .ok (g', .ok report)) : ⟨x, .transferRead⟩ ∈ report.remaining := by
  obtain ⟨-, ⟨-, -, hanswer⟩ | ⟨-, s, n, fixpoint, hrun, -, hanswer⟩⟩ := lower_eq_ok h
  · cases hanswer
  obtain ⟨hvisits, gone', hs⟩ :=
    rounds_visits (o.visitsKeep func size) (fun _ h => h.ground) ⟨gone, hg⟩ hrun
  obtain ⟨hremains, hu⟩ := remains_of_visits ⟨gone, hg⟩ hvisits hx hu
  cases hanswer with
  | done ops sizes _ hverify =>
    have hnested : x ∈ s.graph.nested func := mem_nested_iff.mpr hremains.inside
    have := ConversionTarget.mem_of_verify hverify hnested fun c v c' hlegal => by
      rw [Generation.legality_transferRead hu.kind] at hlegal
      cases hlegal
      rfl
    rwa [hu.kind] at this

/-- Take any function with a history that validates, reads nothing that is still to come and
is made in the generic vocabulary, and any options with at least one round. The lowering
comes back, unless one of the numbers it computes is too large for its machine word. When it does,
every read with a mask, and every read whose map is absent, not a minor identity or constant, is
where it was and what it was; if there is a read with a mask the answer is that it is unsupported;
and if there is any such read, the answer is not a report in which nothing remains. -/
theorem lower_keeps_unsupported_reads {edits : List Edit} {o : LowerOptions}
    (history : Edit.replay edits = .ok (g, gone)) (hreads : ∀ v, g.uses v ≠ [] → g.HasValue v)
    (hfunc : g.HasOp func) (hkind : g.kind func = .func) (hvalid : g.Validates func)
    (hgeneric : ∀ op, g.Inside func op → g.Generic op) (hrounds : 1 ≤ o.maxIterations) :
    (g.lower func o = .error .overflow ∧ g.MayOverflowUnder func) ∨
    ∃ g' answer, g.lower func o = .ok (g', answer) ∧
      (∀ op, g.Inside func op → g.IsUnsupportedRead op → g.Remains g' func op) ∧
      ((∃ op, g.Inside func op ∧ g.kind op = .transferRead ∧ g.HasMask op) →
        ∃ op kind reason, answer = .error (.unsupported op kind reason)) ∧
      ((∃ op, g.Inside func op ∧ g.IsUnsupportedRead op) →
        ∀ report, answer = .ok report → report.remaining ≠ []) := by
  have hg := Upright.of_replay history hreads hfunc hvalid
    fun op hop => (hgeneric op hop).wellShaped
  rcases lower_upright hg (fun op hop => (hgeneric op hop).hasLanes) o with
    ⟨⟨g', answer⟩, h, -⟩ | ⟨e, ⟨rfl, hover⟩, h⟩
  swap
  · exact Or.inl ⟨h, hover⟩
  refine Or.inr ⟨g', answer, h, fun op hop hu => ?_, fun ⟨op, hop, hk, hm⟩ => ?_,
    fun ⟨op, hop, hu⟩ report hreport hnil => ?_⟩
  -- A refused read is never rewritten, so it remains, and verification finds it.
  · obtain ⟨s, hvisits, rfl⟩ := lower_visits hg h
    exact (remains_of_visits ⟨gone, hg⟩ hvisits hop hu).1
  · exact unsupported_of_hasMask hg hkind hrounds hop hk hm h
  · have hmem := mem_remaining hg hop hu (hreport ▸ h)
    rw [hnil] at hmem
    cases hmem

/-- The history of a function that returns what it reads where a mask allows it. -/
def maskedHistory : List Edit :=
  [.createBlock [.memory [32] (.i 32), .index, .vector 16 (.i 1)],
    .createOp (Instr.transferRead (.vector 16 (.i 32)) ⟨0⟩ [⟨1⟩] (.minorIdentity 1) (some ⟨2⟩)),
    .append ⟨0⟩ ⟨0⟩, .createOp (Instr.ret [⟨3⟩]), .append ⟨0⟩ ⟨1⟩, .createRegion [⟨0⟩],
    .createOp (Instr.func "masked" ⟨0⟩)]

/-- The graph the history ends with. -/
def maskedGraph : Graph where
  ops := #[⟨.transferRead, [⟨0⟩, ⟨1⟩, ⟨2⟩], [⟨3⟩],
      .ofList [(AttrName.permutationMap, .map (.minorIdentity 1))], [], some ⟨0⟩⟩,
    ⟨.ret, [⟨3⟩], [], .empty, [], some ⟨0⟩⟩,
    ⟨.func, [], [], .ofList [(AttrName.symName, .str "masked")], [⟨0⟩], none⟩]
  values := #[⟨.argument ⟨0⟩ 0, .memory [32] (.i 32)⟩, ⟨.argument ⟨0⟩ 1, .index⟩,
    ⟨.argument ⟨0⟩ 2, .vector 16 (.i 1)⟩, ⟨.result ⟨0⟩ 0, .vector 16 (.i 32)⟩]
  blocks := #[⟨[⟨0⟩, ⟨1⟩, ⟨2⟩], [⟨0⟩, ⟨1⟩], some ⟨0⟩⟩]
  regions := #[⟨[⟨0⟩], some ⟨2⟩⟩]
  chains := #[[⟨⟨0⟩, 0⟩], [⟨⟨0⟩, 1⟩], [⟨⟨0⟩, 2⟩], [⟨⟨1⟩, 0⟩]]

theorem maskedGraph_history : Edit.replay maskedHistory = .ok (maskedGraph, []) := by cbv

/-- A masked read is refused although nothing illegal need be an error. -/
theorem lower_keeps_unsupported_reads_masked : ∃ g' op kind reason,
    maskedGraph.lower ⟨2⟩ ⟨.aie, 0, 1, false⟩ = .ok (g', .error (.unsupported op kind reason)) ∧
      maskedGraph.Remains g' ⟨2⟩ ⟨0⟩ := by
  have hvalid : maskedGraph.Validates ⟨2⟩ := .of_replay maskedGraph_history rfl (by cbv)
  have hread : maskedGraph.Inside ⟨2⟩ ⟨0⟩ := mem_nested_iff.mp (by decide)
  have hmask : maskedGraph.HasMask ⟨0⟩ := ⟨⟨⟨0⟩, [⟨1⟩], some ⟨2⟩⟩, ⟨2⟩, rfl, rfl⟩
  have hgeneric : ∀ op, maskedGraph.Inside ⟨2⟩ op → maskedGraph.Generic op := by
    intro op hop
    have hlist : maskedGraph.nested ⟨2⟩ = [⟨0⟩, ⟨1⟩] := by decide
    have hmem := mem_nested_iff.mpr hop
    rw [hlist] at hmem
    rcases List.mem_pair.mp hmem with rfl | rfl
    · refine ⟨⟨_, .transferRead (.vector 16 (.i 32)) ⟨0⟩ [⟨1⟩] (.minorIdentity 1) (some ⟨2⟩), rfl,
        rfl, rfl, rfl, rfl⟩, fun n elem h => ?_⟩
      cases List.mem_singleton.mp h
      decide
    · exact ⟨⟨_, .ret [⟨3⟩], rfl, rfl, rfl, rfl, rfl⟩, fun n elem h => by cases h⟩
  -- Nothing is computed for a read that is refused.
  have hrun : maskedGraph.lower ⟨2⟩ ⟨.aie, 0, 1, false⟩ = .ok (maskedGraph,
      .error (.unsupported ⟨0⟩ .transferRead "masked loads are not supported")) := by cbv
  obtain ⟨hfails, -⟩ | ⟨g', answer, h, hremains, hunsupported, -⟩ :=
    lower_keeps_unsupported_reads (o := ⟨.aie, 0, 1, false⟩) maskedGraph_history
      (hasValue_of_uses (Nat.le_refl 4)) (by decide) rfl hvalid hgeneric (Nat.le_refl 1)
  · rw [hrun] at hfails
    cases hfails
  obtain ⟨op, kind, reason, rfl⟩ := hunsupported ⟨⟨0⟩, hread, rfl, hmask⟩
  exact ⟨g', op, kind, reason, h, hremains ⟨0⟩ hread ⟨rfl, Or.inl hmask⟩⟩

/-- The history of a function that also returns the smaller lanes of two vectors of more than
`2 ^ 32` bits. -/
def maskedLongHistory : List Edit :=
  [.createBlock [.memory [32] (.i 32), .index, .vector 16 (.i 1), .vector 134217744 (.i 32)],
    .createOp (Instr.transferRead (.vector 16 (.i 32)) ⟨0⟩ [⟨1⟩] (.minorIdentity 1) (some ⟨2⟩)),
    .append ⟨0⟩ ⟨0⟩, .createOp (Instr.binary .minsi ⟨⟨3⟩, .vector 134217744 (.i 32)⟩ ⟨3⟩),
    .append ⟨0⟩ ⟨1⟩, .createOp (Instr.ret [⟨4⟩, ⟨5⟩]), .append ⟨0⟩ ⟨2⟩, .createRegion [⟨0⟩],
    .createOp (Instr.func "masked_long" ⟨0⟩)]

/-- The graph the history ends with. -/
def maskedLongGraph : Graph where
  ops := #[⟨.transferRead, [⟨0⟩, ⟨1⟩, ⟨2⟩], [⟨4⟩],
      .ofList [(AttrName.permutationMap, .map (.minorIdentity 1))], [], some ⟨0⟩⟩,
    ⟨.minsi, [⟨3⟩, ⟨3⟩], [⟨5⟩], .empty, [], some ⟨0⟩⟩,
    ⟨.ret, [⟨4⟩, ⟨5⟩], [], .empty, [], some ⟨0⟩⟩,
    ⟨.func, [], [], .ofList [(AttrName.symName, .str "masked_long")], [⟨0⟩], none⟩]
  values := #[⟨.argument ⟨0⟩ 0, .memory [32] (.i 32)⟩, ⟨.argument ⟨0⟩ 1, .index⟩,
    ⟨.argument ⟨0⟩ 2, .vector 16 (.i 1)⟩, ⟨.argument ⟨0⟩ 3, .vector 134217744 (.i 32)⟩,
    ⟨.result ⟨0⟩ 0, .vector 16 (.i 32)⟩, ⟨.result ⟨1⟩ 0, .vector 134217744 (.i 32)⟩]
  blocks := #[⟨[⟨0⟩, ⟨1⟩, ⟨2⟩, ⟨3⟩], [⟨0⟩, ⟨1⟩, ⟨2⟩], some ⟨0⟩⟩]
  regions := #[⟨[⟨0⟩], some ⟨3⟩⟩]
  chains := #[[⟨⟨0⟩, 0⟩], [⟨⟨0⟩, 1⟩], [⟨⟨0⟩, 2⟩], [⟨⟨1⟩, 0⟩, ⟨⟨1⟩, 1⟩], [⟨⟨2⟩, 0⟩], [⟨⟨2⟩, 1⟩]]

/-- The masked read is refused here, too, but the lowering does not live to tell: the bits of the
minimum cannot be counted. -/
theorem lower_masked_overflows :
    Edit.replay maskedLongHistory = .ok (maskedLongGraph, []) ∧ maskedLongGraph.Validates ⟨3⟩ ∧
      (∀ op, maskedLongGraph.Inside ⟨3⟩ op → maskedLongGraph.Generic op) ∧
      maskedLongGraph.Inside ⟨3⟩ ⟨0⟩ ∧ maskedLongGraph.kind ⟨0⟩ = .transferRead ∧
      maskedLongGraph.HasMask ⟨0⟩ ∧
      maskedLongGraph.lower ⟨3⟩ ⟨.aieml, 0, 1, false⟩ = .error .overflow := by
  have history : Edit.replay maskedLongHistory = .ok (maskedLongGraph, []) := by cbv
  refine ⟨history, .of_replay history rfl (by cbv), fun op hop => ?_, mem_nested_iff.mp (by decide),
    rfl, ⟨⟨⟨0⟩, [⟨1⟩], some ⟨2⟩⟩, ⟨2⟩, rfl, rfl⟩, by cbv⟩
  have hlist : maskedLongGraph.nested ⟨3⟩ = [⟨0⟩, ⟨1⟩, ⟨2⟩] := by decide
  have hmem := hlist ▸ mem_nested_iff.mpr hop
  simp only [List.mem_cons, List.not_mem_nil, or_false] at hmem
  rcases hmem with rfl | rfl | rfl
  · refine ⟨⟨_, .transferRead (.vector 16 (.i 32)) ⟨0⟩ [⟨1⟩] (.minorIdentity 1) (some ⟨2⟩), rfl,
      rfl, rfl, rfl, rfl⟩, fun n elem h => ?_⟩
    cases List.mem_singleton.mp h
    decide
  · refine ⟨⟨_, .binary .minsi ⟨3⟩ ⟨3⟩ (by decide), rfl, rfl, rfl, rfl, rfl⟩, fun n elem h => ?_⟩
    cases List.mem_singleton.mp h
    decide
  · exact ⟨⟨_, .ret [⟨4⟩, ⟨5⟩], rfl, rfl, rfl, rfl, rfl⟩, fun n elem h => by cases h⟩

end Graph

end SimdLowering
