/-
What validation of the order reports.

The scan carries a list of visible values into every block and lets it grow from one operation
to the next. Whether it reports the right slots is a matter of where a value is defined: an
operation has in scope the arguments of the blocks that enclose it, and of each such block the
results of the operations that stand before it there, or before the operation of that block
that holds it. Only blocks under the root count. This file states the scope in these words and
proves that the report is, in pre-order and slot order, one error for each slot that holds a
value out of scope.

A report without errors also says that reading runs in no circle. Reading goes against the order
in which a round gets to the operations: a value in scope was defined next to an ancestor of its
reader and before it, so everything below its definition is over when the reader's turn comes.
-/
import SimdLowering.Proofs.Graph.Closed
import SimdLowering.Proofs.Graph.Survivors
import Mathlib.Logic.Relation

set_option autoImplicit false

namespace SimdLowering

namespace Graph

variable {g : Graph} {gone : List OpId} {root o : OpId} {b : BlockId} {r s : RegionId}
  {v : ValueId} {n m d : Nat}

/-! ## Finite nesting -/

/-- The ways down from the root are bounded in length, so that whatever walks the nesting under it
comes to an end. -/
def NestsFinitely (g : Graph) (root : OpId) : Prop := ∃ n, ∀ m r, g.Under root m r → m ≤ n

/-- The way to an operation can be put before any way that starts from it. -/
theorem Under.append (h : g.Under root n r) (hb : b ∈ g.blocksIn r) (ho : o ∈ g.opsIn b)
    (hs : g.Under o m s) : g.Under root (n + m) s := by
  induction hs with
  | own hs => exact .inner h hb ho hs
  | inner _ hb' ho' hs ih => exact .inner ih hb' ho' hs

/-- Every record has one parent, so the nesting is infinite only where the root lies inside
itself. -/
theorem nestsFinitely_iff (hn : NestingAgrees g) :
    g.NestsFinitely root ↔ ¬ g.Inside root root := by
  constructor
  · rintro ⟨n, hbound⟩ ⟨b, ⟨k, r, hk, hb⟩, ho⟩
    -- Going round once more is always longer.
    have longer : ∀ j, ∃ m s, j ≤ m ∧ g.Under root m s := by
      intro j
      induction j with
      | zero => exact ⟨k, r, Nat.zero_le k, hk⟩
      | succ j ih =>
        obtain ⟨m, s, hm, hs⟩ := ih
        have := hk.pos
        exact ⟨k + m, s, by omega, hk.append hb ho hs⟩
    obtain ⟨m, s, hm, hs⟩ := longer (n + 1)
    have := hbound m s hs
    omega
  · intro acyclic
    exact ⟨g.regions.size, fun _ _ h => h.le_size hn acyclic⟩

/-- A listing that is not cut off does not change when it may go deeper. -/
theorem preorderWithin_succ (h : ∀ n r, g.Under o n r → n < d) (hd : 0 < d) :
    g.preorderWithin d o = g.preorderWithin (d + 1) o := by
  induction d generalizing o with
  | zero => omega
  | succ d ih =>
    rw [preorderWithin, preorderWithin]
    congr 1
    refine List.flatMap_congr fun p hp => ?_
    obtain ⟨r, b, hr, hb, hpb⟩ := mem_innerOps.mp hp
    have hone := h 1 r (.own hr)
    apply ih
    · intro n s hs
      have := h (n + 1) s (.descend hr hb hpb hs)
      omega
    · omega

/-- What lies under a root with a finite nesting has one itself. -/
theorem NestsFinitely.inside (finite : g.NestsFinitely root) (ho : g.Inside root o) :
    g.NestsFinitely o := by
  obtain ⟨n, hbound⟩ := finite
  obtain ⟨b, ⟨k, r, hu, hb⟩, ho⟩ := ho
  refine ⟨n, fun m s hs => ?_⟩
  have := hbound (k + m) s (hu.append hb ho hs)
  omega

/-- In a finite nesting, an operation is listed before what is nested in it. -/
theorem preorder_eq_of_finite (hn : NestingAgrees g) (finite : g.NestsFinitely o) :
    g.preorder o = o :: g.nested o := by
  have acyclic := (nestsFinitely_iff hn).mp finite
  rw [preorder, depthBound, preorderWithin]
  congr 1
  refine List.flatMap_congr fun p hp => ?_
  obtain ⟨r, b, hr, hb, hpb⟩ := mem_innerOps.mp hp
  -- From the operation it takes one region more than from `p`.
  have hbelow : ∀ n s, g.Under p n s → n < g.regions.size := by
    intro n s hs
    exact (Under.descend hr hb hpb hs).le_size hn acyclic
  have hsize : 0 < g.regions.size := (Under.own hr).le_size hn acyclic
  exact preorderWithin_succ hbelow hsize

/-- An operation under the root is listed before what it holds directly, each with all that is
nested in it. -/
theorem preorder_eq (hn : NestingAgrees g) (acyclic : ¬ g.Inside root root)
    (ho : g.Inside root o) : g.preorder o = o :: (g.innerOps o).flatMap g.preorder := by
  have finite : g.NestsFinitely root := (nestsFinitely_iff hn).mpr acyclic
  exact preorder_eq_of_finite hn (finite.inside ho)

/-! ## Scope -/

/-- The value is in scope at the operation: some block under the root that the operation is in,
or is nested in, has the value as an argument, or lists an operation with this result before the
one that it is or that holds it. -/
def InScope (g : Graph) (root o : OpId) (v : ValueId) : Prop :=
  ∃ b a, g.HoldsBlock root b ∧ a ∈ g.opsIn b ∧ (∃ n, g.Within n a o) ∧
    (v ∈ g.argsOf b ∨ ∃ p, Precedes (g.opsIn b) p a ∧ v ∈ g.results p)

theorem Visible.inScope (hc : Consistent g gone) (ho : g.Inside root o)
    (h : g.Visible root o v) : g.InScope root o v := by
  induction h with
  | argument hob hv =>
    obtain ⟨c, hroot, hoc⟩ := ho
    obtain rfl := hc.block_unique hob hoc
    exact ⟨_, _, hroot, hob, ⟨0, .self _⟩, Or.inl hv⟩
  | earlier hp hv =>
    obtain ⟨c, hroot, hoc⟩ := ho
    obtain rfl := hc.block_unique hp.mem_right hoc
    exact ⟨_, _, hroot, hoc, ⟨0, .self _⟩, Or.inr ⟨_, hp, hv⟩⟩
  | outer hne hr hb hob _ ih =>
    -- Who owns the region is under the root as well, and what it has in scope is in scope here.
    obtain ⟨c, hroot, hoc⟩ := ho
    obtain rfl := hc.block_unique hob hoc
    have hq := (hroot.owner hc.toNestingAgrees hb hr).resolve_left hne
    obtain ⟨b, a, hbroot, ha, ⟨n, hw⟩, hv⟩ := ih hq
    exact ⟨b, a, hbroot, ha, ⟨n + 1, .deeper hw hr hb hob⟩, hv⟩

theorem InScope.visible (acyclic : ¬ g.Inside root root) (h : g.InScope root o v) :
    g.Visible root o v := by
  obtain ⟨b, a, hroot, ha, ⟨n, hw⟩, hv⟩ := h
  obtain ⟨m, hlevel⟩ := inside_iff_onLevel.mp (hroot.inside ha)
  induction hw with
  | self =>
    rcases hv with hv | ⟨p, hp, hv⟩
    · exact .argument ha hv
    · exact .earlier hp hv
  | @deeper k a q x t c hw hr hb hx ih =>
    have hne : q ≠ root := by
      rintro rfl
      exact acyclic (inside_iff_onLevel.mpr ⟨_, hlevel.within hw⟩)
    exact .outer hne hr hb hx (ih ha hv hlevel)

/-- What an operation under the root can read is what it has in scope. -/
theorem visible_iff_inScope (hc : Consistent g gone) (acyclic : ¬ g.Inside root root)
    (ho : g.Inside root o) : g.Visible root o v ↔ g.InScope root o v :=
  ⟨fun h => h.inScope hc ho, fun h => h.visible acyclic⟩

/-! ## Reading in circles -/

/-- Both operations lie under the root, and the first reads a result of the second. -/
def ReadsResult (g : Graph) (root x y : OpId) : Prop :=
  g.Inside root x ∧ g.Inside root y ∧ ∃ v ∈ g.operands x, v ∈ g.results y

/-- A relation that never leads from a member of a list to itself or to a later one has no
cycle. -/
theorem not_transGen_self {α : Type} [DecidableEq α] {l : List α} {R : α → α → Prop}
    (members : ∀ x y, R x y → x ∈ l ∧ y ∈ l) (irrefl : ∀ x, ¬ R x x)
    (back : l.Pairwise fun x y => ¬ R x y) (x : α) : ¬ Relation.TransGen R x x := by
  -- Each step goes to an earlier place in the list, so no way leads back.
  have step : ∀ x y, R x y → l.idxOf y < l.idxOf x := by
    intro x y hxy
    obtain ⟨hx, hy⟩ := members x y hxy
    have hi := List.idxOf_lt_length_of_mem hx
    have hj := List.idxOf_lt_length_of_mem hy
    rcases Nat.lt_trichotomy (l.idxOf x) (l.idxOf y) with hlt | heq | hgt
    · have := List.pairwise_iff_getElem.mp back _ _ hi hj hlt
      rw [List.getElem_idxOf, List.getElem_idxOf] at this
      exact absurd hxy this
    · obtain rfl := (List.idxOf_inj hx).mp heq
      exact absurd hxy (irrefl x)
    · exact hgt
  have chain : ∀ y, Relation.TransGen R x y → l.idxOf y < l.idxOf x := by
    intro y h
    induction h with
    | single h => exact step _ _ h
    | tail _ h ih => exact Nat.lt_trans (step _ _ h) ih
  intro h
  exact Nat.lt_irrefl _ (chain x h)

/-- Where operations read only what they see, reading goes back in the order in which a round
gets to them, and so never comes round. -/
theorem not_transGen_readsResult (hc : Consistent g gone) (acyclic : ¬ g.Inside root root)
    (visible : ∀ o, g.Inside root o → ∀ v ∈ g.operands o, g.Visible root o v) (o : OpId) :
    ¬ Relation.TransGen (g.ReadsResult root) o o := by
  refine not_transGen_self (l := g.postorder root) (fun x y h => ?_) (fun x h => ?_) ?_ o
  · exact ⟨(mem_postorder hc acyclic).mpr h.1, (mem_postorder hc acyclic).mpr h.2.1⟩
  · obtain ⟨hx, -, v, hread, hresult⟩ := h
    exact hx.not_visible hc acyclic hresult (visible x hx v hread)
  · refine (pairwise_postorder hc acyclic).imp fun {x y} hunaware h => ?_
    obtain ⟨hx, -, v, hread, hresult⟩ := h
    exact hunaware.2 v hresult (visible x hx v hread)

/-! ## The report -/

/-- Where what is read exists, the report has one error for each slot that holds a value out of
scope, in pre-order and slot order. -/
theorem orderErrors_eq (hc : Consistent g gone) (acyclic : ¬ g.Inside root root) :
    g.orderErrors root =
      if g.readsExist root then
        .ok ((g.nested root).flatMap fun o => g.unseenOperands (g.InScope root o) o)
      else .error .broken := by
  have scope : (g.nested root).flatMap (fun o => g.unseenOperands (g.Visible root o) o) =
      (g.nested root).flatMap fun o => g.unseenOperands (g.InScope root o) o := by
    refine List.flatMap_congr fun o ho => ?_
    have ho := mem_nested_iff.mp ho
    congr 1
    funext v
    exact propext (visible_iff_inScope hc acyclic ho)
  rw [orderErrors, orderErrorsWithin_root_eq hc acyclic, scope]

/-- Take any graph with a history and any root in it whose nesting is finite. The listing of what
is nested in the root names every operation there once, each before what it holds. Validation of
the order reports, along this listing and slot by slot, one error for each slot of an operation
there that holds a value out of scope; to do so it needs that what is read exists, which is so
after every history that makes operations read existing values only. If it reports nothing, no
chain of operations there, each reading a result of the next, comes back to where it began. -/
theorem orderErrors_exact {edits : List Edit} (history : Edit.replay edits = .ok (g, gone))
    (finite : g.NestsFinitely root) :
    (g.nested root = (g.innerOps root).flatMap g.preorder ∧
      (∀ o, g.Inside root o → g.preorder o = o :: (g.innerOps o).flatMap g.preorder) ∧
      (g.nested root).Nodup ∧ ∀ o, o ∈ g.nested root ↔ g.Inside root o) ∧
    (g.orderErrors root =
      if g.readsExist root then
        .ok ((g.nested root).flatMap fun o => g.unseenOperands (g.InScope root o) o)
      else .error .broken) ∧
    (Edit.replayKnown edits = .ok (g, gone) → g.readsExist root = true) ∧
    (g.orderErrors root = .ok [] → ∀ o, ¬ Relation.TransGen (g.ReadsResult root) o o) := by
  have hc := consistent_of_replay history
  have acyclic := (nestsFinitely_iff hc.toNestingAgrees).mp finite
  refine ⟨⟨rfl, fun o ho => preorder_eq hc.toNestingAgrees acyclic ho, nodup_nested hc acyclic,
    fun o => mem_nested_iff⟩, orderErrors_eq hc acyclic, fun hknown => ?_, fun hnone => ?_⟩
  · simp only [readsExist, List.all_eq_true, value?_isSome_iff]
    intro o _ v hv
    exact hasValue_of_replayKnown hknown o v hv
  -- Without errors every read is visible, so what is read comes before its reader.
  · have hvalid : g.OrderValidates root := ⟨acyclic, hnone⟩
    exact not_transGen_readsResult hc acyclic (hvalid.visible hc)

/-- The history of a function around another one. The inner function adds two constants of the
outer one, of which the second is placed after the inner function, and the outer function returns
the sum, which it does not see. A second return of the sum was created and removed. -/
def strayReadHistory : List Edit :=
  [.createBlock [.i 32], .createOp (Instr.constantInt (.i 32) 7), .append ⟨0⟩ ⟨0⟩,
    .createOp (Instr.constantInt (.i 32) 8), .createBlock [],
    .createOp (Instr.binary .addi ⟨⟨1⟩, .i 32⟩ ⟨2⟩), .append ⟨1⟩ ⟨2⟩, .createRegion [⟨1⟩],
    .createOp (Instr.func "inner" ⟨0⟩), .append ⟨0⟩ ⟨3⟩, .append ⟨0⟩ ⟨1⟩,
    .createOp (Instr.ret [⟨3⟩]), .append ⟨0⟩ ⟨4⟩, .createRegion [⟨0⟩],
    .createOp (Instr.func "outer" ⟨1⟩), .createOp (Instr.ret [⟨3⟩]), .removeOp ⟨6⟩]

/-- The graph that this history ends with. -/
def strayReadGraph : Graph where
  ops := #[⟨.constant, [], [⟨1⟩], ⟨[("value", .int 7)]⟩, [], some ⟨0⟩⟩,
    ⟨.constant, [], [⟨2⟩], ⟨[("value", .int 8)]⟩, [], some ⟨0⟩⟩,
    ⟨.addi, [⟨1⟩, ⟨2⟩], [⟨3⟩], .empty, [], some ⟨1⟩⟩,
    ⟨.func, [], [], ⟨[("sym_name", .str "inner")]⟩, [⟨0⟩], some ⟨0⟩⟩,
    ⟨.ret, [⟨3⟩], [], .empty, [], some ⟨0⟩⟩,
    ⟨.func, [], [], ⟨[("sym_name", .str "outer")]⟩, [⟨1⟩], none⟩,
    ⟨.ret, [⟨3⟩], [], .empty, [], none⟩]
  values := #[⟨.argument ⟨0⟩ 0, .i 32⟩, ⟨.result ⟨0⟩ 0, .i 32⟩, ⟨.result ⟨1⟩ 0, .i 32⟩,
    ⟨.result ⟨2⟩ 0, .i 32⟩]
  blocks := #[⟨[⟨0⟩], [⟨0⟩, ⟨3⟩, ⟨1⟩, ⟨4⟩], some ⟨1⟩⟩, ⟨[], [⟨2⟩], some ⟨0⟩⟩]
  regions := #[⟨[⟨1⟩], some ⟨3⟩⟩, ⟨[⟨0⟩], some ⟨5⟩⟩]
  chains := #[[], [⟨⟨2⟩, 0⟩], [⟨⟨2⟩, 1⟩], [⟨⟨4⟩, 0⟩]]

theorem strayReadGraph_history : Edit.replay strayReadHistory = .ok (strayReadGraph, [⟨6⟩]) := by
  cbv

theorem strayReadGraph_nested : strayReadGraph.nested ⟨5⟩ = [⟨0⟩, ⟨3⟩, ⟨2⟩, ⟨1⟩, ⟨4⟩] := by
  cbv

theorem strayReadGraph_finite : strayReadGraph.NestsFinitely ⟨5⟩ := by
  rw [nestsFinitely_iff (consistent_of_replay strayReadGraph_history).toNestingAgrees]
  exact not_inside_of_replay strayReadGraph_history rfl

/-- The sum reads its second constant before it comes, and the outer return reads the sum from
outside. The first constant is in scope inside the inner function. -/
theorem orderErrors_exact_strayReads :
    Edit.replay strayReadHistory = .ok (strayReadGraph, [⟨6⟩]) ∧
    strayReadGraph.NestsFinitely ⟨5⟩ ∧
    strayReadGraph.nested ⟨5⟩ = [⟨0⟩, ⟨3⟩, ⟨2⟩, ⟨1⟩, ⟨4⟩] ∧
    strayReadGraph.orderErrors ⟨5⟩ =
      .ok [.useBeforeDef ⟨2⟩ .addi 1 ⟨2⟩ "result #0 of arith.constant",
        .useBeforeDef ⟨4⟩ .ret 0 ⟨3⟩ "result #0 of arith.addi"] ∧
    (strayReadGraph.nested ⟨5⟩).flatMap (fun o =>
        strayReadGraph.unseenOperands (strayReadGraph.InScope ⟨5⟩ o) o) =
      [.useBeforeDef ⟨2⟩ .addi 1 ⟨2⟩ "result #0 of arith.constant",
        .useBeforeDef ⟨4⟩ .ret 0 ⟨3⟩ "result #0 of arith.addi"] := by
  have hreport : strayReadGraph.orderErrors ⟨5⟩ =
      .ok [.useBeforeDef ⟨2⟩ .addi 1 ⟨2⟩ "result #0 of arith.constant",
        .useBeforeDef ⟨4⟩ .ret 0 ⟨3⟩ "result #0 of arith.addi"] := by cbv
  have hknown : Edit.replayKnown strayReadHistory = .ok (strayReadGraph, [⟨6⟩]) := by cbv
  obtain ⟨-, hexact, hreads, -⟩ := orderErrors_exact strayReadGraph_history strayReadGraph_finite
  rw [if_pos (hreads hknown)] at hexact
  exact ⟨strayReadGraph_history, strayReadGraph_finite, strayReadGraph_nested, hreport,
    Except.ok.inj (hexact.symm.trans hreport)⟩

end Graph

end SimdLowering
