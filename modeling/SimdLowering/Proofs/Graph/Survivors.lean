/-
What removing dead operations leaves behind.

Two descriptions of the same thing meet here. One is operational: blocks are swept from their
ends, nested regions first, until a sweep finds nothing. The other says nothing of sweeps: an
operation survives if a chain of readers leads from it to one that stays whatever happens. The
theorem at the end equates them for every root whose order validates, and says how many sweeps
it takes: one where nothing is dead, and two otherwise, whatever the length of the chains.

The chains are those of the graph before the first sweep. A reader that had been removed before,
and put back into a block since, is on no chain: what it reads is not kept alive by it.
-/
import SimdLowering.Proofs.Graph.Sweeps

set_option autoImplicit false

namespace SimdLowering

namespace Graph

variable {g g₀ : Graph} {gone dropped : List OpId} {root o x : OpId} {d : Nat} {t : Graph × Nat}
  {D : OpId → Prop}

/-! ## Roots whose order validates -/

/-- Validation of the order under a root comes back, which it does not where the root lies inside
itself, and finds nothing. -/
def OrderValidates (g : Graph) (root : OpId) : Prop :=
  ¬ g.Inside root root ∧ g.orderErrors root = .ok []

/-- What lies under such a root reads only what it can see. -/
theorem OrderValidates.visible (hc : Consistent g gone) (h : g.OrderValidates root) :
    ∀ o, g.Inside root o → ∀ v ∈ g.operands o, g.Visible root o v := by
  obtain ⟨acyclic, h⟩ := h
  rw [orderErrors] at h
  split at h
  · exact (orderErrorsWithin_root_eq_nil hc acyclic).mp (Except.ok.inj h)
  · cases h

/-! ## The listing after a sweep -/

/-- Filtering a listing that is put together filters its parts, and the parts of what is filtered
out have to go as a whole. -/
theorem flatMap_filter_eq {α β : Type} {f f' : α → List β} {p : α → Bool} {q : β → Bool}
    {l : List α} (kept : ∀ a ∈ l, p a = true → f' a = (f a).filter q)
    (left : ∀ a ∈ l, p a = false → (f a).filter q = []) :
    (l.filter p).flatMap f' = (l.flatMap f).filter q := by
  induction l with
  | nil => rfl
  | cons a l ih =>
    have ih := ih (fun a ha => kept a (List.mem_cons_of_mem _ ha))
      fun a ha => left a (List.mem_cons_of_mem _ ha)
    rw [List.flatMap_cons, List.filter_append, ← ih]
    cases hp : p a with
    | true => rw [List.filter_cons_of_pos hp, List.flatMap_cons, kept a (List.mem_cons_self ..) hp]
    | false =>
      rw [List.filter_cons_of_neg (by simp [hp]), left a (List.mem_cons_self ..) hp]
      rfl

namespace Sweeping

variable (h : Sweeping g₀ gone root D t dropped)
include h

/-- What has been dropped owned nothing. -/
theorem bare (hx : x ∈ dropped) : g₀.regionsOf x = [] := by
  by_contra howns
  apply (h.needless x hx).2.2
  exact Stays.needed (Or.inr (Or.inl howns))

theorem innerOps (o : OpId) : t.1.innerOps o = (g₀.innerOps o).filter fun x => x ∉ dropped := by
  have hregion : t.1.opsOfRegion = fun r => (g₀.opsOfRegion r).filter fun x => x ∉ dropped := by
    funext r
    rw [opsOfRegion, h.cleared.blocksIn, opsOfRegion, List.filter_flatMap]
    exact congrArg (fun f => List.flatMap f _) (funext h.opsIn)
  rw [Graph.innerOps, h.cleared.regionsOf, hregion, Graph.innerOps, List.filter_flatMap]

/-- The listing below an operation that is left is the old one without what has been dropped. -/
theorem preorderWithin (o : OpId) (ho : o ∉ dropped) :
    t.1.preorderWithin d o = (g₀.preorderWithin d o).filter fun x => x ∉ dropped := by
  induction d generalizing o with
  | zero => rfl
  | succ d ih =>
    rw [Graph.preorderWithin, Graph.preorderWithin, List.filter_cons_of_pos (by simpa using ho),
      h.innerOps]
    congr 1
    apply flatMap_filter_eq
    · intro p _ hp
      exact ih p (by simpa using hp)
    · intro p _ hp
      have hp : p ∈ dropped := by simpa using hp
      cases d with
      | zero => rfl
      | succ d =>
        -- Nothing hangs below what has been dropped.
        have hnone : g₀.innerOps p = [] := by rw [Graph.innerOps, h.bare hp, List.flatMap_nil]
        rw [Graph.preorderWithin, hnone]
        simpa using hp

theorem nested : t.1.nested root = (g₀.nested root).filter fun x => x ∉ dropped := by
  rw [Graph.nested, Graph.nested, h.innerOps]
  -- Regions are never deleted from their table, so the listing goes as deep as before.
  have hdepth : t.1.depthBound = g₀.depthBound := by rw [depthBound, depthBound, h.cleared.regions]
  apply flatMap_filter_eq
  · intro o _ ho
    rw [preorder, preorder, hdepth]
    exact h.preorderWithin o (by simpa using ho)
  · intro o _ ho
    have ho : o ∈ dropped := by simpa using ho
    have hnone : g₀.innerOps o = [] := by rw [Graph.innerOps, h.bare ho, List.flatMap_nil]
    rw [preorder, depthBound, Graph.preorderWithin, hnone]
    simpa using ho

/-- As many operations have been dropped as are listed no more. -/
theorem length_nested (hc : Consistent g₀ gone) (acyclic : ¬ g₀.Inside root root) :
    (g₀.nested root).length = (t.1.nested root).length + dropped.length := by
  -- What has been dropped is all listed once, so it can be counted by filtering the listing.
  have hdropped : ((g₀.nested root).filter fun x => x ∈ dropped).Perm dropped := by
    apply (List.perm_ext_iff_of_nodup ((nodup_nested hc acyclic).filter _) h.nodup).mpr
    intro x
    rw [List.mem_filter, mem_nested_iff, decide_eq_true_eq]
    exact ⟨fun hx => hx.2, fun hx => ⟨(h.needless x hx).2.1, hx⟩⟩
  rw [h.nested, ← hdropped.length_eq, Nat.add_comm,
    List.length_eq_length_filter_add (l := g₀.nested root) fun x => x ∈ dropped]
  simp

end Sweeping

/-! ## The whole removal -/

/-- Take any graph with a history, any root in it whose order validates, and any way to sweep
that goes into nested regions and is not limited to one sweep. Then the removal of dead operations
comes back with a fixpoint. What is left under the root is what is needed, in the order it was
in; as many operations are gone as are counted; and one sweep was made if everything was needed,
and two if not. -/
theorem eliminateDead_exact {edits : List Edit} (history : Edit.replay edits = .ok (g, gone))
    (hvalid : g.OrderValidates root) {config : SweepConfig} (hrecursive : config.recursive = true)
    (hbudget : config.budget = 0 ∨ 2 ≤ config.budget) :
    ∃ g' result, g.eliminateDead root config = .ok (g', result) ∧
      (∀ x, x ∈ g'.nested root ↔ x ∈ g.nested root ∧ g.Needed gone root x) ∧
      (g'.nested root).Sublist (g.nested root) ∧ (∀ b, (g'.opsIn b).Sublist (g.opsIn b)) ∧
      (g.nested root).length = (g'.nested root).length + result.removed ∧
      result.fixpoint = true ∧
      ((∀ x ∈ g.nested root, g.Needed gone root x) → result.iterations = 1) ∧
      ((∃ x ∈ g.nested root, ¬ g.Needed gone root x) → result.iterations = 2) := by
  have hc := consistent_of_replay history
  have acyclic := hvalid.1
  obtain ⟨t, dropped, hrun, ht⟩ :=
    sweep_exact hc acyclic fun o hin _ => hvalid.visible hc o hin
  -- One sweep has dropped all there is to drop, so a second one can only find nothing.
  have hend := eliminateDead_of_sweep hrecursive hbudget hrun fun x hx => ht.live hx
  have hneeded : ∀ x, x ∉ dropped ↔ g.Needed gone root x := fun x =>
    ⟨ht.needed x trivial, fun hneed hmem => (ht.needless x hmem).2.2 hneed⟩
  refine ⟨_, _, hend, ?_, ?_, ht.cleared.opsIn, ?_, rfl, ?_, ?_⟩
  · intro x
    rw [ht.nested, List.mem_filter, decide_eq_true_eq, hneeded]
  · rw [ht.nested]
    exact List.filter_sublist
  · rw [ht.count]
    exact ht.length_nested hc acyclic
  · intro hall
    have hnone : dropped = [] := by
      apply List.eq_nil_iff_forall_not_mem.mpr
      intro x hx
      have hin := mem_nested_iff.mpr (ht.needless x hx).2.1
      exact (ht.needless x hx).2.2 (hall x hin)
    simp [ht.count, hnone]
  · rintro ⟨x, -, hx⟩
    have hmem : x ∈ dropped := by
      by_contra hmem
      exact hx ((hneeded x).mp hmem)
    simp [ht.count, List.ne_nil_of_mem hmem]

/-- The history of a function that returns its argument. Before the return there is a constant,
and a function in which the constant is added to the argument; nobody reads the sum. -/
def outerReadHistory : List Edit :=
  [.createBlock [.i 32], .createOp (Instr.constantInt (.i 32) 7), .append ⟨0⟩ ⟨0⟩, .createBlock [],
    .createOp (Instr.binary .addi ⟨⟨1⟩, .i 32⟩ ⟨0⟩), .append ⟨1⟩ ⟨1⟩, .createRegion [⟨1⟩],
    .createOp (Instr.func "inner" ⟨0⟩), .append ⟨0⟩ ⟨2⟩, .createOp (Instr.ret [⟨0⟩]),
    .append ⟨0⟩ ⟨3⟩, .createRegion [⟨0⟩], .createOp (Instr.func "outer" ⟨1⟩)]

/-- The graph that this history ends with. -/
def outerReadGraph : Graph where
  ops := #[⟨.constant, [], [⟨1⟩], ⟨[("value", .int 7)]⟩, [], some ⟨0⟩⟩,
    ⟨.addi, [⟨1⟩, ⟨0⟩], [⟨2⟩], .empty, [], some ⟨1⟩⟩,
    ⟨.func, [], [], ⟨[("sym_name", .str "inner")]⟩, [⟨0⟩], some ⟨0⟩⟩,
    ⟨.ret, [⟨0⟩], [], .empty, [], some ⟨0⟩⟩,
    ⟨.func, [], [], ⟨[("sym_name", .str "outer")]⟩, [⟨1⟩], none⟩]
  values := #[⟨.argument ⟨0⟩ 0, .i 32⟩, ⟨.result ⟨0⟩ 0, .i 32⟩, ⟨.result ⟨1⟩ 0, .i 32⟩]
  blocks := #[⟨[⟨0⟩], [⟨0⟩, ⟨2⟩, ⟨3⟩], some ⟨1⟩⟩, ⟨[], [⟨1⟩], some ⟨0⟩⟩]
  regions := #[⟨[⟨1⟩], some ⟨2⟩⟩, ⟨[⟨0⟩], some ⟨4⟩⟩]
  chains := #[[⟨⟨1⟩, 1⟩, ⟨⟨3⟩, 0⟩], [⟨⟨1⟩, 0⟩]]

/-- The sum goes and takes the constant with it, although they lie on different levels: two
operations go in the first of two sweeps. -/
theorem eliminateDead_exact_outerRead : ∃ g' result,
    outerReadGraph.eliminateDead ⟨4⟩ ⟨2, true⟩ = .ok (g', result) ∧
      (∀ x, x ∈ g'.nested ⟨4⟩ ↔
        x ∈ outerReadGraph.nested ⟨4⟩ ∧ outerReadGraph.Needed [] ⟨4⟩ x) ∧
      outerReadGraph.nested ⟨4⟩ = [⟨0⟩, ⟨2⟩, ⟨1⟩, ⟨3⟩] ∧ g'.nested ⟨4⟩ = [⟨2⟩, ⟨3⟩] ∧
      result = ⟨2, 2, true⟩ := by
  have history : Edit.replay outerReadHistory = .ok (outerReadGraph, []) := by cbv
  have acyclic : ¬ outerReadGraph.Inside ⟨4⟩ ⟨4⟩ := not_inside_of_replay history rfl
  obtain ⟨g', result, hrun, hsurvive, -⟩ :=
    eliminateDead_exact history ⟨acyclic, by cbv⟩
      (show (⟨2, true⟩ : SweepConfig).recursive = true from rfl) (Or.inr (by decide))
  have hleft : (outerReadGraph.eliminateDead ⟨4⟩ ⟨2, true⟩).map
      (fun x => (x.1.nested ⟨4⟩, x.2)) = .ok ([⟨2⟩, ⟨3⟩], ⟨2, 2, true⟩) := by cbv
  rw [hrun] at hleft
  obtain ⟨hnested, hresult⟩ := Prod.mk.inj (Except.ok.inj hleft)
  exact ⟨g', result, hrun, hsurvive, by cbv, hnested, hresult⟩

end Graph

end SimdLowering
