/-
Readers from outside, and readers that change over.

The chain of a value names the slots that hold it. In a graph with a history the chains name
every such slot of every operation that has not been removed, placed or not. Two things follow
that could not be seen from the code alone, since both look at the chains of some values only.

Validation of the chains under a root compares the chains of what is defined there with the
slots there. Nothing is ever missing from a chain, because whatever lies in a block is not
removed. What it reports are the readers outside the root, and all of them.

Substitution of one value for another runs through one chain and rewrites the slots that the
chain names. That is the same as to rename the value in every operand list at once.
-/
import SimdLowering.Proofs.Graph.Scopes

set_option autoImplicit false

namespace SimdLowering

namespace Graph

variable {g : Graph} {gone : List OpId} {root : OpId} {v : ValueId}

/-! ## Readers outside the root -/

theorem definedUnder_sorted (g : Graph) (root : OpId) :
    (g.definedUnder root).Pairwise fun v w => v.index < w.index := by
  apply List.Pairwise.filter
  rw [List.pairwise_map]
  exact List.pairwise_lt_range

/-- What lies in a block has not been removed, so no slot is missing from its chain. -/
theorem missingUses_eq_nil_of_placed (hc : Consistent g gone)
    (unplaced : ∀ o ∈ gone, g.blockOf? o = none) : g.missingUses root = [] := by
  rw [missingUses_eq_nil hc]
  rintro o ⟨b, -, hb⟩ hgone
  have hplaced := (hc.places o b).mp hb
  rw [unplaced o hgone] at hplaced
  cases hplaced

theorem mem_staleUses (hc : Consistent g gone) (acyclic : ¬ g.Inside root root)
    {e : ValidationError} : e ∈ g.staleUses root ↔ ∃ v o i, e = .staleUse v o i ∧
      o ∉ gone ∧ ¬ g.Inside root o ∧ (g.operands o)[i]? = some v ∧ g.DefinedUnder root v := by
  rw [staleUses_eq hc]
  simp only [List.mem_flatMap, List.mem_map]
  constructor
  · rintro ⟨v, hv, u, hu, rfl⟩
    obtain ⟨hlive, hout, hslot⟩ := (mem_readsOutside hc).mp hu
    exact ⟨v, u.user, u.slot, rfl, hlive, hout, hslot, (mem_definedUnder hc acyclic).mp hv⟩
  · rintro ⟨v, o, i, rfl, hlive, hout, hslot, hv⟩
    have hread : (⟨o, i⟩ : Use) ∈ g.readsOutside root v :=
      (mem_readsOutside hc).mpr ⟨hlive, hout, hslot⟩
    exact ⟨v, (mem_definedUnder hc acyclic).mpr hv, ⟨o, i⟩, hread, rfl⟩

/-- Each of the two lists names nothing twice, and a slot holds one value. -/
theorem nodup_staleUses (hc : Consistent g gone) : (g.staleUses root).Nodup := by
  rw [staleUses_eq hc, List.nodup_flatMap]
  constructor
  · intro v _
    apply ((hc.readOnce v).filter _).map
    intro u u' h
    injection h with _ huser hslot
    cases u
    cases u'
    exact congrArg₂ Use.mk huser hslot
  · refine (definedUnder_sorted g root).imp fun {v w} hlt e hv hw => ?_
    obtain ⟨u, -, rfl⟩ := List.mem_map.mp hv
    obtain ⟨u', -, h⟩ := List.mem_map.mp hw
    injection h with heq
    rw [heq] at hlt
    exact Nat.lt_irrefl _ hlt

/-- Take any graph with a history in which nothing is placed after its removal, and any root in it
whose nesting is finite. Validation of the chains finds no slot that its chain misses. What it
reports is, for the values defined under the root in the order of their creation, every reading on
the chain by an operation outside the root: one report for each slot of an operation that has not
been removed, does not lie under the root and holds such a value there. So it finds nothing if and
only if nobody outside the root reads what is defined under it. -/
theorem chainErrors_exact {edits : List Edit} (history : Edit.replay edits = .ok (g, gone))
    (once : Edit.RemovesForGood edits) (finite : g.NestsFinitely root) :
    g.missingUses root = [] ∧
    ((g.definedUnder root).Pairwise (fun v w => v.index < w.index) ∧
      ∀ v, v ∈ g.definedUnder root ↔ g.DefinedUnder root v) ∧
    g.chainErrors root = ((g.definedUnder root).flatMap fun v =>
      (g.readsOutside root v).map fun u => .staleUse v u.user u.slot) ∧
    ((g.chainErrors root).Nodup ∧ ∀ e, e ∈ g.chainErrors root ↔ ∃ v o i, e = .staleUse v o i ∧
      o ∉ gone ∧ ¬ g.Inside root o ∧ (g.operands o)[i]? = some v ∧ g.DefinedUnder root v) ∧
    (g.chainErrors root = [] ↔
      ∀ o, o ∉ gone → ¬ g.Inside root o → ∀ v ∈ g.operands o, ¬ g.DefinedUnder root v) := by
  have hc := consistent_of_replay history
  have acyclic := (nestsFinitely_iff hc.toNestingAgrees).mp finite
  -- Nothing that is removed stands in a block, so no use is missing.
  have hmissing : g.missingUses root = [] :=
    missingUses_eq_nil_of_placed hc (blockOf?_of_replay history once)
  have hreport : g.chainErrors root = g.staleUses root := by
    rw [chainErrors, hmissing, List.nil_append]
  rw [hreport]
  refine ⟨hmissing, ⟨definedUnder_sorted g root, fun v => mem_definedUnder hc acyclic⟩,
    staleUses_eq hc, ⟨nodup_staleUses hc, fun e => mem_staleUses hc acyclic⟩, ?_⟩
  rw [staleUses_eq_nil hc acyclic]
  -- Both sides say that no operation outside reads what is defined inside.
  constructor
  · intro henclosed o hlive hout v hv hdef
    exact hout (henclosed v o hdef hlive hv)
  · intro hnobody v o hdef hlive hv
    by_contra hout
    exact hnobody o hlive hout v hv hdef

/-- Seen from the inner function, the return of the outer one reads a sum that is not its own.
The return that was removed read it too and is not reported. -/
theorem chainErrors_exact_strayReads :
    Edit.replay strayReadHistory = .ok (strayReadGraph, [⟨6⟩]) ∧
    Edit.RemovesForGood strayReadHistory ∧ strayReadGraph.NestsFinitely ⟨3⟩ ∧
    strayReadGraph.definedUnder ⟨3⟩ = [⟨3⟩] ∧
    strayReadGraph.readsOutside ⟨3⟩ ⟨3⟩ = [⟨⟨4⟩, 0⟩] ∧
    strayReadGraph.chainErrors ⟨3⟩ = [.staleUse ⟨3⟩ ⟨4⟩ 0] := by
  have history := strayReadGraph_history
  have once : Edit.RemovesForGood strayReadHistory := by decide
  have finite : strayReadGraph.NestsFinitely ⟨3⟩ := by
    apply strayReadGraph_finite.inside
    rw [← mem_nested_iff, strayReadGraph_nested]
    simp
  have hdefined : strayReadGraph.definedUnder ⟨3⟩ = [⟨3⟩] := by cbv
  have houtside : strayReadGraph.readsOutside ⟨3⟩ ⟨3⟩ = [⟨⟨4⟩, 0⟩] := by cbv
  obtain ⟨-, -, hreport, -⟩ := chainErrors_exact history once finite
  rw [hdefined, List.flatMap_singleton, houtside] at hreport
  exact ⟨history, once, finite, hdefined, houtside, hreport⟩

/-! ## Substitution -/

/-- In any graph with a history, to substitute one value for another always succeeds. If they are
the same value, nothing changes. Otherwise every operation that has not been removed, wherever it
lies, reads what it read with the old value replaced by the new one in all places at once, and is
unchanged besides; nobody reads the old value any longer, its readings have joined those of the new
one, and the other chains and tables are as they were. -/
theorem replaceUses_substitutes {edits : List Edit}
    (history : Edit.replay edits = .ok (g, gone)) (old new : ValueId) :
    ∃ g', g.replaceUses old new = .ok g' ∧ (old = new → g' = g) ∧
      (∀ o, o ∉ gone →
        g'.op o = { g.op o with operands := (g.operands o).map (renamed old new) }) ∧
      (∀ o ∈ gone, g'.op o = g.op o) ∧
      (old ≠ new → g'.uses old = [] ∧ g'.uses new = g.uses new ++ g.uses old ∧
        ∀ v, v ≠ old → v ≠ new → g'.uses v = g.uses v) ∧
      g'.values = g.values ∧ g'.blocks = g.blocks ∧ g'.regions = g.regions ∧
      g'.ops.size = g.ops.size := by
  have hc := consistent_of_replay history
  obtain ⟨g', hrun, hop, huses, hvalues, hblocks, hregions, hsize⟩ :=
    hc.toReadsAgree.replaceUses_total old new
  refine ⟨g', hrun, fun heq => ?_, fun o hlive => ?_, fun o hgone => ?_, fun hne => ?_, hvalues,
    hblocks, hregions, hsize⟩
  -- Replacing a value by itself does nothing; otherwise its uses move to the new value.
  · rw [replaceUses, if_pos heq] at hrun
    exact (Except.ok.inj hrun).symm
  · rw [hop, Operation.mapReads, mapIdx_const]
    simp only [if_neg hlive]
    rfl
  · rw [hop]
    exact Operation.mapReads_of_forall _ fun _ _ _ => if_pos hgone
  · refine ⟨?_, ?_, fun v hold hnew => ?_⟩
    · rw [huses, if_neg hne, if_neg hne, if_pos rfl]
    · rw [huses, if_neg hne, if_pos rfl]
    · rw [huses, if_neg hne, if_neg hnew, if_neg hold]

/-- The history of a sum of an argument with itself, which lies in no block, a return of both, and
another return of the argument that was removed. -/
def doubledReadHistory : List Edit :=
  [.createBlock [.i 32], .createOp (Instr.binary .addi ⟨⟨0⟩, .i 32⟩ ⟨0⟩),
    .createOp (Instr.ret [⟨0⟩, ⟨1⟩]), .append ⟨0⟩ ⟨1⟩, .createOp (Instr.ret [⟨0⟩]), .removeOp ⟨2⟩]

/-- The graph that this history ends with. -/
def doubledReadGraph : Graph where
  ops := #[⟨.addi, [⟨0⟩, ⟨0⟩], [⟨1⟩], .empty, [], none⟩,
    ⟨.ret, [⟨0⟩, ⟨1⟩], [], .empty, [], some ⟨0⟩⟩, ⟨.ret, [⟨0⟩], [], .empty, [], none⟩]
  values := #[⟨.argument ⟨0⟩ 0, .i 32⟩, ⟨.result ⟨0⟩ 0, .i 32⟩]
  blocks := #[⟨[⟨0⟩], [⟨1⟩], none⟩]
  regions := #[]
  chains := #[[⟨⟨0⟩, 0⟩, ⟨⟨0⟩, 1⟩, ⟨⟨1⟩, 0⟩], [⟨⟨1⟩, 1⟩]]

/-- The sum is put for the argument, also in its own slots. -/
theorem replaceUses_substitutes_doubled :
    Edit.replay doubledReadHistory = .ok (doubledReadGraph, [⟨2⟩]) ∧
    ∃ g', doubledReadGraph.replaceUses ⟨0⟩ ⟨1⟩ = .ok g' ∧
      g'.operands ⟨0⟩ = [⟨1⟩, ⟨1⟩] ∧ g'.operands ⟨1⟩ = [⟨1⟩, ⟨1⟩] ∧ g'.operands ⟨2⟩ = [⟨0⟩] ∧
      g'.uses ⟨0⟩ = [] ∧ g'.uses ⟨1⟩ = [⟨⟨1⟩, 1⟩, ⟨⟨0⟩, 0⟩, ⟨⟨0⟩, 1⟩, ⟨⟨1⟩, 0⟩] := by
  have history : Edit.replay doubledReadHistory = .ok (doubledReadGraph, [⟨2⟩]) := by cbv
  obtain ⟨g', hrun, -, hlive, hgone, hchains, -⟩ := replaceUses_substitutes history ⟨0⟩ ⟨1⟩
  obtain ⟨hold, hnew, -⟩ := hchains (by decide)
  refine ⟨history, g', hrun, ?_, ?_, ?_, hold, hnew⟩
  · exact congrArg Operation.operands (hlive ⟨0⟩ (by decide))
  · exact congrArg Operation.operands (hlive ⟨1⟩ (by decide))
  · exact congrArg Operation.operands (hgone ⟨2⟩ (by decide))

end Graph

end SimdLowering
