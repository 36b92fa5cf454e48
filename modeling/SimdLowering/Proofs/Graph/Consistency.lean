/-
What the tables of a graph agree on.

The same fact is written down in several places: that an operation reads a value is
in its operand list and on the value's chain, that it lies in a block is in its record
and in the block's list, and likewise for blocks in regions, regions of operations,
and the origin of values. Each edit changes several of these tables, and every pass
reads whichever of them is at hand. This file says that they agree, and that each edit
keeps it so.

The agreement falls into three parts that have no table in common, and most edits touch
one of them only; the other two are then carried over by the equations between
records.

An operation that was removed keeps its operand list but is off all chains. Which
operations have been removed cannot be read off the graph, since an operation that was
never placed looks the same, so the agreement is stated against the list of them.
-/
import SimdLowering.Proofs.Graph.Effects

set_option autoImplicit false

namespace SimdLowering

namespace Graph

variable {g g' : Graph} {gone : List OpId} {o op before : OpId} {b c : BlockId}
  {r s : RegionId} {v w old new : ValueId}

/-! ## The three parts -/

/-- Chains and operand lists agree: on the chain of a value are the slots that hold
it, each once, of the operations that have not been removed. -/
structure ReadsAgree (g : Graph) (gone : List OpId) : Prop where
  reads : ∀ (v : ValueId) (u : Use),
    u ∈ g.uses v ↔ u.user ∉ gone ∧ (g.operands u.user)[u.slot]? = some v
  readOnce : ∀ v, (g.uses v).Nodup
  known : ∀ o ∈ gone, g.HasOp o

/-- Lists and parent pointers agree on all three levels of the nesting, and no list
names anything twice. -/
structure NestingAgrees (g : Graph) : Prop where
  places : ∀ o b, o ∈ g.opsIn b ↔ g.blockOf? o = some b
  placedOnce : ∀ b, (g.opsIn b).Nodup
  encloses : ∀ b r, b ∈ g.blocksIn r ↔ g.regionOf? b = some r
  enclosedOnce : ∀ r, (g.blocksIn r).Nodup
  owns : ∀ r o, r ∈ g.regionsOf o ↔ g.ownerOf? r = some o
  ownedOnce : ∀ o, (g.regionsOf o).Nodup

/-- The origin of a value says where it is listed. -/
structure OriginsAgree (g : Graph) : Prop where
  defines : ∀ o i v, (g.results o)[i]? = some v ↔ g.originOf? v = some (.result o i)
  takes : ∀ b i v, (g.argsOf b)[i]? = some v ↔ g.originOf? v = some (.argument b i)

/-- All tables of the graph agree, when the given operations have been removed. -/
structure Consistent (g : Graph) (gone : List OpId) : Prop
    extends ReadsAgree g gone, NestingAgrees g, OriginsAgree g

theorem ReadsAgree.congr (h : ReadsAgree g gone) (uses : ∀ v, g'.uses v = g.uses v)
    (operands : ∀ o, g'.operands o = g.operands o) (ops : ∀ o, g.HasOp o → g'.HasOp o) :
    ReadsAgree g' gone where
  reads v u := by
    rw [uses, operands]
    exact h.reads v u
  readOnce v := by
    rw [uses]
    exact h.readOnce v
  known o ho := ops o (h.known o ho)

theorem NestingAgrees.congr (h : NestingAgrees g) (opsIn : ∀ b, g'.opsIn b = g.opsIn b)
    (blockOf? : ∀ o, g'.blockOf? o = g.blockOf? o) (blocksIn : ∀ r, g'.blocksIn r = g.blocksIn r)
    (regionOf? : ∀ b, g'.regionOf? b = g.regionOf? b)
    (regionsOf : ∀ o, g'.regionsOf o = g.regionsOf o)
    (ownerOf? : ∀ r, g'.ownerOf? r = g.ownerOf? r) : NestingAgrees g' where
  places o b := by
    rw [opsIn, blockOf?]
    exact h.places o b
  placedOnce b := by
    rw [opsIn]
    exact h.placedOnce b
  encloses b r := by
    rw [blocksIn, regionOf?]
    exact h.encloses b r
  enclosedOnce r := by
    rw [blocksIn]
    exact h.enclosedOnce r
  owns r o := by
    rw [regionsOf, ownerOf?]
    exact h.owns r o
  ownedOnce o := by
    rw [regionsOf]
    exact h.ownedOnce o

theorem OriginsAgree.congr (h : OriginsAgree g) (results : ∀ o, g'.results o = g.results o)
    (argsOf : ∀ b, g'.argsOf b = g.argsOf b) (originOf? : ∀ v, g'.originOf? v = g.originOf? v) :
    OriginsAgree g' where
  defines o i v := by
    rw [results, originOf?]
    exact h.defines o i v
  takes b i v := by
    rw [argsOf, originOf?]
    exact h.takes b i v

/-! ## Consequences -/

theorem hasValue_of_originOf? {x : Origin} (h : g.originOf? v = some x) : g.HasValue v := by
  by_contra hv
  rw [originOf?, value?_eq_none hv] at h
  cases h

theorem originOf?_of_hasValue (h : g.HasValue v) : g.originOf? v = some (g.value v).origin := by
  rw [originOf?, value?_eq_some h]
  rfl

namespace Consistent

/-- A result is there. -/
theorem hasValue_of_mem_results (h : Consistent g gone) (hv : v ∈ g.results o) :
    g.HasValue v := by
  obtain ⟨i, hi⟩ := List.mem_iff_getElem?.mp hv
  exact hasValue_of_originOf? ((h.defines o i v).mp hi)

/-- No value is a result in two places. -/
theorem result_unique (h : Consistent g gone) {o p : OpId} {i j : Nat}
    (hi : (g.results o)[i]? = some v) (hj : (g.results p)[j]? = some v) : o = p ∧ i = j := by
  have ho := (h.defines o i v).mp hi
  rw [(h.defines p j v).mp hj] at ho
  cases ho
  exact ⟨rfl, rfl⟩

/-- No value is a result of two operations. -/
theorem eq_of_mem_results (h : Consistent g gone) {o p : OpId} (ho : v ∈ g.results o)
    (hp : v ∈ g.results p) : o = p := by
  obtain ⟨i, hi⟩ := List.mem_iff_getElem?.mp ho
  obtain ⟨j, hj⟩ := List.mem_iff_getElem?.mp hp
  exact (h.result_unique hi hj).1

/-- An operation lists no value twice among its results. -/
theorem nodup_results (h : Consistent g gone) (o : OpId) : (g.results o).Nodup := by
  rw [List.nodup_iff_getElem?_ne_getElem?]
  intro i j hij hj heq
  rw [List.getElem?_eq_getElem hj] at heq
  have := (h.result_unique heq (List.getElem?_eq_getElem hj)).2
  omega

/-- An argument of a block is no result. -/
theorem not_mem_results_of_mem_argsOf (h : Consistent g gone) (hv : v ∈ g.argsOf b) :
    v ∉ g.results o := by
  intro hr
  obtain ⟨i, hi⟩ := List.mem_iff_getElem?.mp hv
  obtain ⟨j, hj⟩ := List.mem_iff_getElem?.mp hr
  have ho := (h.takes b i v).mp hi
  rw [(h.defines o j v).mp hj] at ho
  cases ho

/-- An operation lies in at most one block. -/
theorem block_unique (h : Consistent g gone) (hb : o ∈ g.opsIn b) (hc : o ∈ g.opsIn c) :
    b = c := by
  have hb := (h.places o b).mp hb
  rw [(h.places o c).mp hc] at hb
  exact (Option.some.inj hb).symm

/-- A block lies in at most one region. -/
theorem region_unique (h : Consistent g gone) (hr : b ∈ g.blocksIn r) (hs : b ∈ g.blocksIn s) :
    r = s := by
  have hr := (h.encloses b r).mp hr
  rw [(h.encloses b s).mp hs] at hr
  exact (Option.some.inj hr).symm

/-- A region has at most one owner. -/
theorem owner_unique (h : Consistent g gone) (ho : r ∈ g.regionsOf o) (hp : r ∈ g.regionsOf op) :
    o = op := by
  have ho := (h.owns r o).mp ho
  rw [(h.owns r op).mp hp] at ho
  exact (Option.some.inj ho).symm

end Consistent

/-! ## The empty graph -/

/-- Nothing is written down anywhere, so nothing disagrees. -/
theorem consistent_empty : Consistent .empty [] where
  reads v u := by simp [uses, operands, op, op?, empty, default, instInhabitedOperation.default]
  readOnce v := by simp [uses, empty]
  known o ho := by cases ho
  places o b := by
    simp [opsIn, blockOf?, block, block?, op, op?, empty, default, instInhabitedOperation.default,
      instInhabitedBlock.default]
  placedOnce b := by simp [opsIn, block, block?, empty, default, instInhabitedBlock.default]
  encloses b r := by
    simp [blocksIn, regionOf?, block, block?, region, region?, empty, default,
      instInhabitedRegion.default, instInhabitedBlock.default]
  enclosedOnce r := by simp [blocksIn, region, region?, empty, default, instInhabitedRegion.default]
  owns r o := by
    simp [regionsOf, ownerOf?, op, op?, region, region?, empty, default,
      instInhabitedRegion.default, instInhabitedOperation.default]
  ownedOnce o := by simp [regionsOf, op, op?, empty, default, instInhabitedOperation.default]
  defines o i v := by
    simp [results, originOf?, value?, op, op?, empty, default, instInhabitedOperation.default]
  takes b i v := by
    simp [argsOf, originOf?, value?, block, block?, empty, default, instInhabitedBlock.default]

end Graph

end SimdLowering
