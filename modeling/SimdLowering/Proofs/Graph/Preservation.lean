/-
Every edit keeps the tables in agreement.

One theorem for each edit, from the description of its effect. The only edit that has
a precondition here is substitution: that it succeeds at all rests on the chain being
right, so for it the agreement is what makes the run go through, and not only what the
run keeps.
-/
import SimdLowering.Proofs.Graph.Consistency

set_option autoImplicit false

namespace SimdLowering

namespace Graph

variable {g g' : Graph} {gone : List OpId} {o op before : OpId} {b c : BlockId}
  {r s : RegionId} {v w old new : ValueId}

/-! ## Names that are still free -/

/-- The next operation is not there yet. -/
theorem not_hasOp_nextOp (g : Graph) : ¬ g.HasOp g.nextOp := Nat.lt_irrefl _

/-- Nor is the next block. -/
theorem not_hasBlock_nextBlock (g : Graph) : ¬ g.HasBlock g.nextBlock := Nat.lt_irrefl _

/-- Nor is the next region. -/
theorem not_hasRegion_nextRegion (g : Graph) : ¬ g.HasRegion g.nextRegion := Nat.lt_irrefl _

/-- What is not there has a number beyond those that are given out. -/
theorem not_hasValue_iff : ¬ g.HasValue v ↔ ∃ i, v = ⟨g.values.size + i⟩ := by
  unfold HasValue
  constructor
  · intro h
    refine ⟨v.index - g.values.size, ?_⟩
    obtain ⟨j⟩ := v
    simp only [ValueId.mk.injEq] at h ⊢
    omega
  · rintro ⟨i, rfl⟩
    simp

/-- The position of a new value among the new ones, read off its name. -/
theorem getElem?_nextValues_eq_some {n i : Nat} :
    (g.nextValues n)[i]? = some v ↔ i < n ∧ v = ⟨g.values.size + i⟩ := by
  rw [getElem?_nextValues]
  split
  · next h => simp [h, eq_comm]
  · next h => simp [h]

/-- New values are results or arguments of one new owner, in order, and nothing else
has changed its origin. -/
theorem originOf?_new {origin : Nat → Origin} {n : Nat} {x : Origin}
    (h : g'.originOf? v =
      if g.HasValue v then g.originOf? v
      else if v.index < g.values.size + n then some (origin (v.index - g.values.size))
      else none) :
    g'.originOf? v = some x ↔
      g.originOf? v = some x ∨ ∃ i, (g.nextValues n)[i]? = some v ∧ x = origin i := by
  rw [h]
  -- A value that was there keeps its origin; beyond them the new ones are numbered.
  by_cases hv : g.HasValue v
  · rw [if_pos hv]
    refine ⟨Or.inl, ?_⟩
    rintro (h | ⟨i, hi, -⟩)
    · exact h
    · obtain ⟨-, rfl⟩ := getElem?_nextValues_eq_some.mp hi
      exact absurd hv (not_hasValue_iff.mpr ⟨i, rfl⟩)
  · rw [if_neg hv]
    have hnone : g.originOf? v = none := by
      rw [originOf?, value?_eq_none hv]
      rfl
    obtain ⟨i, rfl⟩ := not_hasValue_iff.mp hv
    simp only [hnone, getElem?_nextValues_eq_some, ValueId.mk.injEq, Nat.add_left_cancel_iff,
      Nat.add_lt_add_iff_left, Nat.add_sub_cancel_left, reduceCtorEq, false_or]
    constructor
    · intro hx
      split at hx
      · next hi => exact ⟨i, ⟨hi, rfl⟩, (Option.some.inj hx).symm⟩
      · cases hx
    · rintro ⟨j, ⟨hj, rfl⟩, rfl⟩
      rw [if_pos hj]

/-! ## Creation -/

/-- Creating a block keeps a graph consistent. -/
theorem Consistent.createBlock (h : Consistent g gone) (types : List Ty) :
    Consistent (g.createBlock types).1 gone := by
  have block := block_createBlock (g := g) types
  -- A block that was not there read as an empty block outside all regions already.
  have fresh := block_eq_default (not_hasBlock_nextBlock g)
  have argsOf : ∀ c, (g.createBlock types).1.argsOf c =
      if c = g.nextBlock then g.nextValues types.length else g.argsOf c := by
    intro c
    rw [Graph.argsOf, block c]
    split <;> rfl
  have origin : ∀ v x, (g.createBlock types).1.originOf? v = some x ↔
      g.originOf? v = some x ∨
        ∃ i, (g.nextValues types.length)[i]? = some v ∧ x = .argument g.nextBlock i :=
    fun v x => originOf?_new (originOf?_addValues (.argument g.nextBlock) types v)
  refine ⟨h.toReadsAgree.congr (fun _ => rfl) (fun _ => rfl) fun _ ho => ho,
    h.toNestingAgrees.congr (fun c => ?_) (fun _ => rfl) (fun _ => rfl) (fun c => ?_)
      (fun _ => rfl) fun _ => rfl, ⟨fun o i v => ?_, fun c i v => ?_⟩⟩
  · rw [opsIn, opsIn, block c]
    split
    · next e => rw [e, fresh]; rfl
    · rfl
  · rw [regionOf?, regionOf?, block c]
    split
    · next e => rw [e, fresh]; rfl
    · rfl
  · rw [origin]
    refine (h.defines o i v).trans ⟨Or.inl, ?_⟩
    rintro (hv | ⟨j, -, hj⟩)
    · exact hv
    · cases hj
  · rw [origin, argsOf c]
    by_cases e : c = g.nextBlock
    · subst e
      rw [if_pos rfl]
      have hold : g.originOf? v ≠ some (.argument g.nextBlock i) := by
        rw [Ne, ← h.takes, Graph.argsOf, fresh]
        simp [default, instInhabitedBlock.default]
      simp [hold]
    · rw [if_neg e, h.takes]
      refine ⟨Or.inl, ?_⟩
      rintro (hv | ⟨j, -, hj⟩)
      · exact hv
      · cases hj
        exact absurd rfl e

/-- So does creating a region of blocks that have none. -/
theorem Consistent.createRegion (h : Consistent g gone) {blocks : List BlockId}
    (hr : g.createRegion blocks = .ok (g', r)) : Consistent g' gone := by
  obtain ⟨rfl, nodup, free, block, region, hops, hvalues, hchains⟩ := createRegion_effect hr
  have op : ∀ o, g'.op o = g.op o := fun o => by rw [Graph.op, Graph.op, op?, op?, hops]
  have opsIn : ∀ c, g'.opsIn c = g.opsIn c := fun c => by
    rw [Graph.opsIn, Graph.opsIn, block c]
    split <;> rfl
  have argsOf : ∀ c, g'.argsOf c = g.argsOf c := fun c => by
    rw [Graph.argsOf, Graph.argsOf, block c]
    split <;> rfl
  have blocksIn : ∀ s, g'.blocksIn s = if s = g.nextRegion then blocks else g.blocksIn s := by
    intro s
    rw [Graph.blocksIn, region s]
    split <;> rfl
  have regionOf? : ∀ c, g'.regionOf? c =
      if c ∈ blocks then some g.nextRegion else g.regionOf? c := by
    intro c
    rw [Graph.regionOf?, block c]
    split <;> rfl
  have ownerOf? : ∀ s, g'.ownerOf? s = g.ownerOf? s := by
    intro s
    rw [Graph.ownerOf?, Graph.ownerOf?, region s]
    split
    · next e => rw [e, region_eq_default (not_hasRegion_nextRegion g)]; rfl
    · rfl
  have empty : g.blocksIn g.nextRegion = [] := by
    rw [Graph.blocksIn, region_eq_default (not_hasRegion_nextRegion g)]
    rfl
  refine ⟨h.toReadsAgree.congr (fun v => ?_) (fun o => ?_) fun o ho => ?_,
    ⟨fun o c => ?_, fun c => ?_, fun c s => ?_, fun s => ?_, fun s o => ?_, fun o => ?_⟩,
    h.toOriginsAgree.congr (fun o => ?_) argsOf fun v => ?_⟩
  · rw [uses, uses, hchains]
  · rw [operands, operands, op]
  · rw [HasOp, hops]
    exact ho
  · rw [opsIn, blockOf?, op]
    exact h.places o c
  · rw [opsIn]
    exact h.placedOnce c
  · rw [blocksIn, regionOf?]
    -- A block of the new region lay in none, and the new region held none.
    by_cases hs : s = g.nextRegion
    · subst hs
      rw [if_pos rfl]
      by_cases hc : c ∈ blocks
      · simp [hc]
      · rw [if_neg hc, ← h.encloses, empty]
        simp [hc]
    · rw [if_neg hs]
      by_cases hc : c ∈ blocks
      · rw [if_pos hc, h.encloses, (free c hc).2]
        simp [Ne.symm hs]
      · rw [if_neg hc]
        exact h.encloses c s
  · rw [blocksIn]
    split
    · exact nodup
    · exact h.enclosedOnce s
  · rw [regionsOf, op, ownerOf?]
    exact h.owns s o
  · rw [regionsOf, op]
    exact h.ownedOnce o
  · rw [results, results, op]
  · rw [originOf?, originOf?, value?, value?, hvalues]

/-- The chains know of the reads of a new operation. -/
theorem ReadsAgree.addOp (h : ReadsAgree g gone) (d : Draft ValueId) :
    ReadsAgree (g.addOp d).1 gone := by
  have fresh : g.nextOp ∉ gone := fun hm => not_hasOp_nextOp g (h.known _ hm)
  have unread : ∀ v, ∀ u ∈ g.uses v, u.user ≠ g.nextOp := by
    intro v u hu e
    have hslot := ((h.reads v u).mp hu).2
    exact not_hasOp_nextOp g (e ▸ hasOp_of_mem_operands (List.mem_of_getElem? hslot))
  refine ⟨fun v u => ?_, fun v => ?_, fun o ho => (hasOp_addOp d).mpr (Or.inl (h.known o ho))⟩
  · rw [uses_addOp, List.mem_append, mem_readings, operands, op_addOp]
    -- A use is one of the new operation exactly if it is among its readings.
    by_cases e : u.user = g.nextOp
    · rw [if_pos e]
      constructor
      · rintro (hu | ⟨-, hu⟩)
        · exact absurd e (unread v u hu)
        · exact ⟨e ▸ fresh, hu⟩
      · rintro ⟨-, hu⟩
        exact Or.inr ⟨e, hu⟩
    · rw [if_neg e, ← operands, ← h.reads]
      simp [e]
  · rw [uses_addOp]
    refine (h.readOnce v).append (nodup_readings _ _ _) fun u hu hn => ?_
    exact unread v u hu (mem_readings.mp hn).1

/-- And its results of where they come from. -/
theorem OriginsAgree.addOp (h : OriginsAgree g) (d : Draft ValueId) :
    OriginsAgree (g.addOp d).1 := by
  have fresh := op_eq_default (not_hasOp_nextOp g)
  have origin : ∀ v x, (g.addOp d).1.originOf? v = some x ↔
      g.originOf? v = some x ∨
        ∃ i, (g.nextValues d.results.length)[i]? = some v ∧ x = .result g.nextOp i :=
    fun v x => originOf?_new (originOf?_addOp d v)
  refine ⟨fun o i v => ?_, fun c i v => ?_⟩
  · rw [origin, results, op_addOp]
    -- The results of the new operation are the new values, and no others come from it.
    by_cases e : o = g.nextOp
    · subst e
      rw [if_pos rfl]
      have hold : g.originOf? v ≠ some (.result g.nextOp i) := by
        rw [Ne, ← h.defines, results, fresh]
        simp [default, instInhabitedOperation.default]
      simp [hold, newOperation]
    · rw [if_neg e, ← results, h.defines]
      refine ⟨Or.inl, ?_⟩
      rintro (hv | ⟨j, -, hj⟩)
      · exact hv
      · cases hj
        exact absurd rfl e
  -- No block takes a new argument.
  · have args : (g.addOp d).1.argsOf c = g.argsOf c := by
      rw [argsOf, argsOf, block, block, block?, block?, blocks_addOp]
    rw [args, origin]
    refine (h.takes c i v).trans ⟨Or.inl, ?_⟩
    rintro (hv | ⟨j, -, hj⟩)
    · exact hv
    · cases hj

/-- A new operation owns the regions it was made with and lies nowhere. -/
theorem NestingAgrees.createOp (h : NestingAgrees g) {d : Draft ValueId}
    (hc : g.createOp d = .ok (g', op)) : NestingAgrees g' := by
  obtain ⟨rfl, nodup, free, region, hops, hvalues, hchains, hblocks, -⟩ := createOp_effect hc
  have fresh := op_eq_default (not_hasOp_nextOp g)
  have op : ∀ o, g'.op o = if o = g.nextOp then g.newOperation d else g.op o := by
    intro o
    rw [← op_addOp d, Graph.op, Graph.op, op?, op?, hops]
  have block : ∀ c, g'.block c = g.block c := fun c => by
    rw [Graph.block, Graph.block, block?, block?, hblocks]
  have blocksIn : ∀ s, g'.blocksIn s = g.blocksIn s := fun s => by
    rw [Graph.blocksIn, Graph.blocksIn, region s]
    split <;> rfl
  have blockOf? : ∀ o, g'.blockOf? o = g.blockOf? o := by
    intro o
    rw [Graph.blockOf?, Graph.blockOf?, op o]
    split
    · next e => rw [e, fresh]; rfl
    · rfl
  have regionsOf : ∀ o, g'.regionsOf o = if o = g.nextOp then d.regions else g.regionsOf o := by
    intro o
    rw [Graph.regionsOf, op o]
    split <;> rfl
  have ownerOf? : ∀ s, g'.ownerOf? s =
      if s ∈ d.regions then some g.nextOp else g.ownerOf? s := by
    intro s
    rw [Graph.ownerOf?, region s]
    split <;> rfl
  have none : g.regionsOf g.nextOp = [] := by
    rw [Graph.regionsOf, fresh]
    rfl
  -- Only the operation itself and the regions it takes are new; everything else is looked up as
  -- before.
  refine ⟨fun o c => ?_, fun c => ?_, fun c s => ?_, fun s => ?_, fun s o => ?_, fun o => ?_⟩
  · rw [opsIn, block, blockOf?]
    exact h.places o c
  · rw [opsIn, block]
    exact h.placedOnce c
  · rw [blocksIn, regionOf?, block]
    exact h.encloses c s
  · rw [blocksIn]
    exact h.enclosedOnce s
  · rw [regionsOf, ownerOf?]
    by_cases ho : o = g.nextOp
    · subst ho
      rw [if_pos rfl]
      by_cases hs : s ∈ d.regions
      · simp [hs]
      · rw [if_neg hs, ← h.owns, none]
        simp [hs]
    · rw [if_neg ho]
      by_cases hs : s ∈ d.regions
      · rw [if_pos hs, h.owns, (free s hs).2]
        simp [Ne.symm ho]
      · rw [if_neg hs]
        exact h.owns s o
  · rw [regionsOf]
    split
    · exact nodup
    · exact h.ownedOnce o

/-- Creating an operation keeps a graph consistent. -/
theorem Consistent.createOp (h : Consistent g gone) {d : Draft ValueId}
    (hc : g.createOp d = .ok (g', op)) : Consistent g' gone := by
  have nesting := h.toNestingAgrees.createOp hc
  obtain ⟨-, -, -, -, hops, hvalues, hchains, hblocks, -⟩ := createOp_effect hc
  have hop : ∀ o, g'.op o = (g.addOp d).1.op o := fun o => by
    rw [Graph.op, Graph.op, op?, op?, hops]
  refine ⟨(h.toReadsAgree.addOp d).congr (fun v => ?_) (fun o => ?_) fun o ho => ?_, nesting,
    (h.toOriginsAgree.addOp d).congr (fun o => ?_) (fun c => ?_) fun v => ?_⟩
  · rw [uses, uses, hchains]
  · rw [operands, operands, hop]
  · rw [HasOp, hops]
    exact ho
  · rw [results, results, hop]
  · rw [argsOf, argsOf, block, block, block?, block?, hblocks, blocks_addOp]
  · rw [originOf?, originOf?, value?, value?, hvalues]

/-! ## Placement -/

/-- Where the place is in the list, nothing but the new one is added. -/
theorem mem_insertBeforeIn {l : List OpId} (h : before ∈ l) :
    o ∈ insertBeforeIn before op l ↔ o = op ∨ o ∈ l := by
  induction l with
  | nil => cases h
  | cons x xs ih =>
    rw [insertBeforeIn]
    split
    · simp
    · next e =>
      have hm : before ∈ xs := (List.mem_cons.mp h).resolve_left fun he => e he.symm
      rw [List.mem_cons, ih hm, List.mem_cons]
      tauto

/-- And nothing is there twice if the new one was not there. -/
theorem nodup_insertBeforeIn {l : List OpId} (h : before ∈ l) (fresh : op ∉ l)
    (nodup : l.Nodup) : (insertBeforeIn before op l).Nodup := by
  induction l with
  | nil => cases h
  | cons x xs ih =>
    rw [insertBeforeIn]
    obtain ⟨hx, hxs⟩ := List.nodup_cons.mp nodup
    split
    · exact List.nodup_cons.mpr ⟨fresh, nodup⟩
    · next e =>
      have hm : before ∈ xs := (List.mem_cons.mp h).resolve_left fun he => e he.symm
      refine List.nodup_cons.mpr ⟨?_, ih hm (fun hf => fresh (List.mem_cons_of_mem _ hf)) hxs⟩
      rw [mem_insertBeforeIn hm]
      rintro (rfl | hmem)
      · exact fresh (List.mem_cons_self ..)
      · exact hx hmem

/-- Placing an operation keeps the agreement if the list of the block gains just this
operation. -/
theorem Consistent.placed (h : Consistent g gone) {f : List OpId → List OpId}
    (hp : Placed g g' b op f) (mem : ∀ o, o ∈ f (g.opsIn b) ↔ o = op ∨ o ∈ g.opsIn b)
    (nodup : op ∉ g.opsIn b → (g.opsIn b).Nodup → (f (g.opsIn b)).Nodup) :
    Consistent g' gone := by
  have opsIn : ∀ c, g'.opsIn c = if b = c then f (g.opsIn c) else g.opsIn c := by
    intro c
    rw [Graph.opsIn, hp.block c]
    split <;> rfl
  have blockOf? : ∀ o, g'.blockOf? o = if op = o then some b else g.blockOf? o := by
    intro o
    rw [Graph.blockOf?, hp.op o]
    split <;> rfl
  have region : ∀ s, g'.region s = g.region s := fun s => by
    rw [Graph.region, Graph.region, region?, region?, hp.regions]
  have regionsOf : ∀ o, g'.regionsOf o = g.regionsOf o := fun o => by
    rw [Graph.regionsOf, Graph.regionsOf, hp.op o]
    split <;> rfl
  -- The operation lay nowhere, so it stands in no list yet.
  have outside : ∀ c, op ∉ g.opsIn c := by
    intro c hc
    have := (h.places op c).mp hc
    rw [hp.free] at this
    cases this
  refine ⟨h.toReadsAgree.congr (fun v => ?_) (fun o => ?_) fun o ho => ?_,
    ⟨fun o c => ?_, fun c => ?_, fun c s => ?_, fun s => ?_, fun s o => ?_, fun o => ?_⟩,
    h.toOriginsAgree.congr (fun o => ?_) (fun c => ?_) fun v => ?_⟩
  · rw [uses, uses, hp.chains]
  · rw [operands, operands, hp.op o]
    split <;> rfl
  · rw [HasOp, hp.sizes.1]
    exact ho
  -- Only the block that takes it in and the operation itself know of the change.
  · rw [opsIn, blockOf?]
    by_cases e : b = c
    · subst e
      rw [if_pos rfl, mem]
      by_cases eo : op = o
      · simp [eo]
      · rw [if_neg eo, ← h.places]
        simp [Ne.symm eo]
    · rw [if_neg e, h.places]
      by_cases eo : op = o
      · subst eo
        rw [if_pos rfl, hp.free]
        simp [e]
      · rw [if_neg eo]
  · rw [opsIn]
    split
    · next e =>
      subst e
      exact nodup (outside b) (h.placedOnce b)
    · exact h.placedOnce c
  · rw [blocksIn, region, regionOf?, hp.block c]
    have := h.encloses c s
    split <;> exact this
  · rw [blocksIn, region]
    exact h.enclosedOnce s
  · rw [regionsOf, ownerOf?, region]
    exact h.owns s o
  · rw [regionsOf]
    exact h.ownedOnce o
  · rw [results, results, hp.op o]
    split <;> rfl
  · rw [argsOf, argsOf, hp.block c]
    split <;> rfl
  · rw [originOf?, originOf?, value?, value?, hp.values]

/-- Appending keeps a graph consistent. -/
theorem Consistent.append (h : Consistent g gone) (ha : g.append b op = .ok g') :
    Consistent g' gone :=
  h.placed (append_effect ha) (fun o => by simp [or_comm]) fun fresh nodup => by
    rw [List.nodup_append]
    refine ⟨nodup, List.nodup_singleton _, fun x hx y hy => ?_⟩
    rw [List.mem_singleton.mp hy]
    rintro rfl
    exact fresh hx

/-- Putting in between does so, too. -/
theorem Consistent.insertBefore (h : Consistent g gone)
    (hi : g.insertBefore b before op = .ok g') : Consistent g' gone := by
  have hm := (insertBefore_eq_ok.mp hi).2.2.2.1
  exact h.placed (insertBefore_effect hi) (fun o => mem_insertBeforeIn hm)
    fun fresh nodup => nodup_insertBeforeIn hm fresh nodup

/-- And taking out. -/
theorem Consistent.detach (h : Consistent g gone) (hd : g.detach b op = .ok g') :
    Consistent g' gone := by
  obtain ⟨-, -, op', block', hregions, hvalues, hchains, hsize, -⟩ := detach_effect hd
  have opsIn : ∀ c, g'.opsIn c = if b = c then (g.opsIn c).filter (fun o => o != op)
      else g.opsIn c := by
    intro c
    rw [Graph.opsIn, block' c]
    split <;> rfl
  have blockOf? : ∀ o, g'.blockOf? o =
      if op = o ∧ g.blockOf? o = some b then none else g.blockOf? o := by
    intro o
    rw [Graph.blockOf?, op' o]
    split <;> rfl
  have region : ∀ s, g'.region s = g.region s := fun s => by
    rw [Graph.region, Graph.region, region?, region?, hregions]
  -- The lists lose the operation and the operation its block, so the two agree as before.
  refine ⟨h.toReadsAgree.congr (fun v => ?_) (fun o => ?_) fun o ho => ?_,
    ⟨fun o c => ?_, fun c => ?_, fun c s => ?_, fun s => ?_, fun s o => ?_, fun o => ?_⟩,
    h.toOriginsAgree.congr (fun o => ?_) (fun c => ?_) fun v => ?_⟩
  · rw [uses, uses, hchains]
  · rw [operands, operands, op' o]
    split <;> rfl
  · rw [HasOp, hsize]
    exact ho
  · rw [opsIn, blockOf?]
    by_cases eo : op = o
    · subst eo
      by_cases ec : b = c
      · subst ec
        simp
      · rw [if_neg ec, h.places]
        by_cases ho : g.blockOf? op = some b
        · simp [ho, ec]
        · simp [ho]
    · have hb : ¬(op = o ∧ g.blockOf? o = some b) := fun e => eo e.1
      rw [if_neg hb, ← h.places]
      split <;> simp [Ne.symm eo]
  · rw [opsIn]
    split
    · exact (h.placedOnce c).filter _
    · exact h.placedOnce c
  · rw [blocksIn, region, regionOf?, block' c]
    have := h.encloses c s
    split <;> exact this
  · rw [blocksIn, region]
    exact h.enclosedOnce s
  · rw [regionsOf, ownerOf?, region, op' o]
    have := h.owns s o
    split <;> exact this
  · rw [regionsOf, op' o]
    have := h.ownedOnce o
    split <;> exact this
  · rw [results, results, op' o]
    split <;> rfl
  · rw [argsOf, argsOf, block' c]
    split <;> rfl
  · rw [originOf?, originOf?, value?, value?, hvalues]

/-! ## Removal and substitution -/

/-- Nesting and origins stay in agreement where operations change in nothing but what they read. -/
theorem Consistent.reread (h : Consistent g gone) {gone' : List OpId} (hreads : ReadsAgree g' gone')
    (hop : ∀ o, ∃ read, g'.op o = { g.op o with operands := read })
    (hvalues : g'.values = g.values) (hblocks : g'.blocks = g.blocks)
    (hregions : g'.regions = g.regions) : Consistent g' gone' := by
  have block' : ∀ c, g'.block c = g.block c := fun c => by
    rw [Graph.block, Graph.block, block?, block?, hblocks]
  have region' : ∀ s, g'.region s = g.region s := fun s => by
    rw [Graph.region, Graph.region, region?, region?, hregions]
  -- Nesting and origins do not look at operands, so only the uses have to be compared.
  refine ⟨hreads,
    h.toNestingAgrees.congr (fun c => ?_) (fun o => ?_) (fun s => ?_) (fun c => ?_) (fun o => ?_)
      fun s => ?_, h.toOriginsAgree.congr (fun o => ?_) (fun c => ?_) fun v => ?_⟩
  · rw [opsIn, opsIn, block']
  · obtain ⟨read, he⟩ := hop o
    rw [blockOf?, blockOf?, he]
  · rw [blocksIn, blocksIn, region']
  · rw [regionOf?, regionOf?, block']
  · obtain ⟨read, he⟩ := hop o
    rw [regionsOf, regionsOf, he]
  · rw [ownerOf?, ownerOf?, region']
  · obtain ⟨read, he⟩ := hop o
    rw [results, results, he]
  · rw [argsOf, argsOf, block']
  · rw [originOf?, originOf?, value?, value?, hvalues]

/-- What is removed is gone, and nobody is said to read by it. -/
theorem Consistent.removeOp (h : Consistent g gone) (hr : g.removeOp op = .ok g') :
    Consistent g' (op :: gone) := by
  obtain ⟨ho, -, -, rfl⟩ := removeOp_eq_ok.mp hr
  obtain ⟨hops, hvalues, hblocks, hregions⟩ := dropUses_arenas (g := g) op (g.operands op)
  have op' : ∀ o, (g.dropUses op (g.operands op)).op o = g.op o := fun o => by
    rw [Graph.op, Graph.op, op?, op?, hops]
  refine h.reread ⟨fun v u => ?_, fun v => ?_, fun o ho' => ?_⟩
    (fun o => ⟨_, op' o⟩) hvalues hblocks
    hregions
  · rw [uses_dropUses, List.mem_filter, h.reads,
      show (g.dropUses op (g.operands op)).operands u.user = g.operands u.user from
        congrArg Operation.operands (op' u.user)]
    simp only [mem_readings, Bool.not_eq_true', decide_eq_false_iff_not, List.mem_cons, not_or]
    -- A use is dropped exactly if it is one of the operation, which is gone from now on.
    constructor
    · rintro ⟨⟨hg, hs⟩, hn⟩
      exact ⟨⟨fun e => hn ⟨e, e ▸ hs⟩, hg⟩, hs⟩
    · rintro ⟨⟨hne, hg⟩, hs⟩
      exact ⟨⟨hg, hs⟩, fun e => hne e.1⟩
  · rw [uses_dropUses]
    exact (h.readOnce v).filter _
  · rw [HasOp, hops]
    rcases List.mem_cons.mp ho' with rfl | hm
    · exact ho
    · exact h.known o hm

/-- What a value is called once `new` stands for `old`. -/
def renamed (old new v : ValueId) : ValueId := if v = old then new else v

/-- Where the chains are right, substitution always succeeds: every operation that has
not been removed has its operands renamed, the readings of `old` join the chain of
`new`, and nothing else changes. -/
theorem ReadsAgree.replaceUses_total (h : ReadsAgree g gone) (old new : ValueId) :
    ∃ g', g.replaceUses old new = .ok g' ∧
      (∀ o, g'.op o =
        (g.op o).mapReads fun _ w => if o ∈ gone then w else renamed old new w) ∧
      (∀ v, g'.uses v =
        if old = new then g.uses v
        else if v = new then g.uses v ++ g.uses old else if v = old then [] else g.uses v) ∧
      g'.values = g.values ∧ g'.blocks = g.blocks ∧ g'.regions = g.regions ∧
      g'.ops.size = g.ops.size := by
  unfold replaceUses
  by_cases e : old = new
  · subst e
    refine ⟨g, if_pos rfl, fun o => ?_, fun v => (if_pos rfl).symm, rfl, rfl, rfl, rfl⟩
    refine (Operation.mapReads_of_forall _ fun i w _ => ?_).symm
    unfold renamed
    split
    · rfl
    · split
      · next hw => exact hw.symm
      · rfl
  · rw [if_neg e]
    have slots : ∀ u ∈ g.uses old,
        ((g.modifyChain old fun _ => []).operands u.user)[u.slot]? = some old := by
      intro u hu
      exact ((h.reads old u).mp hu).2
    obtain ⟨g', run, op', uses', hvalues, hblocks, hregions, hsize⟩ :=
      foldlM_redirectUse new (h.readOnce old) slots
    refine ⟨g', run, fun o => ?_, fun v => ?_, hvalues, hblocks, hregions, hsize⟩
    · rw [op' o]
      -- The slots on the chain are those that hold `old`, of operations still there.
      have agree : ∀ i w, (g.op o).operands[i]? = some w →
          (if (⟨o, i⟩ : Use) ∈ g.uses old then new else w) =
            if o ∈ gone then w else renamed old new w := by
        intro i w hw
        have hmem : (⟨o, i⟩ : Use) ∈ g.uses old ↔ o ∉ gone ∧ w = old := by
          rw [h.reads, operands, hw]
          simp
        unfold renamed
        by_cases hg : o ∈ gone
        · simp [hmem, hg]
        · simp [hmem, hg]
      change (g.op o).mapReads _ = _
      rw [Operation.mapReads, Operation.mapReads]
      congr 1
      apply List.ext_getElem?
      intro i
      rw [List.getElem?_mapIdx, List.getElem?_mapIdx]
      cases hw : (g.op o).operands[i]? with
      | none => rfl
      | some w => exact congrArg some (agree i w hw)
    · rw [uses' v, if_neg e, uses_modifyChain]
      by_cases hn : v = new
      · subst hn
        rw [if_pos rfl, if_pos rfl, if_neg e]
      · rw [if_neg hn, if_neg hn]
        simp only [eq_comm]

/-- Once `new` stands for `old`, the chain of a value has the readings of all values that are
called so now. -/
theorem mem_chain_renamed {u : Use} :
    (u ∈ if old = new then g.uses v
      else if v = new then g.uses v ++ g.uses old else if v = old then [] else g.uses v) ↔
      ∃ w, renamed old new w = v ∧ u ∈ g.uses w := by
  by_cases heq : old = new
  · subst heq
    have same : ∀ w, renamed old old w = w := by
      intro w
      unfold renamed
      split
      · next hw => exact hw.symm
      · rfl
    simp only [if_true, same, exists_eq_left]
  rw [if_neg heq]
  by_cases hnew : v = new
  · subst hnew
    rw [if_pos rfl, List.mem_append]
    constructor
    · rintro (hu | hu)
      · exact ⟨v, if_neg (Ne.symm heq), hu⟩
      · exact ⟨old, if_pos rfl, hu⟩
    · rintro ⟨w, hw, hu⟩
      by_cases hold : w = old
      · exact Or.inr (hold ▸ hu)
      · rw [renamed, if_neg hold] at hw
        exact Or.inl (hw ▸ hu)
  · -- Nothing is called `v` now but `v` itself, and not even that if it is `old`.
    have called : ∀ w, renamed old new w = v ↔ w ≠ old ∧ w = v := by
      intro w
      unfold renamed
      split
      · next hw => simp [hw, Ne.symm hnew]
      · next hw => simp [hw]
    rw [if_neg hnew]
    simp only [called]
    split
    · next hold => simp [hold]
    · next hold => simp [hold]

/-- Replacing a value moves its readings over. -/
theorem ReadsAgree.replaceUses (h : ReadsAgree g gone) (hr : g.replaceUses old new = .ok g') :
    ReadsAgree g' gone := by
  obtain ⟨g₁, run, op', uses', -, -, -, hsize⟩ := h.replaceUses_total old new
  obtain rfl : g₁ = g' := by
    rw [run] at hr
    exact Except.ok.inj hr
  have slot : ∀ (o : OpId) (i : Nat), (g₁.operands o)[i]? =
      (g.operands o)[i]?.map fun w => if o ∈ gone then w else renamed old new w := by
    intro o i
    rw [operands, op' o, Operation.mapReads, List.getElem?_mapIdx]
    rfl
  refine ⟨fun v u => ?_, fun v => ?_, fun o ho => ?_⟩
  · -- A slot holds `v` now if it held a value that is called `v` now.
    rw [uses', mem_chain_renamed, slot, Option.map_eq_some_iff]
    simp only [h.reads]
    by_cases hg : u.user ∈ gone
    · simp [hg]
    · simp [hg, and_comm]
  · rw [uses']
    split
    · exact h.readOnce v
    · split
      · next e hv =>
        refine (h.readOnce v).append (h.readOnce old) fun u hu hu' => ?_
        have hs := ((h.reads v u).mp hu).2
        rw [((h.reads old u).mp hu').2] at hs
        exact e ((Option.some.inj hs).trans hv)
      · split
        · exact List.nodup_nil
        · exact h.readOnce v
  · rw [HasOp, hsize]
    exact h.known o ho

/-- So the graph is consistent after it. -/
theorem Consistent.replaceUses (h : Consistent g gone) (hr : g.replaceUses old new = .ok g') :
    Consistent g' gone := by
  obtain ⟨g₁, run, op', -, hvalues, hblocks, hregions, -⟩ :=
    h.toReadsAgree.replaceUses_total old new
  obtain rfl : g₁ = g' := by
    rw [run] at hr
    exact Except.ok.inj hr
  exact h.reread (h.toReadsAgree.replaceUses hr) (fun o => ⟨_, op' o⟩) hvalues hblocks hregions

end Graph

end SimdLowering
