/-
When an edit succeeds, and what the graph looks like afterwards.

One lemma for each edit. It is stated for a successful run: what must have held of
the old graph, and every record of the new one by an equation. Where an edit is a
fold over a list, the induction is done here and the lemma speaks of the whole list.

Placing an operation is the same edit twice, at the end of a block and before another
operation of it, so its effect is one relation, `Placed`, with the change of the list
as a parameter.
-/
import SimdLowering.Proofs.Graph.Records
import SimdLowering.Proofs.Runs

set_option autoImplicit false

namespace SimdLowering

/-- Where positions do not matter. -/
theorem mapIdx_const {α β : Type} (l : List α) (f : α → β) : l.mapIdx (fun _ => f) = l.map f := by
  induction l with
  | nil => rfl
  | cons x xs ih => simp [List.mapIdx_cons, ih]

/-- The operation with every operand renamed; the renaming may depend on the slot. -/
def Operation.mapReads (x : Operation) (f : Nat → ValueId → ValueId) : Operation :=
  { x with operands := x.operands.mapIdx f }

/-- An operation whose reads stay what they are is not changed. -/
theorem Operation.mapReads_of_forall (x : Operation) {f : Nat → ValueId → ValueId}
    (h : ∀ i w, x.operands[i]? = some w → f i w = w) : x.mapReads f = x := by
  have he : x.operands.mapIdx f = x.operands := by
    apply List.ext_getElem?
    intro i
    rw [List.getElem?_mapIdx]
    cases hi : x.operands[i]? with
    | none => rfl
    | some w => exact congrArg some (h i w hi)
  rw [Operation.mapReads, he]

/-- Reads may be changed in one go. -/
theorem Operation.mapReads_mapReads (x : Operation) (f k : Nat → ValueId → ValueId) :
    (x.mapReads f).mapReads k = x.mapReads fun i w => k i (f i w) := by
  simp only [Operation.mapReads, List.mapIdx_mapIdx]
  rfl

namespace Graph

variable {g g' : Graph} {o op before : OpId} {b c : BlockId} {r s : RegionId}
  {v w old new : ValueId}

/-- The region a block lies in. -/
def regionOf? (g : Graph) (b : BlockId) : Option RegionId := (g.block b).region

/-- The operation that owns a region. -/
def ownerOf? (g : Graph) (r : RegionId) : Option OpId := (g.region r).owner

/-- Where a value that is there comes from. -/
def originOf? (g : Graph) (v : ValueId) : Option Origin := (g.value? v).map Value.origin

/-- The origin of a value after new values have come: the next ones are told apart
from the old ones by their names alone. -/
theorem originOf?_addValues (origin : Nat → Origin) (types : List Ty) (v : ValueId) :
    (g.addValues origin types).1.originOf? v =
      if g.HasValue v then g.originOf? v
      else if v.index < g.values.size + types.length then
        some (origin (v.index - g.values.size))
      else none := by
  unfold originOf?
  rw [value?_addValues]
  split
  · rfl
  · next h =>
    unfold HasValue at h
    rw [Option.map_map]
    by_cases hv : v.index < g.values.size + types.length
    · rw [if_pos hv, List.getElem?_eq_getElem (by omega)]
      rfl
    · rw [if_neg hv, List.getElem?_eq_none (by omega)]
      rfl

/-! ## Blocks -/

/-- A new block has its arguments and no operations. -/
theorem block_createBlock (types : List Ty) (c : BlockId) :
    (g.createBlock types).1.block c =
      if c = g.nextBlock then ⟨g.nextValues types.length, [], none⟩ else g.block c := by
  obtain ⟨j⟩ := c
  simp only [createBlock, block, block?, Array.getElem?_push, nextBlock, BlockId.mk.injEq]
  change ((if j = g.blocks.size then some _ else g.blocks[j]?).getD default) = _
  by_cases h : j = g.blocks.size
  · rw [if_pos h, if_pos h]
    rfl
  · rw [if_neg h, if_neg h]

/-! ## Regions -/

/-- Putting blocks into a region succeeds only where each of them is there and free,
and no block is named twice. -/
theorem foldlM_enclose {blocks : List BlockId}
    (h : blocks.foldlM (fun g b =>
      match g.block? b with
      | none => .error .broken
      | some block =>
        match block.region with
        | some owner => .error (.blockTaken b owner r)
        | none => .ok (g.modifyBlock b fun x => { x with region := some r })) g
        = (.ok g' : Except Fault Graph)) :
    blocks.Nodup ∧ (∀ c ∈ blocks, g.HasBlock c ∧ g.regionOf? c = none) ∧
    (∀ c, g'.block c =
      if c ∈ blocks then { g.block c with region := some r } else g.block c) ∧
    g'.ops = g.ops ∧ g'.values = g.values ∧ g'.regions = g.regions ∧
    g'.chains = g.chains ∧ g'.blocks.size = g.blocks.size := by
  induction blocks generalizing g with
  | nil =>
    obtain rfl := Except.ok.inj h
    exact ⟨List.nodup_nil, by simp, by simp, rfl, rfl, rfl, rfl, rfl⟩
  | cons b rest ih =>
    rw [List.foldlM_cons] at h
    by_cases hb : g.HasBlock b
    · rw [block?_eq_some hb] at h
      dsimp only at h
      cases hr : (g.block b).region with
      | some owner =>
        rw [hr] at h
        cases h
      | none =>
        rw [hr] at h
        obtain ⟨nodup, free, block, hops, hvalues, hregions, hchains, hsize⟩ := ih h
        -- The head has an owner by the time the rest is looked at, so it is not in it.
        have fresh : b ∉ rest := by
          intro hmem
          have hb' := (free b hmem).2
          rw [regionOf?, block_modifyBlock hb, if_pos rfl] at hb'
          cases hb'
        refine ⟨List.nodup_cons.mpr ⟨fresh, nodup⟩, ?_, ?_, hops, hvalues, hregions, hchains, ?_⟩
        · intro c hc
          rcases List.mem_cons.mp hc with rfl | hc
          · exact ⟨hb, hr⟩
          · have hne : b ≠ c := fun e => fresh (e ▸ hc)
            obtain ⟨hc₁, hc₂⟩ := free c hc
            rw [regionOf?, block_modifyBlock hb, if_neg hne] at hc₂
            exact ⟨(hasBlock_modifyBlock _).mp hc₁, hc₂⟩
        · intro c
          rw [block c, block_modifyBlock hb]
          by_cases hc : b = c
          · subst hc
            simp [fresh]
          · simp [hc, Ne.symm hc]
        · rw [hsize]
          simp [modifyBlock]
    · rw [block?_eq_none hb] at h
      cases h

/-- A new region lists the blocks it was made for, and they lie in it. -/
theorem createRegion_effect {blocks : List BlockId} (h : g.createRegion blocks = .ok (g', r)) :
    r = g.nextRegion ∧ blocks.Nodup ∧ (∀ c ∈ blocks, g.HasBlock c ∧ g.regionOf? c = none) ∧
    (∀ c, g'.block c =
      if c ∈ blocks then { g.block c with region := some r } else g.block c) ∧
    (∀ s, g'.region s = if s = r then ⟨blocks, none⟩ else g.region s) ∧
    g'.ops = g.ops ∧ g'.values = g.values ∧ g'.chains = g.chains := by
  unfold createRegion at h
  obtain ⟨g₁, h₁, h₂⟩ := bind_eq_ok.mp h
  obtain ⟨nodup, free, block, hops, hvalues, hregions, hchains, -⟩ := foldlM_enclose h₁
  obtain ⟨rfl, rfl⟩ := Prod.mk.inj (Except.ok.inj h₂)
  refine ⟨rfl, nodup, free, block, fun s => ?_, hops, hvalues, hchains⟩
  obtain ⟨j⟩ := s
  simp only [region, region?, Array.getElem?_push, hregions, RegionId.mk.injEq]
  by_cases h : j = g.regions.size
  · rw [if_pos h, if_pos h]
    rfl
  · rw [if_neg h, if_neg h]

/-! ## New operations -/

/-- The record of an operation that has just been created from a draft. -/
def newOperation (g : Graph) (d : Draft ValueId) : Operation :=
  ⟨d.kind, d.operands, g.nextValues d.results.length, d.attrs, d.regions, none⟩

theorem addOp_snd (d : Draft ValueId) : (g.addOp d).2 = g.nextOp := rfl

/-- A new operation is what it was drafted to be, and the others are untouched. -/
theorem op_addOp (d : Draft ValueId) (o : OpId) :
    (g.addOp d).1.op o = if o = g.nextOp then g.newOperation d else g.op o := by
  obtain ⟨j⟩ := o
  obtain ⟨hops, hvalues, -, -⟩ := addUses_arenas (g := g) g.nextOp d.operands
  simp only [op, op?, addOp, addValues, Array.getElem?_push, nextOp, OpId.mk.injEq] at hops ⊢
  rw [hops]
  by_cases h : j = g.ops.size
  · rw [if_pos h, if_pos h, newOperation, nextValues, ← hvalues]
    rfl
  · rw [if_neg h, if_neg h]

/-- It is there from then on. -/
theorem hasOp_addOp (d : Draft ValueId) :
    (g.addOp d).1.HasOp o ↔ g.HasOp o ∨ o = g.nextOp := by
  obtain ⟨j⟩ := o
  have hops := (addUses_arenas (g := g) g.nextOp d.operands).1
  simp only [HasOp, addOp, addValues, Array.size_push, nextOp, OpId.mk.injEq] at hops ⊢
  rw [hops]
  omega

/-- Its results come after the values that were there. -/
theorem value?_addOp (d : Draft ValueId) (v : ValueId) :
    (g.addOp d).1.value? v =
      if g.HasValue v then g.value? v
      else d.results[v.index - g.values.size]?.map fun ty =>
        ⟨.result g.nextOp (v.index - g.values.size), ty⟩ := by
  have hvalues := (addUses_arenas (g := g) g.nextOp d.operands).2.1
  have h := value?_addValues (g := g.addUses g.nextOp d.operands) (.result g.nextOp) d.results v
  simp only [HasValue, value?, hvalues] at h ⊢
  exact h

/-- And name it as their origin. -/
theorem originOf?_addOp (d : Draft ValueId) (v : ValueId) :
    (g.addOp d).1.originOf? v =
      if g.HasValue v then g.originOf? v
      else if v.index < g.values.size + d.results.length then
        some (.result g.nextOp (v.index - g.values.size))
      else none := by
  have h := originOf?_addValues (g := g) (.result g.nextOp) d.results v
  rw [originOf?, value?_addOp]
  rw [originOf?, value?_addValues] at h
  exact h

/-- Its readings come last in the chains of what it reads. -/
theorem uses_addOp (d : Draft ValueId) (v : ValueId) :
    (g.addOp d).1.uses v = g.uses v ++ readings g.nextOp d.operands v :=
  uses_addUses g.nextOp d.operands v

theorem blocks_addOp (d : Draft ValueId) : (g.addOp d).1.blocks = g.blocks :=
  (addUses_arenas (g := g) g.nextOp d.operands).2.2.1

theorem regions_addOp (d : Draft ValueId) : (g.addOp d).1.regions = g.regions :=
  (addUses_arenas (g := g) g.nextOp d.operands).2.2.2

/-- Taking regions succeeds only where each of them is there and free, and no region
is named twice. -/
theorem foldlM_ownRegion {regions : List RegionId}
    (h : regions.foldlM (fun g r => g.ownRegion op r) g = .ok g') :
    regions.Nodup ∧ (∀ s ∈ regions, g.HasRegion s ∧ g.ownerOf? s = none) ∧
    (∀ s, g'.region s =
      if s ∈ regions then { g.region s with owner := some op } else g.region s) ∧
    g'.ops = g.ops ∧ g'.values = g.values ∧ g'.blocks = g.blocks ∧
    g'.chains = g.chains ∧ g'.regions.size = g.regions.size := by
  induction regions generalizing g with
  | nil =>
    obtain rfl := Except.ok.inj h
    exact ⟨List.nodup_nil, by simp, by simp, rfl, rfl, rfl, rfl, rfl⟩
  | cons r rest ih =>
    rw [List.foldlM_cons, bind_eq_ok] at h
    obtain ⟨g₁, h₁, h₂⟩ := h
    unfold ownRegion at h₁
    by_cases hr : g.HasRegion r
    · rw [region?_eq_some hr] at h₁
      dsimp only at h₁
      cases ho : (g.region r).owner with
      | some owner =>
        rw [ho] at h₁
        cases h₁
      | none =>
        rw [ho] at h₁
        obtain rfl := Except.ok.inj h₁
        obtain ⟨nodup, free, region, hops, hvalues, hblocks, hchains, hsize⟩ := ih h₂
        -- As for blocks: the head is owned by the time the rest is looked at.
        have fresh : r ∉ rest := by
          intro hmem
          have hr' := (free r hmem).2
          rw [ownerOf?, region_modifyRegion hr, if_pos rfl] at hr'
          cases hr'
        refine ⟨List.nodup_cons.mpr ⟨fresh, nodup⟩, ?_, ?_, hops, hvalues, hblocks, hchains, ?_⟩
        · intro s hs
          rcases List.mem_cons.mp hs with rfl | hs
          · exact ⟨hr, ho⟩
          · have hne : r ≠ s := fun e => fresh (e ▸ hs)
            obtain ⟨hs₁, hs₂⟩ := free s hs
            rw [ownerOf?, region_modifyRegion hr, if_neg hne] at hs₂
            exact ⟨(hasRegion_modifyRegion _).mp hs₁, hs₂⟩
        · intro s
          rw [region s, region_modifyRegion hr]
          by_cases hs : r = s
          · subst hs
            simp [fresh]
          · simp [hs, Ne.symm hs]
        · rw [hsize]
          simp [modifyRegion]
    · rw [region?_eq_none hr] at h₁
      cases h₁

/-- A new operation with its regions: besides what creating it changes, each of its
regions has it as owner. -/
theorem createOp_effect {d : Draft ValueId} (h : g.createOp d = .ok (g', op)) :
    op = g.nextOp ∧ d.regions.Nodup ∧ (∀ s ∈ d.regions, g.HasRegion s ∧ g.ownerOf? s = none) ∧
    (∀ s, g'.region s =
      if s ∈ d.regions then { g.region s with owner := some op } else g.region s) ∧
    g'.ops = (g.addOp d).1.ops ∧ g'.values = (g.addOp d).1.values ∧
    g'.chains = (g.addOp d).1.chains ∧ g'.blocks = g.blocks ∧
    g'.regions.size = g.regions.size := by
  have hregions := regions_addOp (g := g) d
  have hblocks₀ := blocks_addOp (g := g) d
  have hnext := addOp_snd (g := g) d
  unfold createOp at h
  generalize g.addOp d = created at h hregions hblocks₀ hnext ⊢
  obtain ⟨g₀, op₀⟩ := created
  change g₀.regions = g.regions at hregions
  -- The operation is added first, and then it takes its regions, which changes nothing else.
  obtain ⟨g₁, h₁, h₂⟩ := bind_eq_ok.mp h
  obtain ⟨nodup, free, region, hops, hvalues, hblocks, hchains, hsize⟩ := foldlM_ownRegion h₁
  obtain ⟨rfl, rfl⟩ := Prod.mk.inj (Except.ok.inj h₂)
  refine ⟨hnext, nodup, fun s hs => ?_, fun s => ?_, hops, hvalues, hchains,
    hblocks.trans hblocks₀, ?_⟩
  · have hs := free s hs
    simpa only [HasRegion, ownerOf?, Graph.region, region?, hregions] using hs
  · have hs := region s
    simpa only [Graph.region, region?, hregions] using hs
  · rw [hsize]
    exact congrArg Array.size hregions

/-! ## Placement -/

/-- The operation has been put into the block, and the list of the block has changed
by `f`. -/
structure Placed (g g' : Graph) (b : BlockId) (op : OpId) (f : List OpId → List OpId) :
    Prop where
  isOp : g.HasOp op
  isBlock : g.HasBlock b
  free : g.blockOf? op = none
  op : ∀ o, g'.op o = if op = o then { g.op o with block := some b } else g.op o
  block : ∀ c, g'.block c = if b = c then { g.block c with ops := f (g.block c).ops } else g.block c
  regions : g'.regions = g.regions
  values : g'.values = g.values
  chains : g'.chains = g.chains
  sizes : g'.ops.size = g.ops.size ∧ g'.blocks.size = g.blocks.size

/-- Both ways to place an operation end with these two changes. -/
theorem placed_of_modify (ho : g.HasOp op) (hb : g.HasBlock b) (free : g.blockOf? op = none)
    (f : List OpId → List OpId) :
    Placed g ((g.modifyBlock b fun x => { x with ops := f x.ops }).modifyOp op
      fun x => { x with block := some b }) b op f where
  isOp := ho
  isBlock := hb
  free := free
  op := op_modifyOp (show (g.modifyBlock b _).HasOp op from ho) _
  block := block_modifyBlock hb _
  regions := rfl
  values := rfl
  chains := rfl
  sizes := by simp [modifyOp, modifyBlock]

/-- An operation can be appended if it is there, lies nowhere, and the block is there. -/
theorem append_eq_ok : g.append b op = .ok g' ↔
    g.HasOp op ∧ g.HasBlock b ∧ g.blockOf? op = none ∧
      g' = (g.modifyBlock b fun x => { x with ops := x.ops ++ [op] }).modifyOp op
        fun x => { x with block := some b } := by
  unfold append blockOf?
  by_cases ho : g.HasOp op
  · rw [op?_eq_some ho]
    cases hp : (g.op op).block with
    | some owner => simp [hp]
    | none =>
      by_cases hb : g.HasBlock b
      · simp [hp, block?_eq_some hb, ho, hb, eq_comm]
      · simp [hp, block?_eq_none hb, hb]
  · simp [op?_eq_none ho, ho]

/-- It then stands at the end. -/
theorem append_effect (h : g.append b op = .ok g') : Placed g g' b op (· ++ [op]) := by
  obtain ⟨ho, hb, free, rfl⟩ := append_eq_ok.mp h
  exact placed_of_modify ho hb free (· ++ [op])

/-- It can be put before another one that stands in the block. -/
theorem insertBefore_eq_ok : g.insertBefore b before op = .ok g' ↔
    g.HasOp op ∧ g.HasBlock b ∧ g.blockOf? op = none ∧ before ∈ g.opsIn b ∧
      g' = (g.modifyBlock b fun x => { x with ops := insertBeforeIn before op x.ops }).modifyOp op
        fun x => { x with block := some b } := by
  unfold insertBefore blockOf? opsIn
  by_cases ho : g.HasOp op
  · rw [op?_eq_some ho]
    cases hp : (g.op op).block with
    | some owner => simp [hp]
    | none =>
      by_cases hb : g.HasBlock b
      · by_cases hm : before ∈ (g.block b).ops
        · simp [hp, block?_eq_some hb, ho, hb, hm, eq_comm]
        · simp [hp, block?_eq_some hb, hm]
      · simp [hp, block?_eq_none hb, hb]
  · simp [op?_eq_none ho, ho]

/-- It then stands right before that one. -/
theorem insertBefore_effect (h : g.insertBefore b before op = .ok g') :
    Placed g g' b op (insertBeforeIn before op) := by
  obtain ⟨ho, hb, free, -, rfl⟩ := insertBefore_eq_ok.mp h
  exact placed_of_modify ho hb free _

/-- Taking an operation out needs no more than that it and the block are there. -/
theorem detach_eq_ok : g.detach b op = .ok g' ↔
    g.HasOp op ∧ g.HasBlock b ∧
      g' = (g.modifyBlock b fun x => { x with ops := x.ops.filter fun o => o != op }).modifyOp op
        fun x => if x.block = some b then { x with block := none } else x := by
  unfold detach
  by_cases ho : g.HasOp op
  · by_cases hb : g.HasBlock b
    · simp [op?_eq_some ho, block?_eq_some hb, ho, hb, eq_comm]
    · simp [block?_eq_none hb, hb]
  · by_cases hb : g.HasBlock b
    · simp [op?_eq_none ho, block?_eq_some hb, ho]
    · simp [block?_eq_none hb, hb]

/-- Only the operation and its block know of it, and of the operation only if it stood there. -/
theorem detach_effect (h : g.detach b op = .ok g') :
    g.HasOp op ∧ g.HasBlock b ∧
    (∀ o, g'.op o =
      if op = o ∧ g.blockOf? o = some b then { g.op o with block := none } else g.op o) ∧
    (∀ c, g'.block c =
      if b = c then { g.block c with ops := (g.block c).ops.filter fun o => o != op }
      else g.block c) ∧
    g'.regions = g.regions ∧ g'.values = g.values ∧ g'.chains = g.chains ∧
    g'.ops.size = g.ops.size ∧ g'.blocks.size = g.blocks.size := by
  obtain ⟨ho, hb, rfl⟩ := detach_eq_ok.mp h
  refine ⟨ho, hb, fun o => ?_, block_modifyBlock hb _, rfl, rfl, rfl, ?_, ?_⟩
  · rw [op_modifyOp (show (g.modifyBlock b _).HasOp op from ho)]
    by_cases e : op = o
    · subst e
      simp only [true_and, if_true]
      rfl
    · simp only [e, false_and, if_false]
      rfl
  · simp [modifyOp, modifyBlock]
  · simp [modifyOp, modifyBlock]

/-! ## Removal -/

/-- Removal needs an operation that is there, lies in no block and is not read. -/
theorem removeOp_eq_ok : g.removeOp op = .ok g' ↔
    g.HasOp op ∧ g.blockOf? op = none ∧ (∀ v ∈ g.results op, g.uses v = []) ∧
      g' = g.dropUses op (g.operands op) := by
  unfold removeOp blockOf? results operands
  by_cases ho : g.HasOp op
  · rw [op?_eq_some ho]
    cases hp : (g.op op).block with
    | some b => simp [hp]
    | none =>
      -- An operation that stands nowhere goes if none of its results is read.
      cases hf : (g.op op).results.find? fun v => !(g.uses v).isEmpty with
      | some v =>
        have hv := List.find?_some hf
        have hmem := List.mem_of_find?_eq_some hf
        simp only [hp, hf]
        constructor
        · intro h
          cases h
        · rintro ⟨-, -, unread, -⟩
          rw [unread v hmem] at hv
          simp at hv
      | none =>
        have unread : ∀ v ∈ (g.op op).results, g.uses v = [] := by
          intro v hv
          simpa using List.find?_eq_none.mp hf v hv
        simp only [hp, hf]
        constructor
        · intro h
          exact ⟨ho, trivial, unread, (Except.ok.inj h).symm⟩
        · rintro ⟨-, -, -, rfl⟩
          rfl
  · simp [op?_eq_none ho, ho]

/-! ## Substitution -/

/-- Redirecting a list of readings of `old`, no two of them equal, always succeeds:
exactly these slots hold `new` afterwards, and the readings join its chain in order. -/
theorem foldlM_redirectUse (new : ValueId) {us : List Use} (nodup : us.Nodup)
    (slots : ∀ u ∈ us, (g.operands u.user)[u.slot]? = some old) :
    ∃ g', us.foldlM (fun g u => g.redirectUse old new u) g = .ok g' ∧
      (∀ o, g'.op o = (g.op o).mapReads fun i w => if ⟨o, i⟩ ∈ us then new else w) ∧
      (∀ v, g'.uses v = if v = new then g.uses v ++ us else g.uses v) ∧
      g'.values = g.values ∧ g'.blocks = g.blocks ∧ g'.regions = g.regions ∧
      g'.ops.size = g.ops.size := by
  induction us generalizing g with
  | nil =>
    refine ⟨g, rfl, fun o => ?_, fun v => ?_, rfl, rfl, rfl, rfl⟩
    · exact (Operation.mapReads_of_forall _ (by simp)).symm
    · simp
  | cons u us ih =>
    obtain ⟨fresh, nodup⟩ := List.nodup_cons.mp nodup
    have hslot := slots u (List.mem_cons_self ..)
    have hop : g.HasOp u.user := hasOp_of_mem_operands (List.mem_of_getElem? hslot)
    -- One step: the slot of `u` holds `new`, every other slot what it held.
    let g₁ := (g.modifyOp u.user fun x => { x with operands := x.operands.set u.slot new }).addUse
      new u
    have op₁ : ∀ o, g₁.op o = (g.op o).mapReads fun i w => if ⟨o, i⟩ = u then new else w := by
      intro o
      change (g.modifyOp u.user _).op o = _
      rw [op_modifyOp hop]
      by_cases e : u.user = o
      · subst e
        rw [if_pos rfl, Operation.mapReads]
        congr 1
        apply List.ext_getElem?
        intro i
        rw [List.getElem?_mapIdx, List.getElem?_set]
        by_cases hi : u.slot = i
        · subst hi
          have hlt : u.slot < (g.op u.user).operands.length := by
            by_contra hge
            rw [operands, List.getElem?_eq_none (by omega)] at hslot
            cases hslot
          simp [hlt]
        · have hu : ¬(⟨u.user, i⟩ : Use) = u := fun e => hi (by rw [← e])
          simp [hi, hu]
      · rw [if_neg e]
        refine (Operation.mapReads_of_forall _ fun i w _ => ?_).symm
        exact if_neg fun he => e (by rw [← he])
    have slots₁ : ∀ x ∈ us, (g₁.operands x.user)[x.slot]? = some old := by
      intro x hx
      have hxu : ¬ x = u := fun e => fresh (e ▸ hx)
      have hx := slots x (List.mem_cons_of_mem _ hx)
      rw [operands] at hx ⊢
      rw [op₁, Operation.mapReads, List.getElem?_mapIdx, hx]
      simp [hxu]
    obtain ⟨g', run, op', uses', hvalues, hblocks, hregions, hsize⟩ := ih nodup slots₁
    refine ⟨g', ?_, fun o => ?_, fun v => ?_, hvalues, hblocks, hregions, ?_⟩
    · rw [List.foldlM_cons, bind_eq_ok]
      refine ⟨g₁, ?_, run⟩
      rw [redirectUse, if_pos hslot]
    · rw [op' o, op₁ o, Operation.mapReads_mapReads]
      congr 1
      funext i w
      simp only [List.mem_cons]
      by_cases h₁ : (⟨o, i⟩ : Use) = u
      · simp [h₁]
      · simp [h₁]
    · rw [uses' v, uses_addUse]
      by_cases hv : v = new
      · subst hv
        rw [if_pos rfl, if_pos rfl, if_pos rfl, List.append_assoc]
        rfl
      · rw [if_neg hv, if_neg hv, if_neg (Ne.symm hv)]
        rfl
    · rw [hsize]
      simp [g₁, addUse, modifyChain, modifyOp]

end Graph

end SimdLowering
