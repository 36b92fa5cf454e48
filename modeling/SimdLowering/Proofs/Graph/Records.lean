/-
What an edit does to the records of a graph.

Every edit is a small program over four arenas and the chains. The proofs above
this file never look at the arenas again: they read a graph through its records
(`op`, `block`, `region`, `value?`) and its chains (`uses`), and for each edit there
is one lemma here that says when it succeeds and what each record is afterwards. A
record that an edit leaves alone is left alone by an equation between arenas, so
that whatever is defined from those arenas alone carries over by rewriting.

The records that are not there read as `default`, with no block, no owner and empty
lists; this is why most equations need no side condition.
-/
import SimdLowering.Graph.Edit
import Mathlib.Data.List.Basic
import Mathlib.Data.List.Nodup

set_option autoImplicit false

namespace SimdLowering

namespace Graph

variable {g g' : Graph} {o op : OpId} {b c : BlockId} {r s : RegionId} {v w : ValueId}

/-! ## Names that name something -/

/-- The operation is in the arena, placed or not. -/
def HasOp (g : Graph) (o : OpId) : Prop := o.index < g.ops.size

/-- The block is in the arena. -/
def HasBlock (g : Graph) (b : BlockId) : Prop := b.index < g.blocks.size

/-- The region is in the arena. -/
def HasRegion (g : Graph) (r : RegionId) : Prop := r.index < g.regions.size

/-- The value is in the arena; an operand need not be. -/
def HasValue (g : Graph) (v : ValueId) : Prop := v.index < g.values.size

instance : Decidable (g.HasOp o) := inferInstanceAs (Decidable (_ < _))
instance : Decidable (g.HasBlock b) := inferInstanceAs (Decidable (_ < _))
instance : Decidable (g.HasRegion r) := inferInstanceAs (Decidable (_ < _))
instance : Decidable (g.HasValue v) := inferInstanceAs (Decidable (_ < _))

/-- The name that the next operation gets. -/
def nextOp (g : Graph) : OpId := ⟨g.ops.size⟩

/-- The name that the next block gets. -/
def nextBlock (g : Graph) : BlockId := ⟨g.blocks.size⟩

/-- The name that the next region gets. -/
def nextRegion (g : Graph) : RegionId := ⟨g.regions.size⟩

/-- What is there is found. -/
theorem op?_eq_some (h : g.HasOp o) : g.op? o = some (g.op o) := by
  unfold HasOp at h
  simp [op, op?, h]

/-- What is not there is not. -/
theorem op?_eq_none (h : ¬ g.HasOp o) : g.op? o = none := by
  unfold HasOp at h
  simp only [op?, Array.getElem?_eq_none_iff]
  omega

/-- Where there is no operation, an empty one is read. -/
theorem op_eq_default (h : ¬ g.HasOp o) : g.op o = default := by
  rw [op, op?_eq_none h]
  rfl

theorem block?_eq_some (h : g.HasBlock b) : g.block? b = some (g.block b) := by
  unfold HasBlock at h
  simp [block, block?, h]

theorem block?_eq_none (h : ¬ g.HasBlock b) : g.block? b = none := by
  unfold HasBlock at h
  simp only [block?, Array.getElem?_eq_none_iff]
  omega

/-- And an empty block where there is no block. -/
theorem block_eq_default (h : ¬ g.HasBlock b) : g.block b = default := by
  rw [block, block?_eq_none h]
  rfl

theorem region?_eq_some (h : g.HasRegion r) : g.region? r = some (g.region r) := by
  unfold HasRegion at h
  simp [region, region?, h]

theorem region?_eq_none (h : ¬ g.HasRegion r) : g.region? r = none := by
  unfold HasRegion at h
  simp only [region?, Array.getElem?_eq_none_iff]
  omega

/-- And an empty region where there is no region. -/
theorem region_eq_default (h : ¬ g.HasRegion r) : g.region r = default := by
  rw [region, region?_eq_none h]
  rfl

/-- A value is found exactly if it is there. -/
theorem value?_isSome_iff : (g.value? v).isSome ↔ g.HasValue v := by
  simp [value?, HasValue]

theorem value?_eq_some (h : g.HasValue v) : g.value? v = some (g.value v) := by
  unfold HasValue at h
  simp [value, value?, h]

theorem value?_eq_none (h : ¬ g.HasValue v) : g.value? v = none := by
  unfold HasValue at h
  simp only [value?, Array.getElem?_eq_none_iff]
  omega

/-- Only an operation that is there lies in a block. -/
theorem hasOp_of_blockOf? (h : g.blockOf? o = some b) : g.HasOp o := by
  by_contra ho
  rw [blockOf?, op_eq_default ho] at h
  cases h

/-- Only an operation that is there defines a value. -/
theorem hasOp_of_mem_results (h : v ∈ g.results o) : g.HasOp o := by
  by_contra ho
  rw [results, op_eq_default ho] at h
  cases h

/-- Only an operation that is there reads a value. -/
theorem hasOp_of_mem_operands (h : v ∈ g.operands o) : g.HasOp o := by
  by_contra ho
  rw [operands, op_eq_default ho] at h
  cases h

/-- Only an operation that is there owns a region. -/
theorem hasOp_of_mem_regionsOf (h : r ∈ g.regionsOf o) : g.HasOp o := by
  by_contra ho
  rw [regionsOf, op_eq_default ho] at h
  cases h

/-- Only a block that is there lists operations. -/
theorem hasBlock_of_mem_opsIn (h : o ∈ g.opsIn b) : g.HasBlock b := by
  by_contra hb
  rw [opsIn, block_eq_default hb] at h
  cases h

/-! ## Single records -/

/-- Changing one operation changes no other. -/
theorem op_modifyOp (h : g.HasOp op) (f : Operation → Operation) (o : OpId) :
    (g.modifyOp op f).op o = if op = o then f (g.op o) else g.op o := by
  unfold Graph.op
  rw [op?_modifyOp]
  split
  · next e =>
    subst e
    rw [op?_eq_some h]
    rfl
  · rfl

/-- Changing one block changes no other. -/
theorem block_modifyBlock (h : g.HasBlock b) (f : Block → Block) (c : BlockId) :
    (g.modifyBlock b f).block c = if b = c then f (g.block c) else g.block c := by
  unfold Graph.block
  rw [block?_modifyBlock]
  split
  · next e =>
    subst e
    rw [block?_eq_some h]
    rfl
  · rfl

/-- Changing one region changes no other. -/
theorem region_modifyRegion (h : g.HasRegion r) (f : Region → Region) (s : RegionId) :
    (g.modifyRegion r f).region s = if r = s then f (g.region s) else g.region s := by
  unfold Graph.region
  rw [region?_modifyRegion]
  split
  · next e =>
    subst e
    rw [region?_eq_some h]
    rfl
  · rfl

/-- Changing a block leaves it where it is. -/
theorem hasBlock_modifyBlock (f : Block → Block) :
    (g.modifyBlock b f).HasBlock c ↔ g.HasBlock c := by
  simp [HasBlock, modifyBlock]

/-- Changing a region does so, too. -/
theorem hasRegion_modifyRegion (f : Region → Region) :
    (g.modifyRegion r f).HasRegion s ↔ g.HasRegion s := by
  simp [HasRegion, modifyRegion]

/-! ## New values -/

/-- The names that the next values get. -/
def nextValues (g : Graph) (n : Nat) : List ValueId :=
  (List.range n).map fun i => ⟨g.values.size + i⟩

/-- New values are numbered on from those that are there. -/
theorem getElem?_nextValues (n i : Nat) :
    (g.nextValues n)[i]? = if i < n then some ⟨g.values.size + i⟩ else none := by
  unfold nextValues
  rw [List.getElem?_map]
  split
  · next h => rw [List.getElem?_range h]; rfl
  · next h => rw [List.getElem?_eq_none (by simpa using h)]; rfl

/-- A value that was there is as it was; the next ones have the given types, in
order, and their positions. -/
theorem value?_addValues (origin : Nat → Origin) (types : List Ty) (v : ValueId) :
    (g.addValues origin types).1.value? v =
      if g.HasValue v then g.value? v
      else types[v.index - g.values.size]?.map fun ty =>
        ⟨origin (v.index - g.values.size), ty⟩ := by
  simp only [addValues, value?, Array.getElem?_append]
  by_cases h : g.HasValue v
  · rw [if_pos h, if_pos (show v.index < g.values.size from h)]
  · rw [if_neg h, if_neg (show ¬v.index < g.values.size from h)]
    simp only [List.getElem?_toArray, List.getElem?_map, List.getElem?_zipIdx, Option.map_map]
    simp only [Function.comp_def, Nat.zero_add]

/-! ## Readings of one operation -/

/-- The readings of one value by an operation with the given operands, in slot
order. -/
def readings (op : OpId) (operands : List ValueId) (v : ValueId) : List Use :=
  (operands.zipIdx.filter fun p => p.1 = v).map fun p => ⟨op, p.2⟩

/-- The readings of a value are the slots that hold it. -/
theorem mem_readings {operands : List ValueId} {u : Use} :
    u ∈ readings op operands v ↔ u.user = op ∧ operands[u.slot]? = some v := by
  obtain ⟨user, slot⟩ := u
  simp only [readings, List.mem_map, List.mem_filter, decide_eq_true_eq, Prod.exists,
    List.mk_mem_zipIdx_iff_getElem?, Use.mk.injEq]
  constructor
  · rintro ⟨w, i, ⟨hw, rfl⟩, rfl, rfl⟩
    exact ⟨rfl, hw⟩
  · rintro ⟨rfl, hw⟩
    exact ⟨v, slot, ⟨hw, rfl⟩, rfl, rfl⟩

/-- No slot is listed twice. -/
theorem nodup_readings (op : OpId) (operands : List ValueId) (v : ValueId) :
    (readings op operands v).Nodup := by
  -- Equal readings have equal slots, and `zipIdx` counts the slots up.
  have slots : (operands.zipIdx.map Prod.snd).Nodup := by
    rw [List.zipIdx_map_snd]
    exact List.nodup_range'
  have entries : (operands.zipIdx.filter fun p => p.1 = v).Nodup :=
    (List.Nodup.of_map _ slots).filter _
  refine entries.map_on fun p hp q hq h => ?_
  have hp' := (List.mem_filter.mp hp).2
  have hq' := (List.mem_filter.mp hq).2
  simp only [decide_eq_true_eq] at hp' hq'
  exact Prod.ext (hp'.trans hq'.symm) (Use.mk.inj h).2

/-- Registering operands adds their readings at the end of each chain. -/
theorem uses_addUses (op : OpId) (operands : List ValueId) (v : ValueId) :
    (g.addUses op operands).uses v = g.uses v ++ readings op operands v := by
  unfold addUses readings
  generalize operands.zipIdx = slots
  induction slots generalizing g with
  | nil => simp
  | cons p slots ih =>
    rw [List.foldl_cons, ih, uses_addUse]
    by_cases h : p.1 = v
    · simp [h]
    · simp [h]

/-- Dropping them takes the readings out again, wherever they stand. -/
theorem uses_dropUses (op : OpId) (operands : List ValueId) (v : ValueId) :
    (g.dropUses op operands).uses v =
      (g.uses v).filter fun u => !decide (u ∈ readings op operands v) := by
  unfold dropUses readings
  generalize operands.zipIdx = slots
  induction slots generalizing g with
  | nil => simp
  | cons p slots ih =>
    rw [List.foldl_cons, ih, uses_dropUse]
    by_cases h : p.1 = v
    · rw [if_pos h, List.filter_filter]
      refine List.filter_congr fun u _ => ?_
      simp only [h, decide_true, List.filter_cons_of_pos, List.map_cons, List.mem_cons, bne]
      by_cases hu : u = ⟨op, p.2⟩
      · simp [hu]
      · simp [hu]
    · rw [if_neg h, List.filter_cons_of_neg (by simpa using h)]

/-- Putting readings on chains leaves the four arenas alone. -/
theorem addUses_arenas (op : OpId) (operands : List ValueId) :
    (g.addUses op operands).ops = g.ops ∧ (g.addUses op operands).values = g.values ∧
      (g.addUses op operands).blocks = g.blocks ∧
      (g.addUses op operands).regions = g.regions := by
  unfold addUses
  generalize operands.zipIdx = slots
  induction slots generalizing g with
  | nil => exact ⟨rfl, rfl, rfl, rfl⟩
  | cons p slots ih => exact ih

/-- Taking readings off chains leaves the four arenas alone. -/
theorem dropUses_arenas (op : OpId) (operands : List ValueId) :
    (g.dropUses op operands).ops = g.ops ∧ (g.dropUses op operands).values = g.values ∧
      (g.dropUses op operands).blocks = g.blocks ∧
      (g.dropUses op operands).regions = g.regions := by
  unfold dropUses
  generalize operands.zipIdx = slots
  induction slots generalizing g with
  | nil => exact ⟨rfl, rfl, rfl, rfl⟩
  | cons p slots ih => exact ih

end Graph

end SimdLowering
