/-
Changes to a graph.

Everything a graph can become is a sequence of these: create blocks, regions
and operations, place an operation in a block or take it out, remove a placed
operation's readings, and let one value stand for another. Each keeps the
chains of readers in step with the operand lists, so nobody else needs to
touch a chain.

A change that cannot be carried out is a fault, and the checks run in a fixed
order, so that of two faults always the same one is reported.
-/
import SimdLowering.Graph.Basic

set_option autoImplicit false

namespace SimdLowering

namespace Graph

/-! ## Single records -/

/-- Change one operation. -/
def modifyOp (g : Graph) (op : OpId) (f : Operation → Operation) : Graph :=
  { g with ops := g.ops.modify op.index f }

/-- Change one block. -/
def modifyBlock (g : Graph) (b : BlockId) (f : Block → Block) : Graph :=
  { g with blocks := g.blocks.modify b.index f }

/-- Change one region. -/
def modifyRegion (g : Graph) (r : RegionId) (f : Region → Region) : Graph :=
  { g with regions := g.regions.modify r.index f }

/-- Only the operation that is changed looks different afterwards. -/
theorem op?_modifyOp (g : Graph) (op o : OpId) (f : Operation → Operation) :
    (g.modifyOp op f).op? o = if op = o then (g.op? o).map f else g.op? o := by
  obtain ⟨i⟩ := op
  obtain ⟨j⟩ := o
  simp [op?, modifyOp, Array.getElem?_modify]

/-- Only the block that is changed looks different afterwards. -/
theorem block?_modifyBlock (g : Graph) (b c : BlockId) (f : Block → Block) :
    (g.modifyBlock b f).block? c = if b = c then (g.block? c).map f else g.block? c := by
  obtain ⟨i⟩ := b
  obtain ⟨j⟩ := c
  simp [block?, modifyBlock, Array.getElem?_modify]

/-- Only the region that is changed looks different afterwards. -/
theorem region?_modifyRegion (g : Graph) (r s : RegionId) (f : Region → Region) :
    (g.modifyRegion r f).region? s = if r = s then (g.region? s).map f else g.region? s := by
  obtain ⟨i⟩ := r
  obtain ⟨j⟩ := s
  simp [region?, modifyRegion, Array.getElem?_modify]

/-! ## Chains of readers -/

/-- Change the chain of one value, which need not exist yet. -/
def modifyChain (g : Graph) (v : ValueId) (f : List Use → List Use) : Graph :=
  let missing := v.index + 1 - g.chains.size
  { g with chains := (g.chains ++ Array.replicate missing []).modify v.index f }

/-- Only the chain that is changed looks different afterwards, whether it had
begun before or not. -/
theorem uses_modifyChain (g : Graph) (v w : ValueId) (f : List Use → List Use) :
    (g.modifyChain v f).uses w = if v = w then f (g.uses w) else g.uses w := by
  obtain ⟨i⟩ := v
  obtain ⟨j⟩ := w
  have pad : ((g.chains ++ Array.replicate (i + 1 - g.chains.size) [])[j]?).getD [] =
      g.chains[j]?.getD [] := by grind
  by_cases h : i = j
  · subst h
    have hi : i < (g.chains ++ Array.replicate (i + 1 - g.chains.size) []).size := by
      simp
      omega
    rw [Array.getElem?_eq_getElem hi] at pad
    simp [uses, modifyChain, Array.getElem?_modify, Array.getElem?_eq_getElem hi] at pad ⊢
    simp [pad]
  · simp [uses, modifyChain, Array.getElem?_modify, h, pad]

/-- Put a reading at the end of a value's chain. -/
def addUse (g : Graph) (v : ValueId) (u : Use) : Graph :=
  g.modifyChain v fun us => us ++ [u]

/-- Take a reading off a value's chain. -/
def dropUse (g : Graph) (v : ValueId) (u : Use) : Graph :=
  g.modifyChain v fun us => us.filter fun w => w != u

/-- A reading goes on one chain, and to its end. -/
theorem uses_addUse (g : Graph) (v w : ValueId) (u : Use) :
    (g.addUse v u).uses w = if v = w then g.uses w ++ [u] else g.uses w :=
  g.uses_modifyChain v w _

/-- A reading is taken off one chain, and all others on it stay. -/
theorem uses_dropUse (g : Graph) (v w : ValueId) (u : Use) :
    (g.dropUse v u).uses w = if v = w then (g.uses w).filter fun x => x != u else g.uses w :=
  g.uses_modifyChain v w _

/-- Put the readings of an operation's operands on their chains, in slot
order. -/
def addUses (g : Graph) (op : OpId) (operands : List ValueId) : Graph :=
  operands.zipIdx.foldl (fun g (v, slot) => g.addUse v ⟨op, slot⟩) g

/-- Take the readings of an operation's operands off their chains. -/
def dropUses (g : Graph) (op : OpId) (operands : List ValueId) : Graph :=
  operands.zipIdx.foldl (fun g (v, slot) => g.dropUse v ⟨op, slot⟩) g

/-! ## Values -/

/-- Allocate one value for each type, all of one owner. Chains stay as they
are: a value that was read ahead of time keeps those readers. -/
def addValues (g : Graph) (origin : Nat → Origin) (types : List Ty) : Graph × List ValueId :=
  ({ g with values := g.values ++ (types.zipIdx.map fun (ty, i) => ⟨origin i, ty⟩).toArray },
    (List.range types.length).map fun i => ⟨g.values.size + i⟩)

/-! ## Creation -/

/-- Create a block with one argument value for each type. -/
def createBlock (g : Graph) (types : List Ty) : Graph × BlockId :=
  let b : BlockId := ⟨g.blocks.size⟩
  let (g, args) := g.addValues (.argument b) types
  ({ g with blocks := g.blocks.push ⟨args, [], none⟩ }, b)

/-- Create a region around blocks that lie in no region yet. -/
def createRegion (g : Graph) (blocks : List BlockId) : Except Fault (Graph × RegionId) := do
  let r : RegionId := ⟨g.regions.size⟩
  let g ← blocks.foldlM (fun g b =>
    match g.block? b with
    | none => .error .broken
    | some block =>
      match block.region with
      | some owner => .error (.blockTaken b owner r)
      | none => .ok (g.modifyBlock b fun x => { x with region := some r }))
    { g with regions := g.regions.push ⟨blocks, none⟩ }
  return (g, r)

/-- Create an operation without asking for its regions: it lies in no block,
its operands record it as a reader, and its results are new values. -/
def addOp (g : Graph) (d : Draft ValueId) : Graph × OpId :=
  let op : OpId := ⟨g.ops.size⟩
  let (g, results) := (g.addUses op d.operands).addValues (.result op) d.results
  ({ g with ops := g.ops.push ⟨d.kind, d.operands, results, d.attrs, d.regions, none⟩ }, op)

/-- Make an operation the owner of a region that has none. -/
def ownRegion (g : Graph) (op : OpId) (r : RegionId) : Except Fault Graph :=
  match g.region? r with
  | none => .error .broken
  | some region =>
    match region.owner with
    | some owner => .error (.regionTaken r owner op)
    | none => .ok (g.modifyRegion r fun x => { x with owner := some op })

/-- Create an operation and give it its regions. -/
def createOp (g : Graph) (d : Draft ValueId) : Except Fault (Graph × OpId) := do
  let (g, op) := g.addOp d
  let g ← d.regions.foldlM (fun g r => g.ownRegion op r) g
  return (g, op)

/-! ## Placement -/

/-- Put an operation that lies in no block at the end of a block. -/
def append (g : Graph) (b : BlockId) (op : OpId) : Except Fault Graph :=
  match g.op? op with
  | none => .error .broken
  | some o =>
    match o.block with
    | some owner => .error (.appendPlaced op owner)
    | none =>
      match g.block? b with
      | none => .error .broken
      | some _ =>
        .ok ((g.modifyBlock b fun x => { x with ops := x.ops ++ [op] }).modifyOp op
          fun x => { x with block := some b })

/-- The list with `op` put right before the first `before`. -/
def insertBeforeIn (before op : OpId) : List OpId → List OpId
  | [] => []
  | x :: xs => if x = before then op :: x :: xs else x :: insertBeforeIn before op xs

/-- Put an operation that lies in no block right before another one of the
block. -/
def insertBefore (g : Graph) (b : BlockId) (before op : OpId) : Except Fault Graph :=
  match g.op? op with
  | none => .error .broken
  | some o =>
    match o.block with
    | some owner => .error (.insertPlaced op owner)
    | none =>
      match g.block? b with
      | none => .error .broken
      | some block =>
        if before ∈ block.ops then
          let g := g.modifyBlock b fun x => { x with ops := insertBeforeIn before op x.ops }
          .ok (g.modifyOp op fun x => { x with block := some b })
        else .error (.notInBlock before b)

/-- Take an operation out of a block. Nothing happens if it lies elsewhere. -/
def detach (g : Graph) (b : BlockId) (op : OpId) : Except Fault Graph :=
  match g.block? b, g.op? op with
  | some _, some _ =>
    .ok ((g.modifyBlock b fun x => { x with ops := x.ops.filter fun o => o != op }).modifyOp op
      fun x => if x.block = some b then { x with block := none } else x)
  | _, _ => .error .broken

/-! ## Removal and substitution -/

/-- Remove an operation that lies in no block and whose results nobody reads:
it stops being a reader of its operands. -/
def removeOp (g : Graph) (op : OpId) : Except Fault Graph :=
  match g.op? op with
  | none => .error .broken
  | some o =>
    match o.block with
    | some b => .error (.stillPlaced op b)
    | none =>
      match o.results.find? fun v => !(g.uses v).isEmpty with
      | some v => .error (.stillUsed v (g.uses v).length)
      | none => .ok (g.dropUses op o.operands)

/-- Let `new` stand in one operand slot that held `old`. -/
def redirectUse (g : Graph) (old new : ValueId) (u : Use) : Except Fault Graph :=
  if (g.operands u.user)[u.slot]? = some old then
    .ok ((g.modifyOp u.user fun x => { x with operands := x.operands.set u.slot new }).addUse new u)
  else .error .broken

/-- Let every reader of `old` read `new` instead. The readings of `old` join
the chain of `new`, after those it had and in their order. -/
def replaceUses (g : Graph) (old new : ValueId) : Except Fault Graph :=
  if old = new then .ok g
  else
    (g.uses old).foldlM (fun g u => g.redirectUse old new u)
      (g.modifyChain old fun _ => [])

/-- Let every reader of a value in the first list read its partner in the
second. -/
def replaceAll (g : Graph) (olds news : List ValueId) : Except Fault Graph :=
  (olds.zip news).foldlM (fun g (old, new) => g.replaceUses old new) g

end Graph

end SimdLowering
