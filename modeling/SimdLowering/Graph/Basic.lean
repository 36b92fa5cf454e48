/-
The operation graph and how to read it.

A graph is four arenas: operations, values, blocks and regions. Regions list
blocks, blocks list operations, operations own regions; that is the nesting.
Across it, operations read values, and the graph keeps for each value the
chain of its readers, oldest first, one entry for each operand slot.

Chains are kept beside the values and not in them. An operation may be created
with an operand that is still to be defined, so a chain can begin before its
value exists; the value finds those readers in place when it comes.

Arenas only grow. Taking an operation out of its block leaves it in the arena
with no block, so every name ever handed out can still be looked up, and the
results of an operation, the arguments of a block and whatever else a record
names besides operands are there for good. An operand alone may name a value
that is still to come. To ask for the type or the origin of such a value is a
fault, so whoever looks through an operand can fail.
-/
import SimdLowering.Draft
import SimdLowering.Fault

set_option autoImplicit false

namespace SimdLowering

/-- One reading of a value: the reader and the operand slot. -/
structure Use where
  user : OpId
  slot : Nat
  deriving DecidableEq, Repr, Inhabited

/-- An operation in the arena. Its result types are the types of its
results. -/
structure Operation where
  kind : OpKind
  operands : List ValueId
  results : List ValueId
  attrs : AttrDict
  regions : List RegionId
  block : Option BlockId
  deriving Repr, Inhabited

/-- A value in the arena. -/
structure Value where
  origin : Origin
  ty : Ty
  deriving Repr, Inhabited

/-- A block in the arena. -/
structure Block where
  args : List ValueId
  ops : List OpId
  region : Option RegionId
  deriving Repr, Inhabited

/-- A region in the arena. -/
structure Region where
  blocks : List BlockId
  owner : Option OpId
  deriving Repr, Inhabited

/-- The operation graph: the four arenas, and the chains of readers by value.
A value beyond the end of the chains has no reader yet, and a chain beyond the
end of the values belongs to a value that is still to come. -/
structure Graph where
  ops : Array Operation
  values : Array Value
  blocks : Array Block
  regions : Array Region
  chains : Array (List Use)
  deriving Repr, Inhabited

namespace Graph

/-- The graph with nothing in it. -/
def empty : Graph := ⟨#[], #[], #[], #[], #[]⟩

/-! ## Records -/

/-- The operation of the given name, if there is one. -/
def op? (g : Graph) (op : OpId) : Option Operation := g.ops[op.index]?

/-- The value of the given name, if there is one. -/
def value? (g : Graph) (v : ValueId) : Option Value := g.values[v.index]?

/-- The block of the given name, if there is one. -/
def block? (g : Graph) (b : BlockId) : Option Block := g.blocks[b.index]?

/-- The region of the given name, if there is one. -/
def region? (g : Graph) (r : RegionId) : Option Region := g.regions[r.index]?

/-- The operation of the given name. -/
def op (g : Graph) (op : OpId) : Operation := (g.op? op).getD default

/-- The value of the given name. -/
def value (g : Graph) (v : ValueId) : Value := (g.value? v).getD default

/-- The block of the given name. -/
def block (g : Graph) (b : BlockId) : Block := (g.block? b).getD default

/-- The region of the given name. -/
def region (g : Graph) (r : RegionId) : Region := (g.region? r).getD default

/-! ## Operations -/

/-- What an operation computes. -/
def kind (g : Graph) (op : OpId) : OpKind := (g.op op).kind

/-- The values an operation reads, by slot. -/
def operands (g : Graph) (op : OpId) : List ValueId := (g.op op).operands

/-- The values an operation defines, by position. -/
def results (g : Graph) (op : OpId) : List ValueId := (g.op op).results

/-- The types of the given values, which are there. -/
def typesOf (g : Graph) (values : List ValueId) : List Ty := values.map fun v => (g.value v).ty

/-- The types of the values an operation defines. -/
def resultTypes (g : Graph) (op : OpId) : List Ty := g.typesOf (g.results op)

/-- The attributes of an operation. -/
def attrs (g : Graph) (op : OpId) : AttrDict := (g.op op).attrs

/-- The operand in the given slot; an operation without such a slot is
broken. -/
def operandAt (g : Graph) (op : OpId) (slot : Nat) : Except Fault ValueId :=
  match (g.operands op)[slot]? with
  | some v => .ok v
  | none => .error .broken

/-- The type of the first result; an operation without results is broken. -/
def firstResultType (g : Graph) (op : OpId) : Except Fault Ty :=
  match (g.resultTypes op).head? with
  | some ty => .ok ty
  | none => .error .broken

/-! ## Values -/

/-- The record of a value that may still be to come. -/
def lookup (g : Graph) (v : ValueId) : Except Fault Value :=
  match g.value? v with
  | some x => .ok x
  | none => .error .broken

/-- The type of a value. -/
def valueTy (g : Graph) (v : ValueId) : Except Fault Ty := Value.ty <$> g.lookup v

/-- A value together with its type. -/
def operand (g : Graph) (v : ValueId) : Except Fault (Operand ValueId) := do
  return ⟨v, ← g.valueTy v⟩

/-- The readings of a value, oldest first. -/
def uses (g : Graph) (v : ValueId) : List Use := g.chains[v.index]?.getD []

/-- The operations that read a value, each once, in the order of their first
reading. -/
def users (g : Graph) (v : ValueId) : List OpId := ((g.uses v).map Use.user).eraseDups

/-- The operation a value is a result of. -/
def definingOp? (g : Graph) (v : ValueId) : Except Fault (Option OpId) := do
  return (← g.lookup v).origin.op?

/-- The operation a value is a result of, if it has the given kind. -/
def definedBy? (g : Graph) (v : ValueId) (kind : OpKind) : Except Fault (Option OpId) := do
  return (← g.definingOp? v).filter fun op => g.kind op == kind

/-- The lane layout of a value's type. -/
def valueShape? (g : Graph) (v : ValueId) : Except Fault (Option VectorShape) := do
  return (← g.valueTy v).vectorShape

/-- The lane layout of the first result. -/
def resultShape? (g : Graph) (op : OpId) : Option VectorShape :=
  (g.resultTypes op).head?.bind Ty.vectorShape

/-- The lane layout of the operand in the given slot, if there is one. -/
def operandShape? (g : Graph) (op : OpId) (slot : Nat) : Except Fault (Option VectorShape) :=
  match (g.operands op)[slot]? with
  | some v => g.valueShape? v
  | none => .ok none

/-- Whether the first result is read exactly once, by an operation of the given
kind. -/
def hasSingleUseBy (g : Graph) (op : OpId) (kind : OpKind) : Bool :=
  match (g.results op).head? with
  | none => false
  | some result =>
    match g.uses result with
    | [only] => g.kind only.user == kind
    | _ => false

/-! ## Nesting -/

/-- The block an operation lies in. -/
def blockOf? (g : Graph) (op : OpId) : Option BlockId := (g.op op).block

/-- The regions an operation owns. -/
def regionsOf (g : Graph) (op : OpId) : List RegionId := (g.op op).regions

/-- The blocks of a region, in order. -/
def blocksIn (g : Graph) (r : RegionId) : List BlockId := (g.region r).blocks

/-- The operations of a block, in order. -/
def opsIn (g : Graph) (b : BlockId) : List OpId := (g.block b).ops

/-- The arguments of a block. -/
def argsOf (g : Graph) (b : BlockId) : List ValueId := (g.block b).args

/-- The operations directly inside a region. -/
def opsOfRegion (g : Graph) (r : RegionId) : List OpId := (g.blocksIn r).flatMap g.opsIn

/-- The operations directly inside the regions of an operation. -/
def innerOps (g : Graph) (op : OpId) : List OpId := (g.regionsOf op).flatMap g.opsOfRegion

/-- A number that the depth of any finite nesting stays below: on the way down
each region is entered at most once. -/
def depthBound (g : Graph) : Nat := g.regions.size + 1

end Graph

end SimdLowering
