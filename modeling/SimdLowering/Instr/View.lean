/-
Reading instructions back.

What an operation means is partly in its attributes and partly in the order of
its operands. These functions read that back from any operation, whatever its
kind, and give nothing where it does not have the part asked for.
-/
import SimdLowering.Graph.Basic

set_option autoImplicit false

namespace SimdLowering

/-- The operands of a read from memory, sorted out. The trailing operand is
the mask of a strided read or the carried vector of a load. -/
structure MemAccess (α : Type) where
  source : α
  indices : List α
  trailing : Option α
  deriving DecidableEq, Repr, Inhabited

namespace MemAccess

/-- Split the operands of a read: the source, as many indices as the source
has dimensions, and the first operand after them. Asking for the number of
dimensions may fail. -/
def split? {α ε : Type} (rank : α → Except ε Nat) : List α → Except ε (Option (MemAccess α))
  | [] => .ok none
  | source :: rest => do
    let n ← rank source
    return if rest.length < n then none else some ⟨source, rest.take n, (rest.drop n).head?⟩

end MemAccess

namespace Graph

/-- The operands of a read from memory. -/
def memAccess? (g : Graph) (op : OpId) : Except Fault (Option (MemAccess ValueId)) :=
  MemAccess.split? (fun v => Ty.memoryRank <$> g.valueTy v) (g.operands op)

/-- The lane an extract reads. -/
def extractPosition? (g : Graph) (op : OpId) : Option Int := (g.attrs op).int? AttrName.position

/-- The bit offset of a load; zero where none is given. -/
def updOffset (g : Graph) (op : OpId) : Int := (g.attrs op).intOrZero AttrName.offset

/-- The part number of a load; zero where none is given. -/
def updIndex (g : Graph) (op : OpId) : Int := (g.attrs op).intOrZero AttrName.index

/-- The value of the integer constant that defines a value. -/
def constantInt? (g : Graph) (v : ValueId) : Except Fault (Option Int) := do
  return (← g.definedBy? v .constant).bind fun op => (g.attrs op).int? AttrName.value

/-- The name of a function. -/
def funcName? (g : Graph) (op : OpId) : Option String := (g.attrs op).str? AttrName.symName

/-- The first block of a function's body. -/
def entryBlock? (g : Graph) (op : OpId) : Option BlockId :=
  if g.kind op = .func then (g.regionsOf op).head?.bind fun r => (g.blocksIn r).head? else none

/-- What a function returns: the operands of the return that ends its entry
block. -/
def returnedValues (g : Graph) (op : OpId) : List ValueId :=
  match (g.entryBlock? op).bind fun b => (g.opsIn b).getLast? with
  | some last => if g.kind last = .ret then g.operands last else []
  | none => []

end Graph

end SimdLowering
