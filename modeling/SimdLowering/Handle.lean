/-
Names of the things a graph holds.

Operations, values, blocks and regions each live in an arena of their own and
are named by their position in it, counted from zero in order of creation. A
position is never given away twice, so a name stays good for the life of the
graph even when the thing it names has been taken out of its block.

Each sort of name is a type of its own: an operation cannot be looked up by a
value's name, and the four counters cannot be mixed up. What a name looks like
in a message is fixed here, once.
-/

set_option autoImplicit false

namespace SimdLowering

/-- The name of an operation. -/
structure OpId where
  index : Nat
  deriving DecidableEq, Repr, Inhabited

/-- The name of a value: the result of an operation, or the argument of a
block. -/
structure ValueId where
  index : Nat
  deriving DecidableEq, Repr, Inhabited

/-- The name of a block. -/
structure BlockId where
  index : Nat
  deriving DecidableEq, Repr, Inhabited

/-- The name of a region. -/
structure RegionId where
  index : Nat
  deriving DecidableEq, Repr, Inhabited

namespace OpId

/-- The name as messages write it. -/
def render (op : OpId) : String := "op" ++ toString op.index

instance : ToString OpId := ⟨render⟩

end OpId

namespace ValueId

/-- The name as messages write it. -/
def render (v : ValueId) : String := "v" ++ toString v.index

instance : ToString ValueId := ⟨render⟩

end ValueId

namespace BlockId

/-- The name as messages write it. -/
def render (b : BlockId) : String := "block" ++ toString b.index

instance : ToString BlockId := ⟨render⟩

end BlockId

namespace RegionId

/-- The name as messages write it. -/
def render (r : RegionId) : String := "region" ++ toString r.index

instance : ToString RegionId := ⟨render⟩

end RegionId

/-- Where a value comes from: the result of an operation or the argument of a
block, each with its position. -/
inductive Origin where
  | result (op : OpId) (index : Nat)
  | argument (block : BlockId) (index : Nat)
  deriving DecidableEq, Repr, Inhabited

namespace Origin

/-- Owner and position, with a number sign between them. -/
def render : Origin → String
  | result op index => op.render ++ "#" ++ toString index
  | argument block index => block.render ++ "#" ++ toString index

instance : ToString Origin := ⟨render⟩

/-- The operation a result comes from; an argument comes from none. -/
def op? : Origin → Option OpId
  | result op _ => some op
  | argument _ _ => none

end Origin

end SimdLowering
