/-
Creating functions.

A function is an operation that owns one region with one block, whose
arguments are the parameters.
-/
import SimdLowering.Graph.Edit
import SimdLowering.Instr.Generic

set_option autoImplicit false

namespace SimdLowering

namespace Graph

/-- Create a function with the given parameter types and an empty body. The
block comes first, then the region around it, then the operation. -/
def createFunc (g : Graph) (name : String) (params : List Ty) :
    Except Fault (Graph × OpId × BlockId) := do
  let (g, entry) := g.createBlock params
  let (g, body) ← g.createRegion [entry]
  let (g, op) ← g.createOp (Instr.func name body)
  return (g, op, entry)

end Graph

end SimdLowering
