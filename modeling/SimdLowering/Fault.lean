/-
Faults: requests that a graph cannot carry out.

A fault is not an answer of the program but a broken promise of its caller. It
ends whatever was going on, and the graph it happened in is not used again.
The edits that place operations, blocks and regions say what they were asked
for and why it cannot be. A number that is too large for its machine word is an
`overflow`. All else that may break (a name that names nothing, an operand that
is not there, a division by zero lanes) is `broken`; neither of the two has
words of its own.
-/
import SimdLowering.Handle

set_option autoImplicit false

namespace SimdLowering

/-- Why a request on a graph could not be carried out. -/
inductive Fault where
  /-- A region given to a new operation already has an owner. -/
  | regionTaken (region : RegionId) (owner op : OpId)
  /-- A block given to a new region already lies in one. -/
  | blockTaken (block : BlockId) (owner region : RegionId)
  /-- An operation to append already lies in a block. -/
  | appendPlaced (op : OpId) (block : BlockId)
  /-- An operation to insert already lies in a block. -/
  | insertPlaced (op : OpId) (block : BlockId)
  /-- The operation to insert before does not lie in the block. -/
  | notInBlock (before : OpId) (block : BlockId)
  /-- An operation to remove still lies in a block. -/
  | stillPlaced (op : OpId) (block : BlockId)
  /-- A result of an operation to remove is still read. -/
  | stillUsed (value : ValueId) (uses : Nat)
  /-- A pass left a function that does not validate. -/
  | invalidAfter (pass report : String)
  /-- A number does not fit into the machine word it is computed in. -/
  | overflow
  /-- Anything else that should be there and is not. -/
  | broken
  deriving DecidableEq, Repr, Inhabited

namespace Fault

/-- What the fault says, if it says anything. -/
def message? : Fault → Option String
  | regionTaken region owner op =>
    some (s!"create_op: region {region} already belongs to operation {owner}; " ++
      s!"cannot reassign to {op}")
  | blockTaken block owner region =>
    some (s!"create_region: block {block} already belongs to region {owner}; " ++
      s!"cannot reassign to {region}")
  | appendPlaced op block => some s!"push_op: operation {op} already belongs to {block}"
  | insertPlaced op block => some s!"insert_op_before: operation {op} already belongs to {block}"
  | notInBlock before block => some s!"insert_op_before: {before} not found in {block}"
  | stillPlaced op block =>
    some (s!"remove_op: operation {op} is still attached to {block}; " ++
      "call remove_op_from_block first")
  | stillUsed value uses =>
    some (s!"remove_op: result value {value} still has {uses} use(s); " ++
      "replace all uses before removing the operation")
  | invalidAfter pass report => some ("IR invalid after " ++ pass ++ ":\n" ++ report)
  | overflow => none
  | broken => none

end Fault

end SimdLowering
