/-
What several rules look for around an operation.
-/
import SimdLowering.Rewrite.Recipe

set_option autoImplicit false

namespace SimdLowering

/-- The parts of a product plus something. -/
structure MacOperands where
  lhs : ValueId
  rhs : ValueId
  acc : ValueId
  deriving DecidableEq, Repr, Inhabited

namespace Graph

/-- If exactly one of two values is an integer product, its factors and the
other value. -/
def macOperands? (g : Graph) (lhs rhs : ValueId) : Except Fault (Option MacOperands) := do
  match ← g.definedBy? lhs .muli, ← g.definedBy? rhs .muli with
  | some mul, none => return some ⟨← g.operandAt mul 0, ← g.operandAt mul 1, rhs⟩
  | none, some mul => return some ⟨← g.operandAt mul 0, ← g.operandAt mul 1, lhs⟩
  | _, _ => return none

/-- What an extension of the given kind extends, if it defines the value. -/
def extensionSource? (g : Graph) (v : ValueId) (kind : OpKind) :
    Except Fault (Option ValueId) := do
  match ← g.definedBy? v kind with
  | none => return none
  | some ext => return some (← g.operandAt ext 0)

/-- The two operands of a binary operation, which must be there. -/
def binaryOperands (g : Graph) (op : OpId) : Except Fault (ValueId × ValueId) := do
  return (← g.operandAt op 0, ← g.operandAt op 1)

end Graph

end SimdLowering
