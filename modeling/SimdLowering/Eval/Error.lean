/-
What can go wrong in an evaluation.

Four things are the function's or the caller's fault and have a message: an
operation that has no meaning here, a wrong number of arguments, a value that
is read before it is computed, and an operation that is not built as its kind
demands. Besides these an evaluation can hit something broken, such as a
select whose branches differ in length, and then it says nothing.
-/
import SimdLowering.OpKind
import SimdLowering.Handle

set_option autoImplicit false

namespace SimdLowering

/-- Why an operation has no meaning here. -/
inductive Limitation where
  | laneShuffles
  | unknownPredicate
  | maskedRead
  | notAValue
  deriving DecidableEq, Repr, Inhabited

namespace Limitation

/-- The reason in words. -/
def text : Limitation → String
  | laneShuffles => "non-default lane shuffles"
  | unknownPredicate => "unknown predicate"
  | maskedRead => "masked reads"
  | notAValue => "not a value operation"

end Limitation

/-- How an operation fails to be built as its kind demands. -/
inductive Defect where
  | notAFunction
  | noOperand (slot : Nat)
  | emptyOperand (slot : Nat)
  | noResult
  | noLanes
  | narrowOperands
  | narrowForAccumulator
  | constantWithoutValue
  | missingPredicate
  | missingCombiningKind
  | emptyVector
  | emptyScalar
  | laneOutOfRange (lane : Nat)
  | sliceOutOfRange
  | shiftPastEnd
  | malformedAccess
  | sourceNotBuffer
  deriving DecidableEq, Repr, Inhabited

namespace Defect

/-- The defect of an operation in words. -/
def message (op : OpId) : Defect → String
  | notAFunction => s!"{op} is not a function"
  | noOperand slot => s!"{op} has no operand #{slot}"
  | emptyOperand slot => s!"operand #{slot} of {op} is empty"
  | noResult => s!"{op} has no result"
  | noLanes => s!"{op} produced no lanes"
  | narrowOperands => s!"{op}: operands narrower than result"
  | narrowForAccumulator => s!"{op}: operands narrower than accumulator"
  | constantWithoutValue => s!"{op}: constant without value"
  | missingPredicate => s!"{op}: missing predicate"
  | missingCombiningKind => s!"{op}: missing combining kind"
  | emptyVector => s!"{op}: empty vector"
  | emptyScalar => s!"{op}: empty scalar"
  | laneOutOfRange lane => s!"{op}: lane {lane} out of range"
  | sliceOutOfRange => s!"{op}: slice out of range"
  | shiftPastEnd => s!"{op}: shift past the end"
  | malformedAccess => s!"{op}: malformed memory access"
  | sourceNotBuffer => s!"{op}: source is not a buffer"

end Defect

/-- Why an evaluation gave no values. -/
inductive EvalError where
  | unsupported (kind : OpKind) (why : Limitation)
  | argumentCount (expected actual : Nat)
  | unbound (value : ValueId)
  | malformed (op : OpId) (defect : Defect)
  | broken
  deriving DecidableEq, Repr, Inhabited

namespace EvalError

/-- What the error says, if it says anything. -/
def message? : EvalError → Option String
  | unsupported kind why => some s!"{kind} is not supported by the interpreter: {why.text}"
  | argumentCount expected actual => some s!"expected {expected} arguments, got {actual}"
  | unbound value => some s!"value {value} was used before it was computed"
  | malformed op defect => some (defect.message op)
  | broken => none

end EvalError

end SimdLowering
