/-
Options of a lowering, and the ways it can fail.
-/
import SimdLowering.Rewrite.Legality
import SimdLowering.Target.Generation

set_option autoImplicit false

namespace SimdLowering

/-- Why a function was not lowered. -/
inductive LowerError where
  /-- There is no generation of this name. -/
  | unknownTarget (selector : String)
  /-- A rule refused an operation. -/
  | unsupported (op : OpId) (kind : OpKind) (reason : String)
  /-- Operations were left that may not stay. -/
  | illegalOperations (ops : List IllegalOp)
  /-- The operation to lower is no function. -/
  | notAFunction (kind : OpKind)
  deriving DecidableEq, Repr, Inhabited

namespace LowerError

/-- What the error says. -/
def message : LowerError → String
  | unknownTarget selector => "unknown target '" ++ selector ++ "'"
  | unsupported op kind reason => kind.text ++ " (" ++ op.render ++ "): " ++ reason
  | illegalOperations ops =>
    toString ops.length ++ " operation(s) left illegal: " ++
      ", ".intercalate (ops.map IllegalOp.text)
  | notAFunction kind => "expected func.func, got " ++ kind.text

end LowerError

/-- Options of a lowering. -/
structure LowerOptions where
  target : Generation
  /-- The fixed-point shift into and out of the accumulator. -/
  shift : Int
  /-- The most rounds of rewriting. -/
  maxIterations : Nat
  /-- Whether operations that may not stay are an error. -/
  failOnIllegal : Bool
  deriving DecidableEq, Repr, Inhabited

namespace LowerOptions

/-- First generation, no shift, ten rounds, and nothing illegal may stay. -/
def standard : LowerOptions := ⟨.aie, 0, 10, true⟩

/-- The standard options for the generation of the given name. -/
def ofSelector (selector : String) : Except LowerError LowerOptions :=
  match Generation.ofSelector? selector with
  | some target => .ok { standard with target := target }
  | none => .error (.unknownTarget selector)

end LowerOptions

end SimdLowering
