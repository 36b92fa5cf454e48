/-
Lowering a function to the target.

The rules of the generation are applied to the body of the function until
nothing changes. If a rule refused an operation, the first refusal is the
answer. Otherwise the body is checked for operations that may not stay; these
are an error or, if the options allow it, part of the report. A function that
was lowered must validate.

The graph is rewritten in place, and a lowering that fails does not undo what
it has done; so a new graph comes with either answer.
-/
import SimdLowering.Graph.Validate
import SimdLowering.Rewrite.Apply
import SimdLowering.Target.FinalForm
import SimdLowering.Target.RuleTable

set_option autoImplicit false

namespace SimdLowering

/-- What a lowering did. -/
structure LowerReport where
  target : Generation
  iterations : Nat
  rewrites : Nat
  /-- Operations that may not stay and did. -/
  remaining : List IllegalOp
  deriving DecidableEq, Repr, Inhabited

/-- The name under which a lowering is reported when it leaves an invalid
function. -/
def loweringName : String := "lower-vector-to-target"

namespace Graph

/-- Lower a function. -/
def lower (g : Graph) (func : OpId) (o : LowerOptions) :
    Except Fault (Graph × Except LowerError LowerReport) := do
  if (g.op? func).isNone then throw .broken
  if g.kind func ≠ .func then return (g, .error (.notAFunction (g.kind func)))
  let target := o.target.conversionTarget
  let (g, sizes, result) ← o.ruleSet.apply g func target o.maxIterations .empty
  match result.rejected with
  | first :: _ => return (g, .error (.unsupported first.op first.kind first.reason))
  | [] =>
    let (illegal, _) ← target.verify g func sizes
    if !illegal.isEmpty && o.failOnIllegal then return (g, .error (.illegalOperations illegal))
    else
      g.requireValid func loweringName
      return (g, .ok ⟨o.target, result.iterations, result.changes, illegal⟩)

end Graph

end SimdLowering
