/-
Lowering followed by clean-up.

A pipeline lowers a function and then, if that went well, runs clean-ups over
it, one after the other. After each of them the function must validate.
-/
import SimdLowering.Graph.DeadCode
import SimdLowering.Lowering

set_option autoImplicit false

namespace SimdLowering

/-- A pass over a lowered function that reports how much it changed. -/
structure Cleanup where
  name : String
  run : Graph → OpId → Except Fault (Graph × Nat)

namespace Cleanup

/-- Drop dead operations. -/
def deadCode : Cleanup :=
  ⟨"dce", fun g func => do
    let (g, result) ← g.eliminateDead func .standard
    return (g, result.removed)⟩

/-- Change nothing and report the given count. -/
def constant (name : String) (count : Nat) : Cleanup := ⟨name, fun g _ => .ok (g, count)⟩

end Cleanup

/-- What a pipeline did. -/
structure PipelineReport where
  lowering : LowerReport
  /-- Name and number of changes of each clean-up, in order. -/
  cleanups : List (String × Nat)
  deriving DecidableEq, Repr, Inhabited

/-- A lowering and the clean-ups after it. -/
structure Pipeline where
  options : LowerOptions
  cleanups : List Cleanup

namespace Pipeline

/-- Only lower. -/
def ofOptions (o : LowerOptions) : Pipeline := ⟨o, []⟩

/-- Lower, then drop dead operations. -/
def withDefaultCleanups (o : LowerOptions) : Pipeline := ⟨o, [.deadCode]⟩

/-- The default pipeline for the generation of the given name. -/
def ofSelector (selector : String) : Except LowerError Pipeline :=
  withDefaultCleanups <$> LowerOptions.ofSelector selector

/-- The pipeline with one more clean-up at its end. -/
def cleanup (p : Pipeline) (c : Cleanup) : Pipeline := { p with cleanups := p.cleanups ++ [c] }

/-- Run clean-ups in order. -/
def runCleanups (func : OpId) : List Cleanup → Graph → Except Fault (Graph × List (String × Nat))
  | [], g => .ok (g, [])
  | c :: cs, g => do
    let (g, changes) ← c.run g func
    g.requireValid func c.name
    let (g, rest) ← runCleanups func cs g
    return (g, (c.name, changes) :: rest)

/-- Run a pipeline on a function. -/
def run (p : Pipeline) (g : Graph) (func : OpId) :
    Except Fault (Graph × Except LowerError PipelineReport) := do
  let (g, lowered) ← g.lower func p.options
  match lowered with
  | .error e => return (g, .error e)
  | .ok lowering =>
    let (g, cleanups) ← runCleanups func p.cleanups g
    return (g, .ok ⟨lowering, cleanups⟩)

end Pipeline

end SimdLowering
