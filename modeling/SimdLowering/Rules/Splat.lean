/-
The rule for splats of an extracted lane: the target copies a lane in one
instruction.
-/
import SimdLowering.Instr.Target
import SimdLowering.Rewrite.Recipe

set_option autoImplicit false

namespace SimdLowering

namespace Rules

/-- A splat of an extracted lane becomes a lane splat. -/
def extractBroadcastToLane : Rule :=
  .ofDecision "ExtractBroadcastToLane" [.broadcast] fun g op => do
    match ← g.definedBy? (← g.operandAt op 0) .extract with
    | none => return .decline
    | some extract =>
      match g.extractPosition? extract with
      | none => return .decline
      | some position =>
        let v ← g.operandAt extract 0
        let ty ← g.firstResultType op
        return .follow (pure (Instr.broadcastLane ty (.value v) position))

end Rules

end SimdLowering
