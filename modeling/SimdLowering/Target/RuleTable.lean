/-
The rules of each generation, in the order of their priority.
-/
import SimdLowering.Rules.Extremum
import SimdLowering.Rules.Load
import SimdLowering.Rules.Multiply
import SimdLowering.Rules.MultiplyAdd
import SimdLowering.Rules.Reduction
import SimdLowering.Rules.Splat
import SimdLowering.Target.Options

set_option autoImplicit false

namespace SimdLowering

namespace Rules

/-- The rules of the first generation. -/
def aieRules : List Rule :=
  [transferReadToUpd, splitUpd Generation.aie.nativeBits, mulAddToFma, foldBroadcastToFma,
    shuffledAddSub .addi, shuffledAddSub .addf, shuffledAddSub .subi, shuffledAddSub .subf]

/-- The rules of the second generation, for a given shift. -/
def aiemlRules (shift : Int) : List Rule :=
  [transferReadToUpd, splitUpd Generation.aieml.nativeBits, mulAddToFmaElem shift,
    addSubToElem .addi, addSubToElem .subi, addSubToElem .addf, addSubToElem .subf,
    minMaxToElem .minsi, minMaxToElem .maxsi, minMaxToElem .minf, minMaxToElem .maxf,
    cmpToMask .cmpi, cmpToMask .cmpf, selectToSel, minReduction, maxReduction, intAddReduction,
    f32AddReduction, bf16AddReduction, extractBroadcastToLane, mulIToMulElem shift,
    mulFToMulElem shift]

end Rules

namespace LowerOptions

/-- The rules that the options ask for. -/
def ruleSet (o : LowerOptions) : RuleSet :=
  match o.target with
  | .aie => .ofList Rules.aieRules
  | .aieml => .ofList (Rules.aiemlRules o.shift)

end LowerOptions

end SimdLowering
