import SimdLowering.Eval.Function
import SimdLowering.Function
import SimdLowering.Graph.Print
import SimdLowering.Pipeline
import SimdLowering.Proofs.Lowering.Safety
import SimdLowering.Rewrite.Action
import SimdLowering.TypeTable
import SimdLowering.Proofs.Eval.Lanes
import SimdLowering.Proofs.Eval.Naming
import SimdLowering.Proofs.Eval.Traces
import SimdLowering.Proofs.Rewrite.Simulation
import SimdLowering.Proofs.Eval.Lockstep
import SimdLowering.Proofs.Graph.DeadCode
import SimdLowering.Proofs.Rewrite.Soundness
import SimdLowering.Proofs.Eval.Instructions
import SimdLowering.Proofs.Eval.Masks
import SimdLowering.Proofs.Rewrite.Evaluation
import SimdLowering.Proofs.Integral.Vocabulary
import SimdLowering.Proofs.Integral.Stage
import SimdLowering.Proofs.Integral.Sums
import SimdLowering.Proofs.Integral.Extrema
import SimdLowering.Proofs.Eval.Folds
import SimdLowering.Proofs.Integral.Reads
import SimdLowering.Proofs.Integral.Reductions
import SimdLowering.Proofs.Integral.Tables
import SimdLowering.Proofs.Integral.Preservation
import SimdLowering.Proofs.Integral.Refinement
import SimdLowering.Proofs.Lowering.Interfaces
import SimdLowering.Proofs.Lowering.LaneSums
import SimdLowering.Proofs.Lowering.Refusal
import SimdLowering.Proofs.Rewrite.Uses
import SimdLowering.Proofs.Fixpoint.Bound
import SimdLowering.Proofs.Fusion.Lowering
import SimdLowering.Proofs.Graph.Sweeps
import SimdLowering.Proofs.Graph.Survivors
import SimdLowering.Proofs.Rewrite.InPlace
import SimdLowering.Proofs.Target.Records
import SimdLowering.Proofs.Settled.FinalForm
import SimdLowering.Proofs.Settled.Loads
import SimdLowering.Proofs.Settled.Leftovers
import SimdLowering.Proofs.Settled.Bystanders
import SimdLowering.Proofs.Settled.Budgets
import SimdLowering.Proofs.Settled.Freshness
import SimdLowering.Proofs.Settled.Long
import SimdLowering.Proofs.Settled.Lowering
import SimdLowering.Proofs.Settled.Pipeline
import SimdLowering.Proofs.Products.Arrival
import SimdLowering.Proofs.Products.Plans
import SimdLowering.Proofs.Products.Lowering
import SimdLowering.Proofs.Doubling.Arithmetic
import SimdLowering.Proofs.Doubling.Decisions
import SimdLowering.Proofs.Doubling.Lowering
import SimdLowering.Proofs.Doubling.Folding
import SimdLowering.Proofs.Fusion.Anywhere
import SimdLowering.Proofs.Fusion.Issues
import SimdLowering.Proofs.Fusion.Returned
import SimdLowering.Proofs.Lanes.Reductions
import SimdLowering.Proofs.Lanes.Masks
import SimdLowering.Proofs.Graph.Scopes
import SimdLowering.Proofs.Graph.Readers
import SimdLowering.Proofs.Eval.Unbound
import SimdLowering.Proofs.Types.Numbering
import SimdLowering.Proofs.Graph.Printing
import SimdLowering.Proofs.Lanes.Trees
import SimdLowering.Proofs.Number.Wrapping
import SimdLowering.Proofs.Lanes.Conversions
import SimdLowering.Proofs.Lanes.Reads
import SimdLowering.Proofs.Lanes.Sums
import SimdLowering.Proofs.Rewrite.Walks
