/-
Removal of operations that nobody needs.

An operation is dead when it does nothing but compute its results, owns no
region, and none of its results is read. A sweep goes through each block from
the end, so that a reader is gone before what it read is looked at, and a
whole chain of dead operations falls in one sweep. Regions nested in a block
are swept before the block itself, for the same reason. Sweeps are repeated
until one finds nothing, or until the budget is spent.
-/
import SimdLowering.Graph.Edit

set_option autoImplicit false

namespace SimdLowering

/-- How to sweep. -/
structure SweepConfig where
  /-- The most sweeps to make; zero stands for the default. -/
  budget : Nat
  /-- Whether to sweep nested regions too. -/
  recursive : Bool
  deriving Repr, Inhabited

namespace SweepConfig

/-- The budget where none is given. -/
def defaultBudget : Nat := 100

/-- A hundred sweeps, nested regions included. -/
def standard : SweepConfig := ⟨defaultBudget, true⟩

/-- The number of sweeps the configuration allows. -/
def sweeps (c : SweepConfig) : Nat := if c.budget = 0 then defaultBudget else c.budget

/-- At least one sweep is always made. -/
theorem sweeps_pos (c : SweepConfig) : 0 < c.sweeps := by
  unfold sweeps defaultBudget
  split <;> omega

end SweepConfig

/-- What the sweeps did. -/
structure SweepResult where
  removed : Nat
  iterations : Nat
  fixpoint : Bool
  deriving DecidableEq, Repr, Inhabited

namespace Graph

/-- Whether an operation can be dropped. -/
def isDead (g : Graph) (op : OpId) : Bool :=
  (g.kind op).isPure && (g.regionsOf op).isEmpty && (g.results op).all fun v => (g.uses v).isEmpty

/-- Drop an operation of a block if it is dead; the count goes up by one for
each operation dropped. -/
def sweepOp (b : BlockId) (s : Graph × Nat) (op : OpId) : Except Fault (Graph × Nat) :=
  if s.1.isDead op then do
    let g ← s.1.detach b op
    let g ← g.removeOp op
    return (g, s.2 + 1)
  else .ok s

/-- Sweep the operations of one block from the end. -/
def sweepOps (b : BlockId) (s : Graph × Nat) : Except Fault (Graph × Nat) :=
  (s.1.opsIn b).reverse.foldlM (sweepOp b) s

/-- Sweep a region, at most `depth` levels down. -/
def sweepRegion (recursive : Bool) : Nat → Graph × Nat → RegionId → Except Fault (Graph × Nat)
  | 0, s, _ => .ok s
  | depth + 1, s, r =>
    (s.1.blocksIn r).foldlM (fun s b => do
      let s ←
        if recursive then
          (s.1.opsIn b).foldlM
            (fun s op => (s.1.regionsOf op).foldlM (sweepRegion recursive depth) s) s
        else .ok s
      sweepOps b s) s

/-- Sweep everything under a root once; gives the number of operations
dropped. -/
def sweep (g : Graph) (root : OpId) (recursive : Bool) : Except Fault (Graph × Nat) :=
  (g.regionsOf root).foldlM (sweepRegion recursive g.depthBound) (g, 0)

/-- Sweep until nothing is dropped, with `left` sweeps to go and `done` behind. -/
def sweepLoop (root : OpId) (recursive : Bool) :
    Nat → Nat → Nat → Graph → Except Fault (Graph × SweepResult)
  | 0, done, removed, g => .ok (g, ⟨removed, done, false⟩)
  | left + 1, done, removed, g => do
    let (g, n) ← g.sweep root recursive
    if n = 0 then return (g, ⟨removed, done + 1, true⟩)
    else sweepLoop root recursive left (done + 1) (removed + n) g

/-- Drop dead operations under a root. -/
def eliminateDead (g : Graph) (root : OpId) (config : SweepConfig) :
    Except Fault (Graph × SweepResult) :=
  sweepLoop root config.recursive config.sweeps 0 0 g

end Graph

end SimdLowering
