/-
Applying a rule set until nothing changes.

A round visits the operations nested in a root block by block, in order, and
what an operation holds before the operation itself. The members of a block
are listed when the block is entered, so operations that a rewrite puts in
place are first visited in the next round, and a listed operation that has
left the block by the time its turn comes is passed over.

An operation that the target calls legal is left alone. Otherwise the rules
for its kind are tried in order until one matches with something to do, or
refuses. Rounds are repeated until one changes nothing or the budget is spent.

When operations take the place of another, the sizes remembered for it and for
the producers of what the new operations read are forgotten.
-/
import SimdLowering.Rewrite.Legality
import SimdLowering.Rewrite.Rule

set_option autoImplicit false

namespace SimdLowering

namespace Graph

/-- Put operations right before another one of a block, in order. An operation
that lies in no block gets none put before it. -/
def insertAllBefore (g : Graph) (block : Option BlockId) (op : OpId) (news : List OpId) :
    Except Fault Graph :=
  match block with
  | none => .ok g
  | some b => news.foldlM (fun g new => g.insertBefore b op new) g

/-- Take an operation out of the block it is in and remove it. -/
def retire (g : Graph) (block : Option BlockId) (op : OpId) : Except Fault Graph := do
  let g ← match block with
    | none => pure g
    | some b => g.detach b op
  g.removeOp op

/-- Let values stand for the results of an operation; there must be as many. -/
def forwardResults (g : Graph) (op : OpId) (values : List ValueId) : Except Fault Graph :=
  if (g.results op).length = values.length then g.replaceAll (g.results op) values
  else .error .broken

/-- Do at an operation what a rule wants done. -/
def splice (g : Graph) (op : OpId) (edits : Edits) : Except Fault Graph := do
  let block := g.blockOf? op
  let g ← g.insertAllBefore block op edits.inserted
  match edits.ending with
  | .keep => return g
  | .replace new =>
    let g ← g.forwardResults op (g.results new)
    let g ← g.insertAllBefore block op [new]
    g.retire block op
  | .forward values =>
    let g ← g.forwardResults op values
    g.retire block op

/-- The operations that define what the given operations read. -/
def producersOf (g : Graph) (ops : List OpId) : Except Fault (List OpId) := do
  return ((← (ops.flatMap g.operands).mapM g.definingOp?).filterMap id)

end Graph

/-- An operation that a rule refused. -/
structure Rejection where
  op : OpId
  kind : OpKind
  rule : String
  reason : String
  deriving DecidableEq, Repr, Inhabited

/-- The state of an application. -/
structure Application where
  graph : Graph
  sizes : AccessSizes
  rejected : List Rejection
  changes : Nat
  deriving Inhabited

namespace Application

/-- Whether an operation has been refused. -/
def isRejected (s : Application) (op : OpId) : Bool := s.rejected.any fun r => r.op == op

/-- Put a match in place. -/
def commit (s : Application) (op : OpId) (edits : Edits) : Except Fault Application := do
  let touched ← s.graph.producersOf edits.newOps
  let graph ← s.graph.splice op edits
  return { s with
    graph := graph
    sizes := s.sizes.invalidateAll (op :: touched)
    changes := s.changes + 1 }

/-- Try rules on an operation, in order. -/
def tryRules (op : OpId) : List Rule → Application → Except Fault Application
  | [], s => .ok s
  | rule :: rules, s => do
    let (graph, sizes, outcome) ← rule.run s.graph op s.sizes
    let s := { s with graph := graph, sizes := sizes }
    match outcome with
    | .declined => tryRules op rules s
    | .refused reason =>
      return { s with rejected := s.rejected ++ [⟨op, s.graph.kind op, rule.name, reason⟩] }
    | .matched edits => if edits.isEmpty then tryRules op rules s else s.commit op edits

/-- Visit one operation. -/
def visitOp (rules : RuleSet) (target : ConversionTarget) (s : Application) (op : OpId) :
    Except Fault Application := do
  let (verdict, sizes) ← target.legality s.graph op s.sizes
  let s := { s with sizes := sizes }
  if verdict = .legal || s.isRejected op then return s
  else tryRules op ((rules.forKind (s.graph.kind op)).map RuleEntry.rule) s

/-- Visit a region, at most `depth` levels down. -/
def visitRegion (rules : RuleSet) (target : ConversionTarget) :
    Nat → Application → RegionId → Except Fault Application
  | 0, s, _ => .ok s
  | depth + 1, s, r =>
    (s.graph.blocksIn r).foldlM (fun s b =>
      (s.graph.opsIn b).foldlM (fun s op =>
        if s.graph.blockOf? op ≠ some b then .ok s
        else do
          let s ← (s.graph.regionsOf op).foldlM (visitRegion rules target depth) s
          if s.graph.blockOf? op ≠ some b then return s
          else s.visitOp rules target op) s) s

/-- One round over everything nested in a root. -/
def round (rules : RuleSet) (target : ConversionTarget) (root : OpId) (s : Application) :
    Except Fault Application :=
  (s.graph.regionsOf root).foldlM (visitRegion rules target s.graph.depthBound) s

/-- Rounds until nothing changes, with `left` to go and `done` behind. Gives the
number of rounds and whether the last one changed nothing. -/
def rounds (rules : RuleSet) (target : ConversionTarget) (root : OpId) :
    Nat → Nat → Application → Except Fault (Application × Nat × Bool)
  | 0, done, s => .ok (s, done, false)
  | left + 1, done, s => do
    let next ← s.round rules target root
    if next.changes = s.changes then return (next, done + 1, true)
    else rounds rules target root left (done + 1) next

end Application

/-- What an application did. -/
structure ApplyResult where
  iterations : Nat
  changes : Nat
  fixpoint : Bool
  rejected : List Rejection
  deriving DecidableEq, Repr, Inhabited

namespace RuleSet

/-- Apply the rules to everything nested in a root. -/
def apply (rules : RuleSet) (g : Graph) (root : OpId) (target : ConversionTarget)
    (budget : Nat) (sizes : AccessSizes) : Except Fault (Graph × AccessSizes × ApplyResult) := do
  let (s, iterations, fixpoint) ←
    Application.rounds rules target root budget 0 ⟨g, sizes, [], 0⟩
  return (s.graph, s.sizes, ⟨iterations, s.changes, fixpoint, s.rejected⟩)

end RuleSet

end SimdLowering
