/-
Validation of the operations nested in a root.

Two things are checked. First, definition before use: an operand must be an
argument of an enclosing block or a result of an operation placed earlier in
an enclosing block, where only blocks under the root count. Second, the chains
of readers: each operand slot of a nested operation must be on its value's
chain, and whatever is on the chain of a value defined under the root must be
such a slot.

The errors come in a fixed order. Definition errors are listed in pre-order
and by slot; missing readings likewise; stale readings by value and then in
chain order.

A definition error says where the value comes from. A value that is still to
come has no origin to name, and to validate an order with such a value in it is
a fault.
-/
import SimdLowering.Graph.Walk

set_option autoImplicit false

namespace SimdLowering

/-- One thing wrong with a graph. -/
inductive ValidationError where
  /-- An operand is read where it is not defined yet. -/
  | useBeforeDef (op : OpId) (kind : OpKind) (slot : Nat) (value : ValueId) (origin : String)
  /-- A slot is missing from the chain of its value. -/
  | missingUse (value : ValueId) (op : OpId) (slot : Nat)
  /-- A chain holds something that is not a slot reading the value. -/
  | staleUse (value : ValueId) (op : OpId) (slot : Nat)
  deriving DecidableEq, Repr, Inhabited

namespace ValidationError

/-- What the error says. -/
def message : ValidationError → String
  | useBeforeDef op kind slot value origin =>
    s!"operand #{slot} of {kind} ({op}) uses {value} ({origin}) before its definition"
  | missingUse value op slot => s!"use-chain of {value} is missing {op}#{slot}"
  | staleUse value op slot =>
    s!"use-chain of {value} records {op}#{slot}, which is not an operand use"

end ValidationError

namespace Graph

/-- The text that names the source of a value. -/
def describeOrigin (g : Graph) (v : ValueId) : String :=
  match (g.value v).origin with
  | .result op index => s!"result #{index} of {g.kind op}"
  | .argument block index => s!"argument #{index} of {block}"

/-! ## Definition before use -/

/-- The operands of one operation that are not among the visible values. -/
def hiddenOperands (g : Graph) (visible : List ValueId) (op : OpId) : List ValidationError :=
  (g.operands op).zipIdx.filterMap fun (v, slot) =>
    if v ∈ visible then none
    else some (.useBeforeDef op (g.kind op) slot v (g.describeOrigin v))

/-- The definition errors of a run of operations of one block, where `inside`
checks a region with what its operation can see. -/
def orderErrorsOfOps (g : Graph) (inside : List ValueId → RegionId → List ValidationError) :
    List ValueId → List OpId → List ValidationError
  | _, [] => []
  | visible, op :: ops =>
    g.hiddenOperands visible op ++ (g.regionsOf op).flatMap (inside visible) ++
      g.orderErrorsOfOps inside (g.results op ++ visible) ops

/-- The definition errors of a region that sees the given values from outside,
at most `depth` levels down. -/
def orderErrorsWithin (g : Graph) : Nat → List ValueId → RegionId → List ValidationError
  | 0, _, _ => []
  | depth + 1, visible, r =>
    (g.blocksIn r).flatMap fun b =>
      g.orderErrorsOfOps (g.orderErrorsWithin depth) (g.argsOf b ++ visible) (g.opsIn b)

/-- Whether every value that is read under a root exists. -/
def readsExist (g : Graph) (root : OpId) : Bool :=
  (g.nested root).all fun op => (g.operands op).all fun v => (g.value? v).isSome

/-- The definition errors under a root. -/
def orderErrors (g : Graph) (root : OpId) : Except Fault (List ValidationError) :=
  if g.readsExist root then
    .ok ((g.regionsOf root).flatMap (g.orderErrorsWithin g.depthBound []))
  else .error .broken

/-! ## Chains of readers -/

/-- The blocks under an operation, at most `depth` levels down. -/
def blocksWithin (g : Graph) : Nat → OpId → List BlockId
  | 0, _ => []
  | depth + 1, op =>
    ((g.regionsOf op).flatMap g.blocksIn).flatMap fun b =>
      b :: (g.opsIn b).flatMap (g.blocksWithin depth)

/-- The values defined under a root: arguments of blocks and results of
operations. -/
def valuesUnder (g : Graph) (root : OpId) : List ValueId :=
  (g.blocksWithin g.depthBound root).flatMap g.argsOf ++ (g.nested root).flatMap g.results

/-- The slots under a root that their values' chains do not know. -/
def missingUses (g : Graph) (root : OpId) : List ValidationError :=
  (g.nested root).flatMap fun op =>
    (g.operands op).zipIdx.filterMap fun (v, slot) =>
      if (⟨op, slot⟩ : Use) ∈ g.uses v then none else some (.missingUse v op slot)

/-- Whether a reading on the chain of `v` is an operand slot of one of the
given operations. -/
def isLiveUse (g : Graph) (live : List OpId) (v : ValueId) (u : Use) : Bool :=
  decide (u.user ∈ live) && (g.operands u.user)[u.slot]? == some v

/-- The readings of values defined under a root that are not slots under the
root. -/
def staleUses (g : Graph) (root : OpId) : List ValidationError :=
  let live := g.nested root
  let defined := g.valuesUnder root
  ((List.range g.values.size).map ValueId.mk).flatMap fun v =>
    if v ∈ defined then
      ((g.uses v).filter fun u => !g.isLiveUse live v u).map fun u => .staleUse v u.user u.slot
    else []

/-- The chain errors under a root. -/
def chainErrors (g : Graph) (root : OpId) : List ValidationError :=
  g.missingUses root ++ g.staleUses root

/-- All errors under a root. -/
def validationErrors (g : Graph) (root : OpId) : Except Fault (List ValidationError) := do
  return (← g.orderErrors root) ++ g.chainErrors root

/-- The report of a validation: one line that all is well, or a count and a
line for each error. -/
def validationReport (errors : List ValidationError) : String :=
  if errors.isEmpty then "validation passed"
  else s!"{errors.length} error(s) found:\n" ++
    String.join (errors.map fun e => "  - " ++ e.message ++ "\n")

/-- Insist that the operations under a root validate, at the end of a pass. -/
def requireValid (g : Graph) (root : OpId) (pass : String) : Except Fault Unit := do
  let errors ← g.validationErrors root
  if errors.isEmpty then return () else throw (.invalidAfter pass (validationReport errors))

end Graph

end SimdLowering
