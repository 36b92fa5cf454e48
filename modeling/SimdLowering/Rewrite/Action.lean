/-
Rules given as data.

The driver of rewriting takes any set of rules, and what is known of it is known for all of them.
Rules given as data stand for those of other sets than the two of the generations. Each has one of
a few fixed behaviours: it declines, it matches without doing anything, it refuses, it swaps the
operation for another of the same shape, it forwards an operand, it puts a constant before the
operation, or it does both at once. Together they give every outcome that a rule can have. The last
one takes some other operation out of its block and declines, which is what no outcome tells of.
-/
import SimdLowering.Rewrite.Recipe

set_option autoImplicit false

namespace SimdLowering

/-- What a rule given as data does. -/
inductive Action where
  /-- Decline. -/
  | decline
  /-- Match and do nothing. -/
  | matchOnly
  /-- Refuse. -/
  | refuse (reason : String)
  /-- Put an operation of another kind in place, with the same operands, maybe
  in reverse, and the same result types. -/
  | replace (kind : OpKind) (reverse : Bool)
  /-- Let one operand stand for the result. -/
  | forward (slot : Nat)
  /-- Put a constant before the operation. -/
  | constantBefore (value : Int)
  /-- Put a constant before the operation, and an operation of another kind in
  its place that reads the constant last. -/
  | expand (kind : OpKind) (value : Int)
  /-- Take an operation out of its block, then decline. -/
  | unlink (victim : OpId)
  deriving DecidableEq, Repr, Inhabited

namespace Action

/-- A 32-bit integer constant. -/
def constantDraft (value : Int) : Draft ValueId := Instr.constantInt (.i 32) value

/-- An operation with the result types of another one. -/
def likeDraft (g : Graph) (op : OpId) (kind : OpKind) (operands : List ValueId) : Draft ValueId :=
  ⟨kind, operands, g.resultTypes op, .empty, []⟩

/-- Carry an action out on an operation. -/
def perform (g : Graph) (op : OpId) : Action → Except Fault (Graph × Outcome)
  | decline => .ok (g, .declined)
  | matchOnly => .ok (g, .matched .none)
  | refuse reason => .ok (g, .refused reason)
  | replace kind reverse =>
    let operands := if reverse then (g.operands op).reverse else g.operands op
    let (g, new) := g.addOp (likeDraft g op kind operands)
    .ok (g, .matched ⟨[], .replace new⟩)
  | forward slot => do
    let v ← g.operandAt op slot
    return (g, .matched ⟨[], .forward [v]⟩)
  | constantBefore value =>
    let (g, new) := g.addOp (constantDraft value)
    .ok (g, .matched ⟨[new], .keep⟩)
  | expand kind value =>
    let (g, const) := g.addOp (constantDraft value)
    let (g, new) := g.addOp (likeDraft g op kind (g.operands op ++ g.results const))
    .ok (g, .matched ⟨[const], .replace new⟩)
  | unlink victim =>
    match g.op? victim with
    | none => .error .broken
    | some o =>
      match o.block with
      | none => .ok (g, .declined)
      | some b => do return (← g.detach b victim, .declined)

/-- The rule that does an action, on operations with the given number of
operands if one is given. -/
def toRule (name : String) (roots : List OpKind) (arity : Option Nat) (action : Action) : Rule :=
  ⟨name, roots, fun g op sizes =>
    if arity.any fun n => n != (g.operands op).length then .ok (g, sizes, .declined)
    else do
      let (g, outcome) ← action.perform g op
      return (g, sizes, outcome)⟩

end Action

end SimdLowering
