/-
Rewrites written down before they are carried out.

A recipe is a straight line of operations to create. The operands of each are
values of the graph or results of earlier steps; the last operation takes the
place of the one that is rewritten, and the others go before it. A rule that
answers with a recipe only reads the graph. Creating the operations is one
function for all such rules, and so is everything there is to say about what
it leaves alone.

Recipes are assembled by a plan, in which emitting a step gives the operand
that later steps use for its result.
-/
import SimdLowering.Instr.Generic
import SimdLowering.Rewrite.Rule

set_option autoImplicit false

namespace SimdLowering

/-- An operand in a recipe. -/
inductive Source where
  /-- A value of the graph. -/
  | value (v : ValueId)
  /-- The result of the step at a position. -/
  | step (i : Nat)
  deriving DecidableEq, Repr, Inhabited

/-- A step of a recipe. -/
abbrev Step : Type := Draft Source

/-- Operations to create: those that go before, and the one that takes the
place. -/
structure Recipe where
  steps : List Step
  final : Step
  deriving Repr, Inhabited

/-- The assembly of a recipe; its state is the steps so far. -/
abbrev Plan : Type → Type := StateM (List Step)

namespace Plan

/-- Add a step and give its result as an operand. -/
def emit (d : Step) : Plan (Operand Source) := fun steps =>
  (⟨.step steps.length, d.resultType⟩, steps ++ [d])

/-- Add a 32-bit integer constant. -/
def emitI32 (value : Int) : Plan (Operand Source) := emit (Instr.constantInt (.i 32) value)

/-- The recipe of a plan that ends with the given operation. -/
def toRecipe (p : Plan Step) : Recipe :=
  let (final, steps) := p.run []
  ⟨steps, final⟩

end Plan

namespace Source

/-- The value an operand stands for, once the results of the steps are known. -/
def resolve (results : List ValueId) : Source → ValueId
  | value v => v
  | step i => results.getD i default

end Source

namespace Graph

/-- A value of the graph as a typed operand of a recipe. -/
def source (g : Graph) (v : ValueId) : Except Fault (Operand Source) := do
  return ⟨.value v, ← g.valueTy v⟩

/-- A value as a typed operand that is read after steps with results of the
given types. Names are given away in order, so a name that is still free may be
the one that the result of such a step gets. -/
def sourceAfter (g : Graph) (steps : List Ty) (v : ValueId) : Except Fault (Operand Source) :=
  if v.index < g.values.size then g.source v
  else
    match steps[v.index - g.values.size]? with
    | some ty => .ok ⟨.value v, ty⟩
    | none => .error .broken

/-- Create an operation of a recipe, given the results of the steps before it. -/
def addStep (g : Graph) (results : List ValueId) (d : Step) : Graph × OpId :=
  g.addOp (d.mapOperands (Source.resolve results))

/-- Create the steps of a recipe in order, after steps with the given results.
Gives all results and the new operations. -/
def addSteps : List Step → Graph → List ValueId → Graph × List ValueId × List OpId
  | [], g, results => (g, results, [])
  | d :: ds, g, results =>
    let (g, op) := g.addStep results d
    let (g, results, ops) := addSteps ds g (results ++ [(g.results op).headD default])
    (g, results, op :: ops)

/-- Create the operations of a recipe. -/
def addRecipe (g : Graph) (r : Recipe) : Graph × Edits :=
  let (g, results, ops) := addSteps r.steps g []
  let (g, op) := g.addStep results r.final
  (g, ⟨ops, .replace op⟩)

end Graph

/-- What a rule that works by recipe answers. -/
inductive Decision where
  | decline
  | refuse (reason : String)
  | rewrite (recipe : Recipe)
  deriving Repr, Inhabited

namespace Decision

/-- Carry a decision out. -/
def perform (g : Graph) : Decision → Graph × Outcome
  | decline => (g, .declined)
  | refuse reason => (g, .refused reason)
  | rewrite recipe =>
    let (g, edits) := g.addRecipe recipe
    (g, .matched edits)

/-- The decision to follow a plan. -/
def follow (p : Plan Step) : Decision := rewrite p.toRecipe

end Decision

namespace Rule

/-- A rule that works by recipe and may ask for access sizes. -/
def ofSizedDecision (name : String) (roots : List OpKind)
    (look : Graph → OpId → AccessSizes → Except Fault (Decision × AccessSizes)) : Rule :=
  ⟨name, roots, fun g op sizes => do
    let (decision, sizes) ← look g op sizes
    let (g, outcome) := decision.perform g
    return (g, sizes, outcome)⟩

/-- A rule that works by recipe. -/
def ofDecision (name : String) (roots : List OpKind)
    (look : Graph → OpId → Except Fault Decision) : Rule :=
  ofSizedDecision name roots fun g op sizes => do return (← look g op, sizes)

end Rule

end SimdLowering
