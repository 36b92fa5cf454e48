/-
Which operations are in final form.

A conversion target says of each operation whether it may stay. It can decide
by looking at the operation, by its kind, or by its dialect, in this order:
a check registered for the kind, else what was last said about the kind, else
whether the dialect was declared legal. Of a kind about which nothing was said
nothing is known; such operations are neither required to go nor sure to stay.

The kinds declared legal and the kinds declared illegal are kept apart, and a
kind that is put among the one is taken from the other.
-/
import SimdLowering.Rewrite.AccessSize
import SimdLowering.Graph.Walk

set_option autoImplicit false

namespace SimdLowering

/-- What a target says of an operation. -/
inductive Legality where
  | legal
  | illegal
  | unknown
  deriving DecidableEq, Repr, Inhabited

namespace Legality

/-- The verdict in one word. -/
def text : Legality → String
  | legal => "legal"
  | illegal => "illegal"
  | unknown => "unknown"

end Legality

/-- A test of one operation; it may ask for access sizes. -/
abbrev LegalityCheck : Type := Graph → OpId → AccessSizes → Except Fault (Bool × AccessSizes)

namespace LegalityCheck

/-- A check that needs no access sizes. -/
def ofTest (test : Graph → OpId → Except Fault Bool) : LegalityCheck := fun g op sizes => do
  return (← test g op, sizes)

/-- A check that needs no access sizes and cannot fail. -/
def ofPredicate (p : Graph → OpId → Bool) : LegalityCheck := fun g op sizes => .ok (p g op, sizes)

end LegalityCheck

/-- The rules of legality. -/
structure ConversionTarget where
  /-- The dialects declared legal. -/
  dialects : Dialect → Bool
  /-- The kinds declared legal, and not declared illegal since. -/
  legalKinds : OpKind → Bool
  /-- The kinds declared illegal, and not declared legal since. -/
  illegalKinds : OpKind → Bool
  /-- The check last registered for a kind. -/
  checks : OpKind → Option LegalityCheck

/-- One thing said to a conversion target. -/
inductive TargetSetting where
  | legalDialect (d : Dialect)
  | legalKind (k : OpKind)
  | illegalKind (k : OpKind)
  | check (k : OpKind) (c : LegalityCheck)

namespace ConversionTarget

/-- The target that knows nothing. -/
def empty : ConversionTarget := ⟨fun _ => false, fun _ => false, fun _ => false, fun _ => none⟩

/-- The target after one more thing has been said to it. -/
def configure (t : ConversionTarget) : TargetSetting → ConversionTarget
  | .legalDialect d => { t with dialects := fun x => if x = d then true else t.dialects x }
  | .legalKind k =>
    { t with
      illegalKinds := fun x => if x = k then false else t.illegalKinds x
      legalKinds := fun x => if x = k then true else t.legalKinds x }
  | .illegalKind k =>
    { t with
      legalKinds := fun x => if x = k then false else t.legalKinds x
      illegalKinds := fun x => if x = k then true else t.illegalKinds x }
  | .check k c => { t with checks := fun x => if x = k then some c else t.checks x }

/-- The target to which all of this has been said, in order. -/
def ofSettings (settings : List TargetSetting) : ConversionTarget := settings.foldl configure empty

/-- What the target says of a kind without a check. -/
def kindLegality (t : ConversionTarget) (k : OpKind) : Legality :=
  if t.legalKinds k then .legal
  else if t.illegalKinds k then .illegal
  else if t.dialects k.dialect then .legal
  else .unknown

/-- What the target says of an operation. -/
def legality (t : ConversionTarget) (g : Graph) (op : OpId) (sizes : AccessSizes) :
    Except Fault (Legality × AccessSizes) :=
  let kind := g.kind op
  match t.checks kind with
  | some check => do
    let (ok, sizes) ← check g op sizes
    return (if ok then .legal else .illegal, sizes)
  | none => .ok (t.kindLegality kind, sizes)

end ConversionTarget

/-- An operation that may not stay. -/
structure IllegalOp where
  op : OpId
  kind : OpKind
  deriving DecidableEq, Repr, Inhabited

namespace IllegalOp

/-- Full name of the kind, and the operation in brackets. -/
def text (i : IllegalOp) : String := i.kind.text ++ " (" ++ i.op.render ++ ")"

end IllegalOp

namespace ConversionTarget

/-- Look at one operation on a walk and note it if it may not stay. -/
def inspect (t : ConversionTarget) (g : Graph) (op : OpId) (s : List IllegalOp × AccessSizes) :
    (List IllegalOp × AccessSizes) × Visit Fault :=
  match t.legality g op s.2 with
  | .error e => (s, .stop e)
  | .ok (.illegal, sizes) => ((s.1 ++ [⟨op, g.kind op⟩], sizes), .descend)
  | .ok (_, sizes) => ((s.1, sizes), .descend)

/-- The operations nested in a root that may not stay, in the order a walk
meets them. -/
def verify (t : ConversionTarget) (g : Graph) (root : OpId) (sizes : AccessSizes) :
    Except Fault (List IllegalOp × AccessSizes) :=
  match g.walkInside (t.inspect g) root ([], sizes) with
  | (_, some e) => .error e
  | (s, none) => .ok s

end ConversionTarget

end SimdLowering
