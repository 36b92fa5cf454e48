/-
Rewrite rules and ordered sets of them.

A rule looks at one operation. It may decline, in which case another rule can
be tried; refuse, which ends the matter for good; or match, and then it says
what is to be put in the operation's place. A rule is handed the graph and
hands a graph back, because the operations it wants put in place have to exist
already, without a block.

In a set each rule has a priority. For one kind of operation the rules that
name this kind among their roots are tried in ascending priority, and rules of
equal priority in the order in which they were added. A rule added without a
priority gets the number of rules before it. For each kind the positions of its
rules are kept in order from one addition to the next: a new position is put at
the end, and then all are sorted again.
-/
import SimdLowering.Graph.Edit
import SimdLowering.Rewrite.AccessSize

set_option autoImplicit false

namespace SimdLowering

/-- What becomes of the operation that a rule matched. -/
inductive Ending where
  /-- It stays. -/
  | keep
  /-- Another operation takes its place and its results. -/
  | replace (op : OpId)
  /-- It goes, and values stand in for its results. -/
  | forward (values : List ValueId)
  deriving DecidableEq, Repr, Inhabited

/-- What a rule wants done at the operation it matched. -/
structure Edits where
  /-- Operations to put before it, in order. -/
  inserted : List OpId
  ending : Ending
  deriving DecidableEq, Repr, Inhabited

namespace Edits

/-- Nothing to do. -/
def none : Edits := ⟨[], .keep⟩

/-- Whether there is nothing to do. -/
def isEmpty (e : Edits) : Bool := e.inserted.isEmpty && e.ending == .keep

/-- The operations that are put in place. -/
def newOps (e : Edits) : List OpId :=
  e.inserted ++ match e.ending with
    | .replace op => [op]
    | _ => []

end Edits

/-- How a rule answers. -/
inductive Outcome where
  | declined
  | refused (reason : String)
  | matched (edits : Edits)
  deriving DecidableEq, Repr, Inhabited

/-- A rewrite rule. -/
structure Rule where
  name : String
  /-- The kinds the rule is tried on. -/
  roots : List OpKind
  run : Graph → OpId → AccessSizes → Except Fault (Graph × AccessSizes × Outcome)

/-- A rule and its priority. -/
structure RuleEntry where
  rule : Rule
  priority : Nat

/-- Rules in the order they were added. -/
structure RuleSet where
  entries : List RuleEntry

namespace RuleSet

/-- No rules. -/
def empty : RuleSet := ⟨[]⟩

/-- Add a rule with a priority. -/
def addAt (s : RuleSet) (rule : Rule) (priority : Nat) : RuleSet :=
  ⟨s.entries ++ [⟨rule, priority⟩]⟩

/-- Add a rule; its priority is the number of rules before it. -/
def add (s : RuleSet) (rule : Rule) : RuleSet := s.addAt rule s.entries.length

/-- The set of the given rules, in order. -/
def ofList (rules : List Rule) : RuleSet := rules.foldl add empty

/-- The number of rules. -/
def size (s : RuleSet) : Nat := s.entries.length

/-- The priority of the rule at a position, while a rule of the given priority is
being added behind the others. -/
def keyAt (entries : List RuleEntry) (priority i : Nat) : Nat :=
  if i = entries.length then priority else (entries[i]?.map RuleEntry.priority).getD 0

/-- Put the position of a new rule among those for a kind that it names. Sorting
is stable. -/
def place (entries : List RuleEntry) (priority : Nat) (order : List Nat) : List Nat :=
  (order ++ [entries.length]).mergeSort fun i j =>
    decide (keyAt entries priority i ≤ keyAt entries priority j)

/-- The positions for a kind, in the order of trial, once a rule is added. A rule
that names the kind several times is put in place several times. -/
def orderWith (kind : OpKind) (entries : List RuleEntry) (order : List Nat) (e : RuleEntry) :
    List Nat :=
  e.rule.roots.foldl (fun order k => if k = kind then place entries e.priority order else order)
    order

/-- The positions of the rules for a kind, in the order of trial, kept so from
one addition to the next. -/
def order (s : RuleSet) (kind : OpKind) : List Nat :=
  (s.entries.foldl (fun t e => (t.1 ++ [e], orderWith kind t.1 t.2 e)) ([], [])).2

/-- The entries for a kind, in the order of trial. -/
def forKind (s : RuleSet) (kind : OpKind) : List RuleEntry :=
  (s.order kind).filterMap fun i => s.entries[i]?

/-- Name and priority of the rules for a kind, in the order of trial. -/
def priorities (s : RuleSet) (kind : OpKind) : List (String × Nat) :=
  (s.forKind kind).map fun e => (e.rule.name, e.priority)

end RuleSet

end SimdLowering
