/-
Operations before they exist.

A draft says what an operation will be: its kind, its operands, the types of
its results, its attributes and the regions it will own. What an operand is
depends on where the draft is used. In a graph it is a value; in the plan of a
rewrite it may also be the result of an earlier step of the same plan. Drafts
are therefore parametric in their operands, and every constructor of an
instruction is written once for both.

Some instructions take the type of their result from an operand. Their
constructors ask for that operand together with its type, and for all others
without: what an operand does not decide, nobody has to know.
-/
import SimdLowering.OpKind
import SimdLowering.Attribute
import SimdLowering.Handle

set_option autoImplicit false

namespace SimdLowering

/-- An operand together with its type. -/
structure Operand (α : Type) where
  ref : α
  ty : Ty
  deriving Repr, Inhabited

/-- An operation that has not been created yet. -/
structure Draft (α : Type) where
  kind : OpKind
  operands : List α
  results : List Ty
  attrs : AttrDict
  regions : List RegionId
  deriving Repr, Inhabited

namespace Draft

variable {α β : Type}

/-- A draft with the given operands and one result, and nothing else. -/
def pureOp (kind : OpKind) (operands : List α) (ty : Ty) : Draft α :=
  ⟨kind, operands, [ty], .empty, []⟩

/-- The draft with one more attribute. -/
def withAttr (d : Draft α) (name : String) (value : Attribute) : Draft α :=
  { d with attrs := d.attrs.set name value }

/-- The draft with its operands renamed. -/
def mapOperands (f : α → β) (d : Draft α) : Draft β :=
  ⟨d.kind, d.operands.map f, d.results, d.attrs, d.regions⟩

/-- The type of the first result; drafts of instructions have exactly one. -/
def resultType (d : Draft α) : Ty := d.results.headD .index

end Draft

end SimdLowering
