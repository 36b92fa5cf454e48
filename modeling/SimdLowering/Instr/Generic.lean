/-
The generic instructions, as drafts.

Scalar and lanewise arithmetic, whole-vector operations, the function
container and its return, and the cast that reinterprets a value. A binary
operation has the type of its left operand. A comparison has one truth bit for
each lane of its left operand, or a single one if that is not a vector with a
lane layout.
-/
import SimdLowering.Draft

set_option autoImplicit false

namespace SimdLowering

namespace Instr

variable {α : Type}

/-! ## Functions and casts -/

/-- Return the given values from a function. -/
def ret (values : List α) : Draft α := ⟨.ret, values, [], .empty, []⟩

/-- A function of the given name with the given body. -/
def func (name : String) (body : RegionId) : Draft α :=
  ⟨.func, [], [], .ofList [(AttrName.symName, .str name)], [body]⟩

/-- The bits of a value, read as another type. -/
def unrealizedCast (v : α) (ty : Ty) : Draft α := .pureOp .unrealizedCast [v] ty

/-! ## Constants -/

/-- An integer constant; on a vector type every lane holds it. -/
def constantInt (ty : Ty) (value : Int) : Draft α :=
  (Draft.pureOp .constant [] ty).withAttr AttrName.value (.int value)

/-- A float constant; on a vector type every lane holds it. -/
def constantFloat (ty : Ty) (value : Float) : Draft α :=
  (Draft.pureOp .constant [] ty).withAttr AttrName.value (.float value)

/-- The constant zero, as a float where the element type is one. -/
def constantZero (ty : Ty) : Draft α :=
  if ty.elementType.isFloat then constantFloat ty 0.0 else constantInt ty 0

/-! ## Arithmetic -/

/-- A binary operation with the type of its left operand. -/
def binary (kind : OpKind) (lhs : Operand α) (rhs : α) : Draft α :=
  .pureOp kind [lhs.ref, rhs] lhs.ty

/-- The type of a comparison whose left operand has the given type. -/
def truthType (ty : Ty) : Ty :=
  match ty.vectorShape with
  | some shape => .vector shape.lanes (.i 1)
  | none => .i 1

/-- Compare integers lane by lane. -/
def cmpi (pred : IntPredicate) (lhs : Operand α) (rhs : α) : Draft α :=
  (Draft.pureOp .cmpi [lhs.ref, rhs] (truthType lhs.ty)).withAttr AttrName.predicate
    (.intPredicate pred)

/-- Compare floats lane by lane. -/
def cmpf (pred : FloatPredicate) (lhs : Operand α) (rhs : α) : Draft α :=
  (Draft.pureOp .cmpf [lhs.ref, rhs] (truthType lhs.ty)).withAttr AttrName.predicate
    (.floatPredicate pred)

/-- Take each lane from one of two values, as the condition says. -/
def select (cond : α) (onTrue : Operand α) (onFalse : α) : Draft α :=
  .pureOp .select [cond, onTrue.ref, onFalse] onTrue.ty

/-- Sign-extend integer lanes. -/
def extsi (v : α) (ty : Ty) : Draft α := .pureOp .extsi [v] ty

/-- Extend float lanes. -/
def extf (v : α) (ty : Ty) : Draft α := .pureOp .extf [v] ty

/-! ## Whole vectors -/

/-- Fold all lanes into one. -/
def reduction (kind : CombiningKind) (v : Operand α) : Draft α :=
  (Draft.pureOp .reduction [v.ref] v.ty.elementType).withAttr AttrName.kind (.combining kind)

/-- Copy a scalar to every lane. -/
def broadcast (scalar : α) (ty : Ty) : Draft α := .pureOp .broadcast [scalar] ty

/-- Read one lane. -/
def extract (v : Operand α) (position : Int) : Draft α :=
  (Draft.pureOp .extract [v.ref] v.ty.elementType).withAttr AttrName.position (.int position)

/-- Read a vector from memory, starting at the given indices; a mask may say
which lanes to read. -/
def transferRead (ty : Ty) (source : α) (indices : List α) (map : AccessMap) (mask : Option α) :
    Draft α :=
  (Draft.pureOp .transferRead (source :: indices ++ mask.toList) ty).withAttr
    AttrName.permutationMap (.map map)

end Instr

end SimdLowering
