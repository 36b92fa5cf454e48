/-
Numbering of types.

Where types have to be named by small numbers, a table hands the numbers out in order of first
appearance: the same type always gets the same number, and a number once given keeps its type.
An entry of the table names the element of a vector or of memory by number, so an element has to
be numbered before what is built from it, and comparing two entries never looks further than
their numbers. Beside the entries the table keeps the numbers by entry, to find the ones given
before.

Graphs do not need the table, since they hold types directly; it is the meeting point for tools
that exchange type numbers.
-/
import SimdLowering.Ty

set_option autoImplicit false

namespace SimdLowering

/-- The number of a type in a table. -/
structure TypeId where
  index : Nat
  deriving DecidableEq, Repr, Inhabited

namespace TypeId

/-- The number as messages write it. -/
def render (t : TypeId) : String := "ty" ++ toString t.index

end TypeId

/-- What a table holds of a type. -/
inductive TypeData where
  | int (width : Nat) (sign : Signedness)
  | float (format : FloatFormat)
  | index
  | vector (lanes : Nat) (elem : TypeId)
  | memory (shape : List Nat) (elem : TypeId)
  deriving DecidableEq, Repr, Inhabited

namespace TypeData

/-- The number of the element, if there is one. -/
def elem? : TypeData → Option TypeId
  | vector _ elem => some elem
  | memory _ elem => some elem
  | _ => none

/-- The type, given the types behind numbers. -/
def type? (typeOf : TypeId → Option Ty) : TypeData → Option Ty
  | int width sign => some (.int width sign)
  | float format => some (.float format)
  | index => some .index
  | vector lanes elem => (typeOf elem).map (.vector lanes)
  | memory shape elem => (typeOf elem).map (.memory shape)

end TypeData

/-- A table of types, each held once, in order of first appearance, and the numbers by type,
latest first. -/
structure TypeTable where
  entries : List TypeData
  numbers : List (TypeData × TypeId)
  deriving Repr, Inhabited

namespace TypeTable

/-- The table that holds nothing. -/
def empty : TypeTable := ⟨[], []⟩

/-- The entry behind a number. -/
def get? (t : TypeTable) (id : TypeId) : Option TypeData := t.entries[id.index]?

/-- The table with the entry at its end, under a new number. -/
def push (t : TypeTable) (data : TypeData) : TypeTable × TypeId :=
  (⟨t.entries ++ [data], (data, ⟨t.entries.length⟩) :: t.numbers⟩, ⟨t.entries.length⟩)

/-- The number of an entry, with the table that knows it: the old table if it held the entry,
else the table with the entry at its end. -/
def intern (t : TypeTable) (data : TypeData) : TypeTable × TypeId :=
  match t.numbers.lookup data with
  | some id => (t, id)
  | none => t.push data

/-- Number a type after its element types, innermost first, so that an element never has a higher
number than what is built from it. -/
def internDeep (t : TypeTable) : Ty → TypeTable × TypeId
  | .int width sign => t.intern (.int width sign)
  | .float format => t.intern (.float format)
  | .index => t.intern .index
  | .vector lanes elem =>
    let (t, e) := t.internDeep elem
    t.intern (.vector lanes e)
  | .memory shape elem =>
    let (t, e) := t.internDeep elem
    t.intern (.memory shape e)

/-- The type behind a number, at most `depth` elements down. -/
def typeWithin (t : TypeTable) : Nat → TypeId → Option Ty
  | 0, _ => none
  | depth + 1, id => (t.get? id).bind (TypeData.type? (t.typeWithin depth))

/-- The type behind a number. No way down is longer than there are entries. -/
def type? (t : TypeTable) (id : TypeId) : Option Ty := t.typeWithin t.entries.length id

/-- The text of the type behind a number. -/
def text? (t : TypeTable) (id : TypeId) : Option String := (t.type? id).map Ty.render

end TypeTable

end SimdLowering
