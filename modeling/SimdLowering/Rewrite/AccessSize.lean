/-
How many bits a load contributes.

A long load that another load carries at a nonzero offset only contributes the
bits before that offset, and a load at an offset of its own only those after
it. The size of a load is therefore read off its result type, its own offset,
and the offsets of the loads that read its result.

Sizes are computed on demand and remembered. A remembered size is a statement
about the graph at the time it was computed; whoever changes the graph has to
say which loads it may have changed.
-/
import SimdLowering.Instr.View

set_option autoImplicit false

namespace SimdLowering

namespace Graph

/-- The size of the first result in bits; zero where it has no lane layout. -/
def resultBits (g : Graph) (op : OpId) : Except Fault Nat :=
  match g.resultShape? op with
  | some shape => shape.bits32
  | none => .ok 0

/-- The offsets of the loads that read a value, added up. -/
def downstreamOffset (g : Graph) (v : ValueId) : Except Fault Int :=
  ((g.uses v).filter fun u => g.kind u.user == .upd).foldlM
    (fun sum u => fitI64 (sum + g.updOffset u.user)) 0

/-- The bits a load contributes, computed on the graph as it is. The result is
kept in 32 bits and what does not fit is cut off. -/
def accessSize (g : Graph) (op : OpId) : Except Fault Nat :=
  match (g.results op).head? with
  | none => .error .broken
  | some result => do
    let total ← g.resultBits op
    let downstream ← g.downstreamOffset result
    let rest ← fitI64 (total - g.updOffset op)
    let bits ← fitI64 (rest - downstream)
    return (max 0 bits).toNat % twoPow 32

end Graph

/-- Sizes that have been computed, by load. -/
structure AccessSizes where
  entries : List (OpId × Nat)
  deriving DecidableEq, Repr, Inhabited

namespace AccessSizes

/-- No size computed. -/
def empty : AccessSizes := ⟨[]⟩

/-- The remembered size of a load. -/
def get? (c : AccessSizes) (op : OpId) : Option Nat := c.entries.lookup op

/-- Whether a size is remembered. -/
def contains (c : AccessSizes) (op : OpId) : Bool := (c.get? op).isSome

/-- The number of sizes remembered. -/
def size (c : AccessSizes) : Nat := c.entries.length

/-- The size of a load: the remembered one, or a new one that is then
remembered. -/
def query (c : AccessSizes) (g : Graph) (op : OpId) : Except Fault (Nat × AccessSizes) :=
  match c.get? op with
  | some n => .ok (n, c)
  | none => do
    let n ← g.accessSize op
    return (n, ⟨(op, n) :: c.entries⟩)

/-- Forget the size of one load. -/
def invalidate (c : AccessSizes) (op : OpId) : AccessSizes :=
  ⟨c.entries.filter fun e => e.1 != op⟩

/-- Forgetting one load leaves all other sizes as they are. -/
theorem get?_invalidate (c : AccessSizes) (op o : OpId) :
    (c.invalidate op).get? o = if o = op then none else c.get? o := by
  obtain ⟨l⟩ := c
  simp only [invalidate, get?]
  induction l with
  | nil => simp
  | cons e rest ih =>
    obtain ⟨p, n⟩ := e
    by_cases hp : p = op
    · subst hp
      by_cases ho : o = p
      · simpa [ho] using ih
      · simpa [ho, List.lookup_cons, beq_false_of_ne ho] using ih
    · by_cases ho : o = p
      · subst ho; simp [hp]
      · simp [hp, List.lookup_cons, beq_false_of_ne ho, ih]

/-- Forget the sizes of several loads. -/
def invalidateAll (c : AccessSizes) (ops : List OpId) : AccessSizes := ops.foldl invalidate c

end AccessSizes

end SimdLowering
