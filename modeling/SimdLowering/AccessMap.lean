/-
Access maps: how the dimensions of a memory buffer turn into the dimensions of
the vector that is read from it.

Each result of a map either follows a memory dimension or is pinned to a
constant index. The map that follows the last dimension reads adjacent cells,
and it is the only form the target can load in one piece.
-/

set_option autoImplicit false

namespace SimdLowering

/-- One result of an access map. -/
inductive MapResult where
  | dim (d : Nat)
  | constant (c : Int)
  deriving DecidableEq, Repr, Inhabited

namespace MapResult

/-- A dimension as `d` and its number, a constant as the number alone. -/
def render : MapResult → String
  | dim d => "d" ++ toString d
  | constant c => toString c

/-- Whether the result is pinned. -/
def isConstant : MapResult → Bool
  | constant _ => true
  | dim _ => false

end MapResult

/-- A map from memory dimensions to vector dimensions. -/
structure AccessMap where
  dims : Nat
  results : List MapResult
  deriving DecidableEq, Repr, Inhabited

namespace AccessMap

/-- The map that follows the last of `n` dimensions. Without any dimension it
still names dimension zero. -/
def minorIdentity (n : Nat) : AccessMap := ⟨n, [.dim (n - 1)]⟩

/-- Whether the results are the last dimensions, in order. -/
def isMinorIdentity (m : AccessMap) : Bool :=
  decide (m.results.length ≤ m.dims) &&
    m.results == (List.range' (m.dims - m.results.length) m.results.length).map MapResult.dim

/-- Whether there are results and all of them are pinned. -/
def isConstant (m : AccessMap) : Bool :=
  !m.results.isEmpty && m.results.all MapResult.isConstant

/-- The text of a map, such as `(d0, d1) -> (d1)`. -/
def render (m : AccessMap) : String :=
  "(" ++ ", ".intercalate ((List.range m.dims).map fun d => "d" ++ toString d) ++ ") -> (" ++
    ", ".intercalate (m.results.map MapResult.render) ++ ")"

end AccessMap

end SimdLowering
