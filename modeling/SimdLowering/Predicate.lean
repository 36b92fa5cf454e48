/-
Comparison predicates and the combining functions of reductions.

Integer predicates come in a signed and an unsigned family. Float predicates
come in an ordered family, false as soon as one side is not a number, and an
unordered family, true in that case. The target compares with integer
predicates only, by name.
-/

set_option autoImplicit false

namespace SimdLowering

/-- Predicate of an integer comparison. -/
inductive IntPredicate where
  | eq
  | ne
  | slt
  | sle
  | sgt
  | sge
  | ult
  | ule
  | ugt
  | uge
  deriving DecidableEq, Repr, Inhabited

namespace IntPredicate

/-- The name of the predicate. -/
def mnemonic : IntPredicate → String
  | eq => "eq"
  | ne => "ne"
  | slt => "slt"
  | sle => "sle"
  | sgt => "sgt"
  | sge => "sge"
  | ult => "ult"
  | ule => "ule"
  | ugt => "ugt"
  | uge => "uge"

/-- Every predicate. -/
def all : List IntPredicate := [eq, ne, slt, sle, sgt, sge, ult, ule, ugt, uge]

/-- The predicate of the given name. -/
def ofMnemonic? (s : String) : Option IntPredicate := all.find? fun p => p.mnemonic == s

end IntPredicate

/-- Predicate of a float comparison. -/
inductive FloatPredicate where
  | alwaysFalse
  | oeq
  | ogt
  | oge
  | olt
  | ole
  | one
  | ord
  | ueq
  | ugt
  | uge
  | ult
  | ule
  | une
  | uno
  | alwaysTrue
  deriving DecidableEq, Repr, Inhabited

namespace FloatPredicate

/-- The name of the predicate. -/
def mnemonic : FloatPredicate → String
  | alwaysFalse => "false"
  | oeq => "oeq"
  | ogt => "ogt"
  | oge => "oge"
  | olt => "olt"
  | ole => "ole"
  | one => "one"
  | ord => "ord"
  | ueq => "ueq"
  | ugt => "ugt"
  | uge => "uge"
  | ult => "ult"
  | ule => "ule"
  | une => "une"
  | uno => "uno"
  | alwaysTrue => "true"

/-- Every predicate. -/
def all : List FloatPredicate :=
  [alwaysFalse, oeq, ogt, oge, olt, ole, one, ord, ueq, ugt, uge, ult, ule, une, uno, alwaysTrue]

/-- The predicate of the given name. -/
def ofMnemonic? (s : String) : Option FloatPredicate := all.find? fun p => p.mnemonic == s

end FloatPredicate

/-- The function a reduction folds its lanes with. -/
inductive CombiningKind where
  | add
  | mul
  | minsi
  | minui
  | maxsi
  | maxui
  | minf
  | maxf
  deriving DecidableEq, Repr, Inhabited

namespace CombiningKind

/-- The name of the combining function. -/
def mnemonic : CombiningKind → String
  | add => "add"
  | mul => "mul"
  | minsi => "minsi"
  | minui => "minui"
  | maxsi => "maxsi"
  | maxui => "maxui"
  | minf => "minf"
  | maxf => "maxf"

/-- Every combining function. -/
def all : List CombiningKind := [add, mul, minsi, minui, maxsi, maxui, minf, maxf]

/-- The combining function of the given name. -/
def ofMnemonic? (s : String) : Option CombiningKind := all.find? fun k => k.mnemonic == s

/-- Whether the smaller lane wins, by whichever order. -/
def isMin : CombiningKind → Bool
  | minsi | minui | minf => true
  | _ => false

/-- Whether the larger lane wins, by whichever order. -/
def isMax : CombiningKind → Bool
  | maxsi | maxui | maxf => true
  | _ => false

end CombiningKind

end SimdLowering
