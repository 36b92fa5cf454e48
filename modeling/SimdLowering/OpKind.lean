/-
The closed vocabulary of operations.

Every operation has a kind. Kinds fall into five dialects: function
containers, the one builtin cast, scalar and lanewise arithmetic, whole-vector
operations, and the instructions of the target. The kind decides the printed
name of an operation and whether it may be dropped when nothing reads its
results.

The declaration order is part of the vocabulary: tables that list kinds list
them in this order.
-/

set_option autoImplicit false

namespace SimdLowering

/-- The namespace of an operation kind. -/
inductive Dialect where
  | func
  | builtin
  | arith
  | vector
  | aievec
  deriving DecidableEq, Repr, Inhabited

namespace Dialect

/-- The name of the dialect in printed operations. -/
def name : Dialect → String
  | func => "func"
  | builtin => "builtin"
  | arith => "arith"
  | vector => "vector"
  | aievec => "aievec"

/-- Every dialect. -/
def all : List Dialect := [func, builtin, arith, vector, aievec]

/-- The dialect of the given name. -/
def ofName? (s : String) : Option Dialect := all.find? fun d => d.name == s

end Dialect

/-- What an operation computes. -/
inductive OpKind where
  | func
  | ret
  | unrealizedCast
  | constant
  | addi
  | addf
  | subi
  | subf
  | muli
  | mulf
  | minsi
  | maxsi
  | minf
  | maxf
  | cmpi
  | cmpf
  | select
  | extsi
  | extf
  | reduction
  | broadcast
  | extract
  | transferRead
  | upd
  | ups
  | srs
  | cast
  | concat
  | ext
  | shift
  | extElem
  | broadcastLane
  | broadcastScalar
  | add
  | sub
  | mul
  | fma
  | addElem
  | subElem
  | mulElem
  | fmaElem
  | min
  | max
  | cmp
  | sel
  deriving DecidableEq, Repr, Inhabited

namespace OpKind

/-- Every kind, in declaration order. -/
def all : List OpKind :=
  [func, ret, unrealizedCast, constant, addi, addf, subi, subf, muli, mulf, minsi, maxsi, minf,
    maxf, cmpi, cmpf, select, extsi, extf, reduction, broadcast, extract, transferRead, upd, ups,
    srs, cast, concat, ext, shift, extElem, broadcastLane, broadcastScalar, add, sub, mul, fma,
    addElem, subElem, mulElem, fmaElem, min, max, cmp, sel]

/-- The dialect of a kind. -/
def dialect : OpKind → Dialect
  | func | ret => .func
  | unrealizedCast => .builtin
  | constant | addi | addf | subi | subf | muli | mulf | minsi | maxsi | minf | maxf | cmpi | cmpf
  | select | extsi | extf => .arith
  | reduction | broadcast | extract | transferRead => .vector
  | upd | ups | srs | cast | concat | ext | shift | extElem | broadcastLane | broadcastScalar
  | add | sub | mul | fma | addElem | subElem | mulElem | fmaElem | min | max | cmp | sel => .aievec

/-- The name of a kind within its dialect. -/
def mnemonic : OpKind → String
  | func => "func"
  | ret => "return"
  | unrealizedCast => "unrealized_conversion_cast"
  | constant => "constant"
  | addi => "addi"
  | addf => "addf"
  | subi => "subi"
  | subf => "subf"
  | muli => "muli"
  | mulf => "mulf"
  | minsi => "minsi"
  | maxsi => "maxsi"
  | minf => "minf"
  | maxf => "maxf"
  | cmpi => "cmpi"
  | cmpf => "cmpf"
  | select => "select"
  | extsi => "extsi"
  | extf => "extf"
  | reduction => "reduction"
  | broadcast => "broadcast"
  | extract => "extract"
  | transferRead => "transfer_read"
  | upd => "upd"
  | ups => "ups"
  | srs => "srs"
  | cast => "cast"
  | concat => "concat"
  | ext => "ext"
  | shift => "shift"
  | extElem => "ext_elem"
  | broadcastLane => "broadcast"
  | broadcastScalar => "broadcast_scalar"
  | add => "add"
  | sub => "sub"
  | mul => "mul"
  | fma => "fma"
  | addElem => "add_elem"
  | subElem => "sub_elem"
  | mulElem => "mul_elem"
  | fmaElem => "fma_elem"
  | min => "min"
  | max => "max"
  | cmp => "cmp"
  | sel => "sel"

/-- The full name, dialect first: `aievec.broadcast`. -/
def text (k : OpKind) : String := k.dialect.name ++ "." ++ k.mnemonic

instance : ToString OpKind := ⟨text⟩

/-- The position of a kind in the declaration order. -/
def position (k : OpKind) : Nat := all.idxOf k

/-- The kind of the given full name. -/
def ofText? (s : String) : Option OpKind := all.find? fun k => k.text == s

/-- Whether an operation of this kind does nothing but compute its results. -/
def isPure (k : OpKind) : Bool := k != ret

end OpKind

end SimdLowering
