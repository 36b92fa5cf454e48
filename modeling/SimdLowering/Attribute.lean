/-
Attributes: named constants that an operation carries.

An operation has at most one attribute of each name, and whoever lists them
lists them by name in ascending order, whatever the order they were given in.
The dictionary keeps itself sorted, so that the order is a property of the
value and not of the code that prints it. Names are compared code point by
code point, which is also the order of their encoded bytes.
-/
import SimdLowering.Ty
import SimdLowering.Predicate
import SimdLowering.AccessMap
import SimdLowering.Number.Power

set_option autoImplicit false

namespace SimdLowering

/-- A constant attached to an operation. Integers are the signed reading of a
64-bit word. -/
inductive Attribute where
  | unit
  | bool (value : Bool)
  | int (value : Int)
  | float (value : Float)
  | str (value : String)
  | type (ty : Ty)
  | list (items : List Attribute)
  | intPredicate (p : IntPredicate)
  | floatPredicate (p : FloatPredicate)
  | combining (kind : CombiningKind)
  | map (m : AccessMap)
  deriving Repr, Inhabited

namespace Attribute

/-- The integer attribute whose word, read without a sign, is `n`. -/
def ofUnsigned (n : Nat) : Attribute := .int (Int.bmod n (twoPow 64))

/-- The value of an integer attribute. -/
def int? : Attribute → Option Int
  | int v => some v
  | _ => none

/-- The value of a float attribute. -/
def float? : Attribute → Option Float
  | float v => some v
  | _ => none

/-- The value of a truth attribute. -/
def bool? : Attribute → Option Bool
  | bool b => some b
  | _ => none

/-- The value of a text attribute. -/
def str? : Attribute → Option String
  | str s => some s
  | _ => none

end Attribute

/-- The attributes of one operation, by ascending name. -/
structure AttrDict where
  entries : List (String × Attribute)
  deriving Repr, Inhabited

namespace AttrDict

/-- No attributes. -/
def empty : AttrDict := ⟨[]⟩

/-- The attribute of the given name. -/
def get? (d : AttrDict) (name : String) : Option Attribute := d.entries.lookup name

/-- Put an entry in its place, over an entry of the same name. -/
def insertEntry (name : String) (value : Attribute) :
    List (String × Attribute) → List (String × Attribute)
  | [] => [(name, value)]
  | (n, v) :: rest =>
    if name < n then (name, value) :: (n, v) :: rest
    else if name = n then (name, value) :: rest
    else (n, v) :: insertEntry name value rest

/-- The dictionary with `name` standing for `value`. -/
def set (d : AttrDict) (name : String) (value : Attribute) : AttrDict :=
  ⟨insertEntry name value d.entries⟩

/-- The dictionary of a list of entries; of two entries of one name the later
counts. -/
def ofList (entries : List (String × Attribute)) : AttrDict :=
  entries.foldl (fun d e => d.set e.1 e.2) empty

/-- Looking up after an insertion: the new entry is found under its name, and
every other name finds what it found before. -/
theorem lookup_insertEntry (name key : String) (value : Attribute)
    (l : List (String × Attribute)) :
    (insertEntry name value l).lookup key = if key = name then some value else l.lookup key := by
  induction l with
  | nil =>
    by_cases h : key = name
    · subst h; simp [insertEntry]
    · simp [insertEntry, List.lookup_cons, beq_false_of_ne h, h]
  | cons e rest ih =>
    obtain ⟨n, v⟩ := e
    by_cases h : key = name
    · subst h
      by_cases hn : key = n
      · subst hn; simp [insertEntry]
      · by_cases hlt : key < n
        · simp [insertEntry, hlt]
        · rw [insertEntry, if_neg hlt, if_neg hn]
          simpa [List.lookup_cons, beq_false_of_ne hn] using ih
    · have hk := beq_false_of_ne h
      by_cases hlt : name < n
      · simp [insertEntry, hlt, List.lookup_cons, hk, h]
      · by_cases hn : name = n
        · subst hn; simp [insertEntry, List.lookup_cons, hk, h]
        · simp [insertEntry, hlt, hn, List.lookup_cons, ih, h]

/-- Setting an attribute changes what its own name stands for, and nothing
else. -/
theorem get?_set (d : AttrDict) (name key : String) (value : Attribute) :
    (d.set name value).get? key = if key = name then some value else d.get? key :=
  lookup_insertEntry name key value d.entries

/-- The names, in ascending order. -/
def names (d : AttrDict) : List String := d.entries.map Prod.fst

/-- The integer of the given name. -/
def int? (d : AttrDict) (name : String) : Option Int := (d.get? name).bind Attribute.int?

/-- The truth value of the given name. -/
def bool? (d : AttrDict) (name : String) : Option Bool := (d.get? name).bind Attribute.bool?

/-- The text of the given name. -/
def str? (d : AttrDict) (name : String) : Option String := (d.get? name).bind Attribute.str?

end AttrDict

/-! ## Names that operations give their attributes -/

namespace AttrName

/-- The value of a constant. -/
def value : String := "value"
/-- The name of a function. -/
def symName : String := "sym_name"
/-- The predicate of a generic comparison. -/
def predicate : String := "predicate"
/-- The combining function of a reduction. -/
def kind : String := "kind"
/-- The lane an extract reads. -/
def position : String := "position"
/-- The access map of a strided read. -/
def permutationMap : String := "permutation_map"
/-- The bit offset a load writes at. -/
def offset : String := "offset"
/-- The part number of a load or of a slice. -/
def index : String := "index"
/-- The fixed-point shift of a move into or out of the accumulator. -/
def shift : String := "shift"
/-- Whether a cast results in accumulator form. -/
def isResAcc : String := "is_res_acc"
/-- Whether a byte shift works on accumulators. -/
def isAcc : String := "is_acc"
/-- The lane a splat copies. -/
def idx : String := "idx"
/-- The predicate of a target comparison. -/
def pred : String := "pred"
/-- Whether the product is taken off the accumulator. -/
def fmsub : String := "fmsub"

end AttrName

/-! ## What particular attributes say -/

namespace AttrDict

/-- The predicate of an integer comparison. -/
def intPredicate? (d : AttrDict) : Option IntPredicate :=
  match d.get? AttrName.predicate with
  | some (.intPredicate p) => some p
  | _ => none

/-- The predicate of a float comparison. -/
def floatPredicate? (d : AttrDict) : Option FloatPredicate :=
  match d.get? AttrName.predicate with
  | some (.floatPredicate p) => some p
  | _ => none

/-- The combining function of a reduction. -/
def combiningKind? (d : AttrDict) : Option CombiningKind :=
  match d.get? AttrName.kind with
  | some (.combining k) => some k
  | _ => none

/-- The access map of a strided read. -/
def accessMap? (d : AttrDict) : Option AccessMap :=
  match d.get? AttrName.permutationMap with
  | some (.map m) => some m
  | _ => none

/-- The integer of the given name; zero where none is given. -/
def intOrZero (d : AttrDict) (name : String) : Int := (d.int? name).getD 0

end AttrDict

end SimdLowering
