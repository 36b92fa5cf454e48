/-
Lane shuffles of the first generation.

The first generation's add, subtract, multiply and multiply-add select the
lanes of their two multiplicand operands by five texts each. An empty text
leaves the hardware's own choice in place; instructions with nothing but empty
texts read their lanes in order.
-/
import SimdLowering.Draft

set_option autoImplicit false

namespace SimdLowering

/-- Lane selection for one operand. -/
structure LaneSelect where
  start : String
  offsets : String
  offsetsHi : String
  step : String
  square : String
  deriving DecidableEq, Repr, Inhabited

namespace LaneSelect

/-- The hardware's own choice. -/
def standard : LaneSelect := ⟨"", "", "", "", ""⟩

end LaneSelect

/-- Lane selection for the first operand, `x`, and the second, `z`. -/
structure Shuffle where
  x : LaneSelect
  z : LaneSelect
  deriving DecidableEq, Repr, Inhabited

namespace Shuffle

/-- The hardware's own choice for both operands. -/
def standard : Shuffle := ⟨.standard, .standard⟩

/-- The selection texts that every shuffled instruction has. -/
def baseAttrs (s : Shuffle) : List (String × Attribute) :=
  [("xstart", .str s.x.start), ("xoffsets", .str s.x.offsets),
    ("xoffsets_hi", .str s.x.offsetsHi), ("xsquare", .str s.x.square),
    ("zstart", .str s.z.start), ("zoffsets", .str s.z.offsets),
    ("zoffsets_hi", .str s.z.offsetsHi), ("zsquare", .str s.z.square)]

/-- The steps, which only multiplying instructions have. -/
def stepAttrs (s : Shuffle) : List (String × Attribute) :=
  [("xstep", .str s.x.step), ("zstep", .str s.z.step)]

/-- Put the selection texts on a draft. -/
def applyTo {α : Type} (s : Shuffle) (withStep : Bool) (d : Draft α) : Draft α :=
  (s.baseAttrs ++ (if withStep then s.stepAttrs else [])).foldl (fun d e => d.withAttr e.1 e.2) d

/-- Read the selection texts back; a missing one is empty. -/
def ofAttrs (d : AttrDict) : Shuffle :=
  let text := fun name => (d.str? name).getD ""
  ⟨⟨text "xstart", text "xoffsets", text "xoffsets_hi", text "xstep", text "xsquare"⟩,
    ⟨text "zstart", text "zoffsets", text "zoffsets_hi", text "zstep", text "zsquare"⟩⟩

/-- Whether all texts are empty. -/
def isStandard (s : Shuffle) : Bool := s == standard

end Shuffle

end SimdLowering
