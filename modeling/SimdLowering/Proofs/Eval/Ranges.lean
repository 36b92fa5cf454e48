/-
Whatever an operation computes is in the range of its type.

However an operation computes its lanes, it gives them to the type of its result in the end, and
that brings each of them into range. So nothing that a run binds is out of range unless an
argument is, for any function and whatever it computes.

There may be fewer lanes than the type asks for: a concatenation takes what it gets.
-/
import SimdLowering.Proofs.Eval.Lanes

set_option autoImplicit false

namespace SimdLowering

/-- The lanes of the value are in the range of the type. -/
def RtValue.Normal (x : RtValue) (ty : Ty) : Prop := ∀ a ∈ x.lanes, a.normalize (.ofTy ty) = a

namespace Frame

variable {f : Frame} {α : Type} {e : Except EvalError RtValue} {lanes : List Lane} {ty : Ty}
  {x : RtValue}

/-- What is shaped as the type has it is in range. -/
theorem normal_of_shapeAs (h : shapeAs ty lanes = some x) : x.Normal ty := by
  intro a ha
  obtain ⟨c, -, rfl⟩ := List.mem_map.mp ((lanes_of_shapeAs h).1.subset ha)
  exact Lane.normalize_normalize _ c

/-- Whatever the evaluation gives is in the range of the type of the result. -/
def GivesNormal (f : Frame) (e : Except EvalError RtValue) : Prop :=
  ∀ x, e = .ok x → ∃ ty, f.resultTy = some ty ∧ x.Normal ty

namespace GivesNormal

/-- A run that gives up gives nothing out of range. -/
theorem error {err : EvalError} : f.GivesNormal (.error err) := nofun

/-- Lanes given the type of the result are brought into its range. -/
theorem finish (lanes : List Lane) : f.GivesNormal (f.finish lanes) := by
  intro x hx
  obtain ⟨ty, hty, hshape⟩ := finish_eq_ok.mp hx
  exact ⟨ty, hty, normal_of_shapeAs hshape⟩

/-- Only the last step counts. -/
theorem bind {r : Except EvalError α} {next : α → Except EvalError RtValue}
    (h : ∀ a, f.GivesNormal (next a)) : f.GivesNormal (r >>= next) := by
  intro x hx
  obtain ⟨a, -, hnext⟩ := bind_eq_ok.mp hx
  exact h a x hnext

/-- Whichever branch is taken. -/
theorem ite {c : Prop} [Decidable c] {e' : Except EvalError RtValue} (h : f.GivesNormal e)
    (h' : f.GivesNormal e') : f.GivesNormal (if c then e else e') := by
  split
  · exact h
  · exact h'

end GivesNormal

open SimdLowering.Frame.GivesNormal

/-! ## The kinds -/

variable (f)

/-- A mask is brought into range like any other value. -/
theorem finishMask_normal (marks : List Bool) : f.GivesNormal (f.finishMask marks) :=
  .ite .error (.finish _)

/-- So is the outcome of lanewise work. -/
theorem lanewiseIf_normal (able : Bool) (h : Lane → Lane → Lane) :
    f.GivesNormal (f.lanewiseIf able h) :=
  .bind fun _ => .bind fun _ => .bind fun _ => .ite .error (.ite .error (.finish _))

theorem lanewise_normal (h : Lane → Lane → Lane) : f.GivesNormal (f.lanewise h) :=
  f.lanewiseIf_normal true h

/-- A constant is in the range of its type, whatever its attribute holds. -/
theorem evalConstant_normal : f.GivesNormal f.evalConstant := by
  unfold evalConstant
  cases f.attrs.get? AttrName.value with
  | none => exact .error
  | some value =>
    cases value with
    | float | int | bool => exact .bind fun _ => .bind fun _ => .finish _
    | _ => exact .error

theorem evalExtremum_normal (pick : ElemKind → Lane → Lane → Lane) :
    f.GivesNormal (f.evalExtremum pick) := .bind fun _ => f.lanewiseIf_normal _ _

theorem evalCmpi_normal : f.GivesNormal f.evalCmpi := by
  unfold evalCmpi
  split
  · exact .error
  · exact .bind fun _ => f.lanewiseIf_normal _ _

theorem evalCmpf_normal : f.GivesNormal f.evalCmpf := by
  unfold evalCmpf
  split
  · exact .error
  · exact f.lanewise_normal _

theorem evalSelect_normal : f.GivesNormal f.evalSelect :=
  .bind fun _ => .bind fun _ => .bind fun _ => .bind fun _ => .finish _

theorem evalConversion_normal : f.GivesNormal f.evalConversion :=
  .bind fun _ => .bind fun _ => .bind fun _ => .bind fun _ => .finish _

theorem evalCast_normal : f.GivesNormal f.evalCast :=
  .bind fun _ => .bind fun _ => .bind fun _ =>
    .ite (f.finishMask_normal _) (.ite (.ite .error (.finish _)) (.finish _))

/-- A fold is brought into range at the end. -/
theorem evalReduction_normal : f.GivesNormal f.evalReduction := by
  unfold evalReduction
  split
  · exact .error
  · refine .bind fun _ => .bind fun l => ?_
    cases l with
    | nil => exact .error
    | cons first rest => exact .ite .error (.finish _)

theorem evalSplat_normal : f.GivesNormal f.evalSplat := by
  refine .bind fun l => ?_
  cases l.head? with
  | none => exact .error
  | some lane => exact .bind fun _ => .finish _

theorem evalLaneSplat_normal : f.GivesNormal f.evalLaneSplat :=
  .bind fun _ => .bind fun _ => .finish _

theorem evalExt_normal : f.GivesNormal f.evalExt :=
  .bind fun _ => .bind fun _ => .ite .error (.ite (.finish _) .error)

theorem evalShift_normal : f.GivesNormal f.evalShift :=
  .bind fun _ => .bind fun _ => .bind fun _ => .ite .error <|
    .bind fun _ => .bind fun _ => .ite .error (.ite (.finish _) .error)

theorem evalFma_normal : f.GivesNormal f.evalFma :=
  .bind fun _ => .bind fun _ => .bind fun _ => .ite .error (.finish _)

theorem evalCmp_normal : f.GivesNormal f.evalCmp := by
  unfold evalCmp
  split
  · exact .error
  · exact .bind fun _ => .bind fun _ => .bind fun _ => .ite .error (f.finishMask_normal _)

theorem evalSel_normal : f.GivesNormal f.evalSel :=
  .bind fun _ => .bind fun _ => .bind fun _ => .ite .error (.bind fun _ => .finish _)

/-- Cells are brought into range as they are loaded. -/
theorem evalLoad_normal : f.GivesNormal f.evalLoad := by
  refine .bind fun access? => ?_
  cases access? with
  | none => exact .error
  | some access =>
    refine .bind fun source => ?_
    cases source with
    | memory shape elem =>
      refine .bind fun cells => .bind fun base => .bind fun n => ?_
      refine .ite (.ite .error (.ite .error (.finish _))) ?_
      cases access.trailing <;>
        exact .bind fun _ => .bind fun _ => .ite .error (.ite .error (.finish _))
    | _ => exact .error

/-- What an operation computes is in the range of the type of its result. -/
theorem eval_normal : f.GivesNormal f.eval := by
  unfold eval
  generalize f.kind = k
  cases k
  case constant => exact f.evalConstant_normal
  case addi | addf | addElem | subi | subf | subElem | muli | mulf | mulElem =>
    exact f.lanewise_normal _
  case add | sub | mul => exact .bind fun _ => f.lanewise_normal _
  case minsi | minf | min | maxsi | maxf | max => exact f.evalExtremum_normal _
  case cmpi => exact f.evalCmpi_normal
  case cmpf => exact f.evalCmpf_normal
  case select => exact f.evalSelect_normal
  case extsi | extf | cast | ups | srs => exact f.evalConversion_normal
  case unrealizedCast => exact f.evalCast_normal
  case reduction => exact f.evalReduction_normal
  case broadcast | broadcastScalar => exact f.evalSplat_normal
  case extract => exact .bind fun _ => .finish _
  case broadcastLane => exact f.evalLaneSplat_normal
  case extElem => exact .bind fun _ => .bind fun _ => .finish _
  case transferRead | upd => exact f.evalLoad_normal
  case concat => exact .bind fun _ => .finish _
  case ext => exact f.evalExt_normal
  case shift => exact f.evalShift_normal
  case fma => exact .bind fun _ => f.evalFma_normal
  case fmaElem => exact f.evalFma_normal
  case cmp => exact f.evalCmp_normal
  case sel => exact f.evalSel_normal
  case func | ret => exact .error

end Frame

end SimdLowering
