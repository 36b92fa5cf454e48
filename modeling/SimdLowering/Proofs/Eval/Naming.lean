/-
Names do not matter to the value of an operation.

A frame carries the name of the operation and the names of the values it reads, and both
are only there for messages. So if two frames agree in everything else, what one of them
evaluates to the other evaluates to as well. A rewrite renames operands; this is why it can.

Failures are not compared: they name what failed. The relation on runs is therefore one of
answers only, and it goes through every sequence of steps, which is all that evaluation is
built from.
-/
import SimdLowering.Eval.Frame
import SimdLowering.Proofs.Runs
import Mathlib.Data.List.Forall2

set_option autoImplicit false

namespace SimdLowering

/-- Whatever the first run answers, the second answers too. -/
def Follows {ε α : Type} (x y : Except ε α) : Prop := ∀ a, x = .ok a → y = .ok a

namespace Follows

variable {ε α β : Type} {x y : Except ε α}

/-- Every answer follows itself. -/
theorem refl (x : Except ε α) : Follows x x := fun _ h => h

/-- Where there is no answer, there is nothing to follow. -/
theorem error {e : ε} : Follows (.error e) y := fun _ h => by cases h

/-- Steps follow each other if their parts do. -/
theorem bind {f f' : α → Except ε β} (hx : Follows x y) (hf : ∀ a, Follows (f a) (f' a)) :
    Follows (x >>= f) (y >>= f') := by
  intro b hb
  obtain ⟨a, ha, hfa⟩ := bind_eq_ok.mp hb
  exact bind_eq_ok.mpr ⟨a, hx a ha, hf a b hfa⟩

/-- What becomes of an answer is the same on both sides. -/
theorem map {f : α → β} (hx : Follows x y) : Follows (f <$> x) (f <$> y) := by
  intro b hb
  obtain ⟨a, ha, hfa⟩ := map_eq_ok.mp hb
  exact map_eq_ok.mpr ⟨a, hx a ha, hfa⟩

/-- The two sides branch on the same condition. -/
theorem ite {c : Prop} [Decidable c] {x' y' : Except ε α} (h : Follows x y) (h' : Follows x' y') :
    Follows (if c then x else x') (if c then y else y') := by
  split
  · exact h
  · exact h'

/-- Over two lists whose members correspond, step follows step. -/
theorem foldlM {γ : Type} {R : γ → γ → Prop} {f : β → γ → Except ε β} {l l' : List γ}
    (h : List.Forall₂ R l l') (hf : ∀ b c c', R c c' → Follows (f b c) (f b c')) (b : β) :
    Follows (l.foldlM f b) (l'.foldlM f b) := by
  induction h generalizing b with
  | nil => exact refl _
  | cons hR _ ih =>
    rw [List.foldlM_cons, List.foldlM_cons]
    exact (hf b _ _ hR).bind fun b => ih b

end Follows

/-- The slots hold the same value of the same type. -/
def Slot.Alike (s s' : Slot) : Prop := s.ty = s'.ty ∧ s.value = s'.value

namespace Frame

/-- The frames differ in names at most. -/
structure Alike (f f' : Frame) : Prop where
  kind : f.kind = f'.kind
  attrs : f.attrs = f'.attrs
  slots : List.Forall₂ Slot.Alike f.slots f'.slots
  resultTy : f.resultTy = f'.resultTy

variable {f f' : Frame} {α : Type}

/-- Slots that are alike hold the same value, if the first holds any. -/
theorem slotValue_follows {s s' : Slot} (h : s.Alike s') :
    Follows (slotValue s) (slotValue s') := by
  unfold slotValue
  rw [h.2]
  cases s'.value with
  | none => exact .error
  | some x => exact .refl _

/-- Slots that are alike have one type, and one fault if they have none. -/
theorem slotTy_eq {s s' : Slot} (h : s.Alike s') : slotTy s = slotTy s' := by
  unfold slotTy
  rw [h.1]

/-- Slots that hold the same address the same cell. -/
theorem cellNumber_follows (shape : List Nat) {slots slots' : List Slot}
    (h : List.Forall₂ Slot.Alike slots slots') :
    Follows (cellNumber shape slots) (cellNumber shape slots') := by
  have hzip : List.Forall₂ (fun p p' : Nat × Slot => p.1 = p'.1 ∧ p.2.Alike p'.2)
      (shape.zip slots) (shape.zip slots') := by
    induction h generalizing shape with
    | nil => simp
    | cons hs _ ih =>
      cases shape with
      | nil => simp
      | cons dim shape => exact .cons ⟨rfl, hs⟩ (ih shape)
  refine Follows.foldlM hzip (fun base p p' hp => ?_) 0
  obtain ⟨dim, s⟩ := p
  obtain ⟨dim', s'⟩ := p'
  obtain ⟨rfl, hs⟩ := hp
  exact (((slotValue_follows hs).bind fun _ => .refl _ : Follows (indexOf s) (indexOf s'))).bind
    fun _ => .refl _

/-- The slots of a read are split in the same way. -/
theorem split?_follows {slots slots' : List Slot} (h : List.Forall₂ Slot.Alike slots slots') :
    ∀ x, MemAccess.split? (fun s => Ty.memoryRank <$> slotTy s) slots = .ok x →
      ∃ y, MemAccess.split? (fun s => Ty.memoryRank <$> slotTy s) slots' = .ok y ∧
        match x, y with
        | none, none => True
        | some a, some a' => a.source.Alike a'.source ∧
            List.Forall₂ Slot.Alike a.indices a'.indices ∧
            Option.Rel Slot.Alike a.trailing a'.trailing
        | _, _ => False := by
  intro x hx
  cases h with
  | nil =>
    cases hx
    exact ⟨none, rfl, trivial⟩
  | @cons s s' rest rest' hs hrest =>
    rw [MemAccess.split?] at hx ⊢
    obtain ⟨n, hn, hx⟩ := bind_eq_ok.mp hx
    rw [slotTy_eq hs] at hn
    rw [hn]
    -- There are as many slots on both sides, so there are too few for the rank on both or on
    -- neither.
    have hlen := hrest.length_eq
    by_cases hshort : rest.length < n
    · rw [if_pos hshort] at hx
      cases hx
      refine ⟨none, ?_, trivial⟩
      simp only [bind, Except.bind]
      rw [if_pos (hlen ▸ hshort)]
      rfl
    · rw [if_neg hshort] at hx
      cases hx
      refine ⟨some ⟨s', rest'.take n, (rest'.drop n).head?⟩, ?_, hs, ?_, ?_⟩
      · simp only [bind, Except.bind]
        rw [if_neg (hlen ▸ hshort)]
        rfl
      · exact List.forall₂_take n hrest
      -- What trails is the first of what is left over.
      · have hdrop := List.forall₂_drop n hrest
        dsimp only
        generalize rest.drop n = tail at hdrop
        generalize rest'.drop n = tail' at hdrop
        cases hdrop with
        | nil => exact .none
        | cons hR _ => exact .some hR

section

variable (h : Alike f f')
include h

/-- Slot for slot, the same is there. -/
theorem slot_alike (i : Nat) : Option.Rel Slot.Alike f.slots[i]? f'.slots[i]? := by
  have hs := h.slots
  generalize f.slots = slots at hs
  generalize f'.slots = slots' at hs
  induction hs generalizing i with
  | nil => exact .none
  | cons hR _ ih =>
    cases i with
    | zero => exact .some hR
    | succ i => exact ih i

/-- Operands follow each other, since they are read from slots that are alike. -/
theorem operand_follows (i : Nat) : Follows (f.operand i) (f'.operand i) := by
  unfold operand
  have hi := slot_alike h i
  generalize f.slots[i]? = s at hi
  generalize f'.slots[i]? = s' at hi
  cases hi with
  | none => exact .error
  | some hR => exact slotValue_follows hR

theorem lanes_follows (i : Nat) : Follows (f.lanes i) (f'.lanes i) := (operand_follows h i).map

theorem operandTy_follows (i : Nat) : Follows (f.operandTy i) (f'.operandTy i) := by
  unfold operandTy
  have hi := slot_alike h i
  generalize f.slots[i]? = s at hi
  generalize f'.slots[i]? = s' at hi
  cases hi with
  | none => exact .error
  | some hR =>
    dsimp only
    rw [slotTy_eq hR]
    exact .refl _

theorem operandKind_follows (i : Nat) : Follows (f.operandKind i) (f'.operandKind i) :=
  (operandTy_follows h i).map

theorem scalarOperand_follows (i : Nat) : Follows (f.scalarOperand i) (f'.scalarOperand i) := by
  refine (lanes_follows h i).bind fun l => ?_
  split
  · exact .refl _
  · exact .error

theorem laneAt_follows (i lane : Nat) : Follows (f.laneAt i lane) (f'.laneAt i lane) := by
  refine (lanes_follows h i).bind fun l => ?_
  split
  · exact .refl _
  · exact .error

/-- The types of the results are the same. -/
theorem result_follows : Follows f.result f'.result := by
  unfold result
  rw [h.resultTy]
  split
  · exact .refl _
  · exact .error

theorem resultLanes_follows : Follows f.resultLanes f'.resultLanes := (result_follows h).map

/-- So are the values that lanes are shaped to. -/
theorem finish_follows (lanes : List Lane) : Follows (f.finish lanes) (f'.finish lanes) := by
  refine (result_follows h).bind fun ty => ?_
  split
  · exact .refl _
  · exact .ite .error .error

theorem finishMask_follows (marks : List Bool) :
    Follows (f.finishMask marks) (f'.finishMask marks) :=
  .ite .error (finish_follows h _)

/-- Lanewise work goes by the lanes and the types. -/
theorem lanewiseIf_follows (able : Bool) (op : Lane → Lane → Lane) :
    Follows (f.lanewiseIf able op) (f'.lanewiseIf able op) := by
  refine (lanes_follows h 0).bind fun l => ?_
  refine (lanes_follows h 1).bind fun r => ?_
  refine (resultLanes_follows h).bind fun n => ?_
  exact .ite .error (.ite .error (finish_follows h _))

theorem lanewise_follows (op : Lane → Lane → Lane) :
    Follows (f.lanewise op) (f'.lanewise op) := lanewiseIf_follows h true op

theorem evalConstant_follows : Follows f.evalConstant f'.evalConstant := by
  unfold evalConstant
  rw [h.attrs]
  have filled : ∀ lane : Lane, Follows
      (do
        let n ← f.resultLanes
        f.finish (List.replicate n lane))
      (do
        let n ← f'.resultLanes
        f'.finish (List.replicate n lane)) :=
    fun _ => (resultLanes_follows h).bind fun _ => finish_follows h _
  split
  · exact filled _
  · exact filled _
  · exact filled _
  · exact .error

theorem evalExtremum_follows (pick : ElemKind → Lane → Lane → Lane) :
    Follows (f.evalExtremum pick) (f'.evalExtremum pick) :=
  (operandKind_follows h 0).bind fun kind => lanewiseIf_follows h kind.orders (pick kind)

/-- The predicate is an attribute, and attributes are the same. -/
theorem evalCmpi_follows : Follows f.evalCmpi f'.evalCmpi := by
  unfold evalCmpi
  rw [h.attrs]
  split
  · exact .error
  · exact (operandKind_follows h 0).bind fun kind => lanewiseIf_follows h kind.views _

/-- So is that of a comparison of floats. -/
theorem evalCmpf_follows : Follows f.evalCmpf f'.evalCmpf := by
  unfold evalCmpf
  rw [h.attrs]
  split
  · exact .error
  · exact lanewise_follows h _

theorem evalSelect_follows : Follows f.evalSelect f'.evalSelect := by
  refine (lanes_follows h 0).bind fun c => ?_
  refine (lanes_follows h 1).bind fun t => ?_
  refine (lanes_follows h 2).bind fun e => ?_
  exact (Follows.refl _).bind fun l => finish_follows h l

/-- A conversion goes by the types of what it reads and gives. -/
theorem evalConversion_follows : Follows f.evalConversion f'.evalConversion := by
  refine (lanes_follows h 0).bind fun src => ?_
  refine (operandKind_follows h 0).bind fun kind => ?_
  refine (result_follows h).bind fun ty => ?_
  unfold convertLanes
  rw [h.attrs, h.kind]
  exact (Follows.refl _).bind fun lanes => finish_follows h lanes

theorem evalCast_follows : Follows f.evalCast f'.evalCast := by
  refine (operandTy_follows h 0).bind fun srcTy => ?_
  refine (result_follows h).bind fun dstTy => ?_
  refine (lanes_follows h 0).bind fun src => ?_
  exact .ite (finishMask_follows h _) (.ite (.ite .error (finish_follows h _)) (finish_follows h _))

/-- The combining kind is an attribute as well. -/
theorem evalReduction_follows : Follows f.evalReduction f'.evalReduction := by
  unfold evalReduction
  rw [h.attrs]
  split
  · exact .error
  · refine (operandKind_follows h 0).bind fun kind => ?_
    refine (lanes_follows h 0).bind fun l => ?_
    split
    · exact .error
    · exact .ite .error (finish_follows h _)

theorem evalSplat_follows : Follows f.evalSplat f'.evalSplat := by
  refine (lanes_follows h 0).bind fun l => ?_
  split
  · exact .error
  · exact (resultLanes_follows h).bind fun n => finish_follows h _

theorem evalLaneSplat_follows : Follows f.evalLaneSplat f'.evalLaneSplat := by
  unfold evalLaneSplat
  rw [h.attrs]
  refine (laneAt_follows h 0 _).bind fun lane => ?_
  exact (resultLanes_follows h).bind fun n => finish_follows h _

theorem evalExt_follows : Follows f.evalExt f'.evalExt := by
  unfold evalExt
  rw [h.attrs]
  refine (resultLanes_follows h).bind fun n => ?_
  refine (lanes_follows h 0).bind fun src => ?_
  exact .ite .error (.ite (finish_follows h _) .error)

theorem evalShift_follows : Follows f.evalShift f'.evalShift := by
  refine (resultLanes_follows h).bind fun n => ?_
  refine (scalarOperand_follows h 2).bind fun bytes => ?_
  refine (result_follows h).bind fun ty => ?_
  dsimp only
  split
  · exact .error
  · refine (lanes_follows h 0).bind fun l => ?_
    refine (lanes_follows h 1).bind fun r => ?_
    exact .ite .error (.ite (finish_follows h _) .error)

/-- So are the selections of a multiply-add. -/
theorem evalFma_follows : Follows f.evalFma f'.evalFma := by
  unfold evalFma
  rw [h.attrs]
  refine (lanes_follows h 0).bind fun l => ?_
  refine (lanes_follows h 1).bind fun r => ?_
  refine (lanes_follows h 2).bind fun acc => ?_
  split
  · exact .error
  · exact finish_follows h _

theorem evalCmp_follows : Follows f.evalCmp f'.evalCmp := by
  unfold evalCmp
  rw [h.attrs]
  split
  · exact .error
  · refine (operandKind_follows h 0).bind fun kind => ?_
    refine (lanes_follows h 0).bind fun l => ?_
    exact (lanes_follows h 1).bind fun r => .ite .error (finishMask_follows h _)

theorem evalSel_follows : Follows f.evalSel f'.evalSel := by
  refine (lanes_follows h 0).bind fun t => ?_
  refine (lanes_follows h 1).bind fun e => ?_
  refine (scalarOperand_follows h 2).bind fun mask => ?_
  exact .ite .error ((Follows.refl _).bind fun l => finish_follows h l)

/-- A concatenation reads all the slots in order, and there are as many on both sides. -/
theorem evalConcat_follows :
    Follows (do
      let parts ← (List.range f.slots.length).mapM f.lanes
      f.finish parts.flatten)
    (do
      let parts ← (List.range f'.slots.length).mapM f'.lanes
      f'.finish parts.flatten) := by
  rw [h.slots.length_eq]
  refine Follows.bind ?_ fun parts => finish_follows h _
  generalize List.range f'.slots.length = l
  induction l with
  | nil => exact .refl _
  | cons i l ih =>
    rw [List.mapM_cons, List.mapM_cons]
    exact (lanes_follows h i).bind fun _ => ih.bind fun _ => .refl _

/-- Whether a shuffle is the standard one is a matter of attributes. -/
theorem requireStandardShuffle_follows :
    Follows f.requireStandardShuffle f'.requireStandardShuffle := by
  unfold requireStandardShuffle
  rw [h.attrs]
  split
  · exact .refl _
  · exact .error

/-- A read is the only evaluation that sorts its slots before it looks at them. -/
theorem evalLoad_follows : Follows f.evalLoad f'.evalLoad := by
  intro x hx
  unfold evalLoad at hx ⊢
  obtain ⟨a, ha, hx⟩ := bind_eq_ok.mp hx
  obtain ⟨a', ha', hrel⟩ := split?_follows h.slots a ha
  rw [ha']
  simp only [bind, Except.bind]
  cases a with
  | none => cases hx
  | some a =>
    cases a' with
    | none => cases hrel
    | some a' =>
      obtain ⟨hsource, hindices, htrailing⟩ := hrel
      dsimp only at hx ⊢
      -- The accesses are of one form; from here on both sides go through the same steps.
      refine (?_ : Follows _ _) x hx
      rw [slotTy_eq hsource]
      refine Follows.bind (.refl _) fun ty => ?_
      split
      · refine (slotValue_follows hsource).bind fun cells => ?_
        refine (cellNumber_follows _ hindices).bind fun base => ?_
        refine (resultLanes_follows h).bind fun n => ?_
        rw [h.kind, h.attrs]
        generalize a.trailing = trailing at htrailing ⊢
        generalize a'.trailing = trailing' at htrailing ⊢
        split
        · cases htrailing with
          | none => exact .ite .error (.ite .error (finish_follows h _))
          | some _ => exact .error
        · cases htrailing with
          | none =>
            refine (result_follows h).bind fun ty => ?_
            exact .ite .error (.ite .error (finish_follows h _))
          | some hs =>
            refine (slotValue_follows hs).map.bind fun carried => ?_
            refine (result_follows h).bind fun ty => ?_
            exact .ite .error (.ite .error (finish_follows h _))
      · exact .error

/-- What a frame evaluates to does not depend on the names in it. -/
theorem eval_follows : Follows f.eval f'.eval := by
  have shuffled : ∀ {x y : Except EvalError RtValue}, Follows x y → Follows
      (do f.requireStandardShuffle; x) (do f'.requireStandardShuffle; y) :=
    fun hxy => (requireStandardShuffle_follows h).bind fun _ => hxy
  unfold eval
  rw [h.kind]
  generalize f'.kind = k
  cases k
  case constant => exact evalConstant_follows h
  case addi | addf | addElem | subi | subf | subElem | muli | mulf | mulElem =>
    exact lanewise_follows h _
  case add | sub | mul => exact shuffled (lanewise_follows h _)
  case minsi | minf | min | maxsi | maxf | max => exact evalExtremum_follows h _
  case cmpi => exact evalCmpi_follows h
  case cmpf => exact evalCmpf_follows h
  case select => exact evalSelect_follows h
  case extsi | extf | cast | ups | srs => exact evalConversion_follows h
  case unrealizedCast => exact evalCast_follows h
  case reduction => exact evalReduction_follows h
  case broadcast | broadcastScalar => exact evalSplat_follows h
  case extract =>
    rw [h.attrs]
    exact (laneAt_follows h 0 _).bind fun lane => finish_follows h _
  case broadcastLane => exact evalLaneSplat_follows h
  case extElem =>
    refine (scalarOperand_follows h 1).bind fun lane => ?_
    exact (laneAt_follows h 0 _).bind fun lane => finish_follows h _
  case transferRead | upd => exact evalLoad_follows h
  case concat => exact evalConcat_follows h
  case ext => exact evalExt_follows h
  case shift => exact evalShift_follows h
  case fma => exact shuffled (evalFma_follows h)
  case fmaElem => exact evalFma_follows h
  case cmp => exact evalCmp_follows h
  case sel => exact evalSel_follows h
  case func | ret => exact .error

end

end Frame

end SimdLowering
