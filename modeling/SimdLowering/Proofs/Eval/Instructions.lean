/-
What an instruction computes from operands that are known.

An operation is evaluated in a frame, and where every operand is known, by type and value,
nothing about the graph is left in it. For each instruction that rules create, and for each
generic one that they replace, there is one lemma here. It says under which conditions on the
lanes of the operands there is a value, and which lanes are then shaped to the result. The
proofs about rules use these and do not open the evaluation again.
-/
import SimdLowering.Instr.Generic
import SimdLowering.Instr.Target
import SimdLowering.Proofs.Eval.Lanes

set_option autoImplicit false

namespace SimdLowering

/-- A value together with its type. -/
structure Known where
  ty : Ty
  value : RtValue
  deriving Inhabited

/-- The lanes of a known value. -/
abbrev Known.lanes (k : Known) : List Lane := k.value.lanes

/-- What stands in an operand slot that is known. -/
def Known.slot (k : Known) : Slot := ⟨default, some k.ty, some k.value⟩

/-- The first lane as an integer; zero if there is none. -/
def Known.number (k : Known) : Int := (k.lanes.head?.map Lane.asInt).getD 0

/-- The frame of an operation all of whose operands are known. -/
def Frame.ofKnown (kind : OpKind) (attrs : AttrDict) (ks : List Known) (ty : Ty) : Frame :=
  ⟨default, kind, attrs, ks.map Known.slot, some ty⟩

/-- A predicate is found by its name. -/
theorem IntPredicate.ofMnemonic?_mnemonic (p : IntPredicate) :
    IntPredicate.ofMnemonic? p.mnemonic = some p := by
  cases p <;> decide

/-- Whether two lanes of the given kind satisfy the predicate as the target reads it. -/
def IntPredicate.targetHolds (p : IntPredicate) (kind : ElemKind) (a b : Lane) : Bool :=
  match kind with
  | .float _ => p.floatTwin.holds a.asFloat b.asFloat
  | _ => p.holds a b kind

/-- Integers are compared as the generic comparison does. -/
theorem IntPredicate.targetHolds_int {p : IntPredicate} {kind : ElemKind} {bits : Nat}
    {sign : Signedness} (h : kind = .int bits sign) (a b : Lane) :
    p.targetHolds kind a b = p.holds a b kind := by
  rw [h]
  rfl

namespace Frame

variable {kind : OpKind} {attrs : AttrDict} {ks rest : List Known} {a b c : Known} {ty : Ty}
  {x : RtValue} {l : List Lane} {lane : Lane} {i n : Nat}

/-! ## Reading a frame -/

/-- The lanes of an operand are those of its value. -/
theorem lanes_ofKnown (h : ks[i]? = some a) :
    (ofKnown kind attrs ks ty).lanes i = .ok a.lanes := by
  simp only [lanes, operand, ofKnown, List.getElem?_map, h]
  rfl

/-- Its type is the known one. -/
theorem operandTy_ofKnown (h : ks[i]? = some a) :
    (ofKnown kind attrs ks ty).operandTy i = .ok a.ty := by
  simp only [operandTy, ofKnown, List.getElem?_map, h]
  rfl

/-- And so is the kind of its lanes. -/
theorem operandKind_ofKnown (h : ks[i]? = some a) :
    (ofKnown kind attrs ks ty).operandKind i = .ok (.ofTy a.ty) := by
  rw [operandKind, operandTy_ofKnown h]
  rfl

theorem result_ofKnown : (ofKnown kind attrs ks ty).result = .ok ty := rfl

theorem kind_ofKnown : (ofKnown kind attrs ks ty).kind = kind := rfl

theorem attrs_ofKnown : (ofKnown kind attrs ks ty).attrs = attrs := rfl

/-- The result has as many lanes as its type has. -/
theorem resultLanes_ofKnown : (ofKnown kind attrs ks ty).resultLanes = .ok (laneCount ty) := rfl

/-- The lanes of the first operand, where there is one. -/
theorem lanes_zero : (ofKnown kind attrs (a :: rest) ty).lanes 0 = .ok a.lanes := lanes_ofKnown rfl

theorem lanes_one : (ofKnown kind attrs (a :: b :: rest) ty).lanes 1 = .ok b.lanes :=
  lanes_ofKnown rfl

theorem lanes_two : (ofKnown kind attrs (a :: b :: c :: rest) ty).lanes 2 = .ok c.lanes :=
  lanes_ofKnown rfl

theorem operandTy_zero : (ofKnown kind attrs (a :: rest) ty).operandTy 0 = .ok a.ty :=
  operandTy_ofKnown rfl

theorem operandKind_zero : (ofKnown kind attrs (a :: rest) ty).operandKind 0 = .ok (.ofTy a.ty) :=
  operandKind_ofKnown rfl

/-- A scalar operand is the first lane, read as an integer. -/
theorem scalarOperand_ofKnown (h : ks[i]? = some a) (hl : a.lanes.head? = some lane) :
    (ofKnown kind attrs ks ty).scalarOperand i = .ok lane.asInt := by
  simp only [scalarOperand, lanes_ofKnown h, bind, Except.bind, hl]
  rfl

theorem scalarOperand_one (h : b.lanes.head? = some lane) :
    (ofKnown kind attrs (a :: b :: rest) ty).scalarOperand 1 = .ok lane.asInt :=
  scalarOperand_ofKnown rfl h

theorem scalarOperand_two (h : c.lanes.head? = some lane) :
    (ofKnown kind attrs (a :: b :: c :: rest) ty).scalarOperand 2 = .ok lane.asInt :=
  scalarOperand_ofKnown rfl h

/-- A lane is read exactly if it is there. -/
theorem laneAt_ofKnown (h : ks[i]? = some a) :
    (ofKnown kind attrs ks ty).laneAt i n = .ok lane ↔ a.lanes[n]? = some lane := by
  simp only [laneAt, lanes_ofKnown h, bind, Except.bind]
  cases a.lanes[n]? with
  | none => exact ⟨nofun, nofun⟩
  | some b => exact ⟨fun h => congrArg some (Except.ok.inj h), fun h => congrArg _
    (Option.some.inj h)⟩

/-- Lanes are turned into a value as their type has it. -/
theorem finish_ofKnown (kind : OpKind) (attrs : AttrDict) (ks : List Known) :
    (ofKnown kind attrs ks ty).finish l = .ok x ↔ shapeAs ty l = some x := by
  rw [finish_eq_ok]
  constructor
  · rintro ⟨t, ht, h⟩
    obtain rfl := Option.some.inj ht
    exact h
  · intro h
    exact ⟨ty, rfl, h⟩

/-- A mask has a value if every lane that holds has a bit. -/
theorem finishMask_ofKnown (kind : OpKind) (attrs : AttrDict) (ks : List Known)
    {marks : List Bool} : (ofKnown kind attrs ks ty).finishMask marks = .ok x ↔
      (marks.drop maskBits).any id = false ∧ shapeAs ty [maskLane marks] = some x := by
  rw [← finish_ofKnown kind attrs ks, finishMask]
  split
  · next h => exact ⟨nofun, fun h' => by rw [h] at h'; cases h'.1⟩
  · next h => exact ⟨fun h' => ⟨Bool.eq_false_iff.mpr h, h'⟩, fun h' => h'.2⟩

/-- A mask of no more lanes than there are bits has a bit for each. -/
theorem any_drop_maskBits {marks : List Bool} (h : marks.length ≤ maskBits) :
    (marks.drop maskBits).any id = false := by
  rw [List.drop_eq_nil_of_le h]
  rfl

/-! ## Lane by lane -/

/-- Lanewise work has an answer exactly if both operands are long enough and, unless there is
nothing to do, it can be done at all. -/
theorem lanewiseIf_ofKnown (kind : OpKind) (attrs : AttrDict) (rest : List Known) {able : Bool}
    {h : Lane → Lane → Lane} :
    (ofKnown kind attrs (a :: b :: rest) ty).lanewiseIf able h = .ok x ↔
      (laneCount ty ≤ a.lanes.length ∧ laneCount ty ≤ b.lanes.length ∧
        (laneCount ty ≠ 0 → able = true)) ∧
        shapeAs ty ((List.zipWith h a.lanes b.lanes).take (laneCount ty)) = some x := by
  simp only [lanewiseIf, lanes_zero, lanes_one, resultLanes_ofKnown, bind, Except.bind]
  split
  · next hshort =>
    refine ⟨nofun, fun h => ?_⟩
    omega
  · next hlong =>
    split
    · next hunable => exact ⟨nofun, fun h => by simp [h.1.2.2 hunable.1] at hunable⟩
    · next hable =>
      rw [finish_ofKnown]
      refine ⟨fun h => ⟨⟨by omega, by omega, fun hn => ?_⟩, h⟩, fun h => h.2⟩
      exact Bool.not_eq_false _ ▸ fun hunable => hable ⟨hn, hunable⟩

/-- Where the work can always be done, being long enough is all. -/
theorem lanewise_ofKnown (kind : OpKind) (attrs : AttrDict) (rest : List Known)
    {h : Lane → Lane → Lane} :
    (ofKnown kind attrs (a :: b :: rest) ty).lanewise h = .ok x ↔
      laneCount ty ≤ a.lanes.length ∧ laneCount ty ≤ b.lanes.length ∧
        shapeAs ty ((List.zipWith h a.lanes b.lanes).take (laneCount ty)) = some x := by
  rw [lanewise, lanewiseIf_ofKnown]
  simp [and_assoc]

/-- The function that a lanewise kind combines two lanes of the given type with. -/
def lanewiseFunction (ty : Ty) : OpKind → Option (Lane → Lane → Lane)
  | .addi | .addElem => some Lane.add
  | .subi | .subElem => some Lane.sub
  | .minsi | .min => some (Lane.minimum (.ofTy ty))
  | .maxsi | .max => some (Lane.maximum (.ofTy ty))
  | _ => none

/-- Whether a lanewise kind can combine lanes of the given type: minima and maxima have to put
them in order. -/
def lanewiseAble (ty : Ty) : OpKind → Bool
  | .minsi | .min | .maxsi | .max => (ElemKind.ofTy ty).orders
  | _ => true

/-- So for every kind that works lane by lane. -/
theorem eval_lanewise {h : Lane → Lane → Lane} (hk : lanewiseFunction a.ty kind = some h) :
    (ofKnown kind attrs (a :: b :: rest) ty).eval = .ok x ↔
      (laneCount ty ≤ a.lanes.length ∧ laneCount ty ≤ b.lanes.length ∧
        (laneCount ty ≠ 0 → lanewiseAble a.ty kind = true)) ∧
        shapeAs ty ((List.zipWith h a.lanes b.lanes).take (laneCount ty)) = some x := by
  rw [← lanewiseIf_ofKnown kind attrs rest]
  cases kind <;> cases hk <;> rfl

/-- The shuffled sum that reads its lanes in order is lanewise. -/
theorem eval_add (hs : Shuffle.ofAttrs attrs = .standard) :
    (ofKnown .add attrs ks ty).eval = (ofKnown .add attrs ks ty).lanewise Lane.add := by
  have hs : (Shuffle.ofAttrs attrs).isStandard = true := by rw [hs]; decide
  simp only [eval, ofKnown, requireStandardShuffle, hs]
  rfl

/-- The shuffled difference that reads its lanes in order is lanewise. -/
theorem eval_sub (hs : Shuffle.ofAttrs attrs = .standard) :
    (ofKnown .sub attrs ks ty).eval = (ofKnown .sub attrs ks ty).lanewise Lane.sub := by
  have hs : (Shuffle.ofAttrs attrs).isStandard = true := by rw [hs]; decide
  simp only [eval, ofKnown, requireStandardShuffle, hs]
  rfl

/-- A product is lanewise, in whatever form. -/
theorem eval_product (hk : kind = .muli ∨ kind = .mulElem) :
    (ofKnown kind attrs (a :: b :: rest) ty).eval = .ok x ↔
      laneCount ty ≤ a.lanes.length ∧ laneCount ty ≤ b.lanes.length ∧
        shapeAs ty ((List.zipWith Lane.mul a.lanes b.lanes).take (laneCount ty)) = some x := by
  rw [← lanewise_ofKnown kind attrs rest]
  rcases hk with rfl | rfl <;> rfl

/-- A multiply-add that adds, over the lanes of the accumulator. -/
theorem evalFma_ofKnown (kind : OpKind) (hsub : attrs.bool? AttrName.fmsub = some false)
    (ha : c.lanes.length ≤ a.lanes.length) (hb : c.lanes.length ≤ b.lanes.length) :
    (ofKnown kind attrs (a :: b :: c :: rest) ty).evalFma = .ok x ↔
      shapeAs ty (List.zipWith Lane.add c.lanes (List.zipWith Lane.mul a.lanes b.lanes)) =
        some x := by
  have hlen : ¬(a.lanes.length < c.lanes.length ∨ b.lanes.length < c.lanes.length) := by omega
  rw [← finish_ofKnown kind attrs (a :: b :: c :: rest)]
  simp only [evalFma, lanes_zero, lanes_one, lanes_two, attrs_ofKnown, hsub, hlen, bind,
    Except.bind, if_false, Option.getD_some, Bool.false_eq_true]

/-- The lanewise multiply-add. -/
theorem eval_fmaElem (hsub : attrs.bool? AttrName.fmsub = some false)
    (ha : c.lanes.length ≤ a.lanes.length) (hb : c.lanes.length ≤ b.lanes.length) :
    (ofKnown .fmaElem attrs (a :: b :: c :: rest) ty).eval = .ok x ↔
      shapeAs ty (List.zipWith Lane.add c.lanes (List.zipWith Lane.mul a.lanes b.lanes)) =
        some x :=
  evalFma_ofKnown .fmaElem hsub ha hb

/-- The shuffled multiply-add, where it reads its lanes in order. -/
theorem eval_fma (hs : Shuffle.ofAttrs attrs = .standard) :
    (ofKnown .fma attrs ks ty).eval = (ofKnown .fma attrs ks ty).evalFma := by
  have hs : (Shuffle.ofAttrs attrs).isStandard = true := by rw [hs]; decide
  simp only [eval, ofKnown, requireStandardShuffle, hs]
  rfl

/-! ## Constants and conversions -/

/-- A constant gives each lane its number. -/
theorem eval_constant {v : Int} (h : attrs.get? AttrName.value = some (.int v)) :
    (ofKnown .constant attrs ks ty).eval = .ok x ↔
      shapeAs ty (List.replicate (laneCount ty) (.int v)) = some x := by
  rw [← finish_ofKnown .constant attrs ks]
  simp only [eval, ofKnown, evalConstant, h]
  rfl

/-- A constant holds one lane everywhere. -/
theorem shape_of_constant (h : (ofKnown .constant attrs ks ty).eval = .ok x) :
    ∃ lane, shapeAs ty (List.replicate (laneCount ty) lane) = some x := by
  change (ofKnown .constant attrs ks ty).evalConstant = .ok x at h
  have shaped : ∀ lane, (ofKnown .constant attrs ks ty).finish
      (List.replicate (laneCount ty) lane) = .ok x →
        ∃ lane, shapeAs ty (List.replicate (laneCount ty) lane) = some x :=
    fun lane h => ⟨lane, (finish_ofKnown .constant attrs ks).mp h⟩
  unfold evalConstant at h
  dsimp only at h
  split at h
  · exact shaped _ h
  · exact shaped _ h
  · exact shaped _ h
  · cases h

/-- An extension, and a move between the two views, only bring lanes into range. -/
theorem eval_convert (hk : kind = .extsi ∨ kind = .cast) :
    (ofKnown kind attrs (a :: rest) ty).eval = .ok x ↔ shapeAs ty a.lanes = some x := by
  rw [← finish_ofKnown kind attrs (a :: rest)]
  rcases hk with rfl | rfl <;> rfl

/-- A move of integers into the accumulator. -/
theorem eval_shiftUp {bits : Nat} {sign : Signedness} (hty : ElemKind.ofTy ty = .int bits sign) :
    (ofKnown .ups attrs (a :: rest) ty).eval = .ok x ↔
      shapeAs ty (a.lanes.map fun l => .int (wrap128
        (l.asInt * twoPow (laneShift (attrs.intOrZero AttrName.shift) bits)))) = some x := by
  rw [← finish_ofKnown .ups attrs (a :: rest)]
  change (ofKnown .ups attrs (a :: rest) ty).evalConversion = .ok x ↔ _
  simp only [evalConversion, convertLanes, lanes_zero, operandKind_zero, result_ofKnown,
    attrs_ofKnown, kind_ofKnown, hty, bind, Except.bind]

/-- A move of integers into the accumulator without a shift. -/
theorem eval_ups {bits : Nat} {sign : Signedness} (hty : ElemKind.ofTy ty = .int bits sign)
    (hshift : attrs.intOrZero AttrName.shift = 0) :
    (ofKnown .ups attrs (a :: rest) ty).eval = .ok x ↔
      shapeAs ty (a.lanes.map fun l => .int (wrap128 l.asInt)) = some x := by
  have hnone : laneShift 0 bits = 0 := by simp [laneShift]
  rw [eval_shiftUp hty, hshift, hnone]
  simp only [twoPow_zero, Nat.cast_one, Int.mul_one]

/-- Narrowing rounds and saturates, if the half that rounding adds leaves no lane too large. -/
theorem narrowLanes_eq_ok {src l : List Lane} {shift bits : Nat} {sign : Signedness} :
    narrowLanes src shift bits sign = .ok l ↔ (∀ d ∈ src, roundingFits d.asInt shift = true) ∧
      src.map (fun d => .int (saturateInt (shiftRounded d.asInt shift) bits sign)) = l := by
  rw [narrowLanes, ← List.all_eq_true]
  split
  · next h => exact ⟨fun hl => ⟨h, Except.ok.inj hl⟩, fun hl => congrArg _ hl.2⟩
  · next h => exact ⟨nofun, fun hl => absurd hl.1 h⟩

/-- A move of integers out of the accumulator, where rounding leaves them in 128 bits. -/
theorem eval_shiftDown {bits : Nat} {sign : Signedness} (hty : ElemKind.ofTy ty = .int bits sign) :
    (ofKnown .srs attrs (a :: rest) ty).eval = .ok x ↔
      (∀ d ∈ a.lanes, roundingFits d.asInt
        (laneShift (attrs.intOrZero AttrName.shift) (ElemKind.ofTy a.ty).bits) = true) ∧
      shapeAs ty (a.lanes.map fun l => .int (saturateInt (shiftRounded l.asInt
        (laneShift (attrs.intOrZero AttrName.shift) (ElemKind.ofTy a.ty).bits)) bits sign)) =
          some x := by
  change (ofKnown .srs attrs (a :: rest) ty).evalConversion = .ok x ↔ _
  simp only [evalConversion, convertLanes, lanes_zero, operandKind_zero, result_ofKnown,
    attrs_ofKnown, kind_ofKnown, hty, bind_eq_ok, Except.ok.injEq, exists_eq_left',
    narrowLanes_eq_ok, finish_ofKnown, and_assoc, exists_and_left]

/-- Float lanes are moved into the accumulator and out of it without a shift. -/
theorem eval_floatMove {format : FloatFormat} (hk : kind = .ups ∨ kind = .srs)
    (hty : ElemKind.ofTy ty = .float format) :
    (ofKnown kind attrs (a :: rest) ty).eval = .ok x ↔ shapeAs ty a.lanes = some x := by
  rw [← finish_ofKnown kind attrs (a :: rest)]
  have heval : (ofKnown kind attrs (a :: rest) ty).eval =
      (ofKnown kind attrs (a :: rest) ty).evalConversion := by
    rcases hk with rfl | rfl <;> rfl
  rw [heval]
  rcases hk with rfl | rfl <;>
    simp only [evalConversion, convertLanes, lanes_zero, operandKind_zero, result_ofKnown,
      kind_ofKnown, hty, bind, Except.bind]

/-! ## Moving lanes -/

/-- A small position is read as it is. -/
theorem asWord_natCast {n : Nat} (h : n < twoPow 64) : asWord (n : Int) = n := by
  rw [asWord, Int.emod_eq_of_lt (Int.natCast_nonneg n) (by exact_mod_cast h), Int.toNat_natCast]

/-- A window that starts at a lane. -/
theorem eval_shift {bytes : Int} (hbits : (ElemKind.ofTy ty).bits ≠ 0)
    (hc : c.lanes.head? = some (.int bytes)) (hfits : fits128 (bytes * 8) = true)
    (hstart : (bytes * 8).tdiv (ElemKind.ofTy ty).bits = n) (hn : n + laneCount ty < twoPow 64)
    (hlen : n + laneCount ty ≤ (a.lanes ++ b.lanes).length)
    (h : shapeAs ty (((a.lanes ++ b.lanes).drop n).take (laneCount ty)) = some x) :
    (ofKnown .shift attrs (a :: b :: c :: rest) ty).eval = .ok x := by
  have hword : asWord n = n := asWord_natCast (by omega)
  have hnone : ¬((ElemKind.ofTy ty).bits = 0 ∨ fits128 (bytes * 8) = false) :=
    by simp [hbits, hfits]
  change (ofKnown .shift attrs (a :: b :: c :: rest) ty).evalShift = .ok x
  simp only [evalShift, lanes_zero, lanes_one, resultLanes_ofKnown, result_ofKnown,
    scalarOperand_two hc, bind, Except.bind,
    if_neg hnone, Lane.asInt, hstart, hword, if_neg (Nat.not_le.mpr hn), if_pos hlen]
  exact (finish_ofKnown ..).mpr h

/-- A slice of a vector. -/
theorem eval_ext {index : Nat} (hindex : attrs.intOrZero AttrName.index = index)
    (hi : index + 1 < twoPow 64) (hn : (index + 1) * laneCount ty < twoPow 64)
    (hlen : (index + 1) * laneCount ty ≤ a.lanes.length)
    (h : shapeAs ty ((a.lanes.drop (index * laneCount ty)).take (laneCount ty)) = some x) :
    (ofKnown .ext attrs (a :: rest) ty).eval = .ok x := by
  have hword : asWord index = index := asWord_natCast (by omega)
  have hnone : ¬(twoPow 64 ≤ index + 1 ∨ twoPow 64 ≤ (index + 1) * laneCount ty) := by omega
  change (ofKnown .ext attrs (a :: rest) ty).evalExt = .ok x
  simp only [evalExt, lanes_zero, resultLanes_ofKnown, attrs_ofKnown, hindex, hword, if_neg hnone,
    if_pos hlen, bind, Except.bind]
  exact (finish_ofKnown ..).mpr h

/-- The first lane of a vector. -/
theorem eval_extElem (hb : b.lanes.head? = some (.int 0)) (ha : a.lanes.head? = some lane)
    (h : shapeAs ty [lane] = some x) :
    (ofKnown .extElem attrs (a :: b :: rest) ty).eval = .ok x := by
  have hat : (ofKnown .extElem attrs (a :: b :: rest) ty).laneAt 0 (asWord 0) = .ok lane :=
    (laneAt_ofKnown rfl).mpr (by rw [← ha, List.head?_eq_getElem?]; rfl)
  simp only [eval, kind_ofKnown, scalarOperand_one hb,
    bind, Except.bind, Lane.asInt, hat]
  exact (finish_ofKnown ..).mpr h

/-- An extract gives the lane at its position, if it is there. -/
theorem eval_extract : (ofKnown .extract attrs (a :: rest) ty).eval = .ok x ↔
    ∃ lane, a.lanes[asWord (attrs.intOrZero AttrName.position)]? = some lane ∧
      shapeAs ty [lane] = some x := by
  have heval : (ofKnown .extract attrs (a :: rest) ty).eval =
      (ofKnown .extract attrs (a :: rest) ty).laneAt 0
          (asWord (attrs.intOrZero AttrName.position)) >>= fun lane =>
        (ofKnown .extract attrs (a :: rest) ty).finish [lane] := rfl
  rw [heval, bind_eq_ok]
  exact exists_congr fun _ => and_congr (laneAt_ofKnown rfl) (finish_ofKnown ..)

/-- A splat of a scalar repeats its first lane. -/
theorem eval_broadcast : (ofKnown .broadcast attrs (a :: rest) ty).eval = .ok x ↔
    ∃ lane, a.lanes.head? = some lane ∧
      shapeAs ty (List.replicate (laneCount ty) lane) = some x := by
  change (ofKnown .broadcast attrs (a :: rest) ty).evalSplat = .ok x ↔ _
  simp only [evalSplat, lanes_zero, resultLanes_ofKnown, bind, Except.bind]
  cases a.lanes.head? with
  | none => exact ⟨nofun, nofun⟩
  | some lane =>
    rw [finish_ofKnown]
    exact ⟨fun h => ⟨lane, rfl, h⟩, fun ⟨_, hl, h⟩ => Option.some.inj hl ▸ h⟩

/-- So does the instruction for it. -/
theorem eval_broadcastScalar (hl : a.lanes.head? = some lane)
    (h : shapeAs ty (List.replicate (laneCount ty) lane) = some x) :
    (ofKnown .broadcastScalar attrs (a :: rest) ty).eval = .ok x := by
  change (ofKnown .broadcastScalar attrs (a :: rest) ty).evalSplat = .ok x
  simp only [evalSplat, lanes_zero, resultLanes_ofKnown, bind, Except.bind, hl]
  exact (finish_ofKnown ..).mpr h

/-- Two vectors, one after the other. -/
theorem eval_concat : (ofKnown .concat attrs [a, b] ty).eval = .ok x ↔
    shapeAs ty (a.lanes ++ b.lanes) = some x := by
  rw [← finish_ofKnown .concat attrs [a, b]]
  have hlanes : (List.range (ofKnown .concat attrs [a, b] ty).slots.length).mapM
      (ofKnown .concat attrs [a, b] ty).lanes = .ok [a.lanes, b.lanes] := by
    have hrange : List.range (ofKnown .concat attrs [a, b] ty).slots.length = [0, 1] := rfl
    rw [hrange, List.mapM_cons, lanes_zero, List.mapM_cons, lanes_one]
    rfl
  have heval : (ofKnown .concat attrs [a, b] ty).eval =
      (ofKnown .concat attrs [a, b] ty).finish ([a.lanes, b.lanes].flatten) := by
    change ((List.range _).mapM _ >>= _) = _
    rw [hlanes]
    rfl
  rw [heval]
  simp

/-- The instruction that splats a lane repeats the one with its index. -/
theorem eval_broadcastLane : (ofKnown .broadcastLane attrs (a :: rest) ty).eval = .ok x ↔
    ∃ lane, a.lanes[asWord (attrs.intOrZero AttrName.idx)]? = some lane ∧
      shapeAs ty (List.replicate (laneCount ty) lane) = some x := by
  change (ofKnown .broadcastLane attrs (a :: rest) ty).evalLaneSplat = .ok x ↔ _
  rw [evalLaneSplat, bind_eq_ok]
  exact exists_congr fun _ => and_congr (laneAt_ofKnown rfl) (finish_ofKnown ..)

/-- A reduction folds the lanes from the first on. -/
theorem eval_reduction {kind : CombiningKind} (hk : attrs.combiningKind? = some kind) :
    (ofKnown .reduction attrs (a :: rest) ty).eval = .ok x ↔
      ∃ first others, a.lanes = first :: others ∧
        (others ≠ [] → kind.folds (.ofTy a.ty) = true) ∧
        shapeAs ty [others.foldl (Lane.combine kind (.ofTy a.ty)) first] = some x := by
  change (ofKnown .reduction attrs (a :: rest) ty).evalReduction = .ok x ↔ _
  simp only [evalReduction, attrs_ofKnown, hk, lanes_zero, operandKind_zero, bind, Except.bind]
  cases a.lanes with
  | nil => exact ⟨nofun, nofun⟩
  | cons first others =>
    dsimp only
    -- One lane needs no combining; with more of them the kind has to fold.
    split
    · next hunable =>
      refine ⟨nofun, ?_⟩
      rintro ⟨_, _, hl, hable, -⟩
      cases hl
      simp [hable hunable.1] at hunable
    · next hable =>
      rw [finish_ofKnown]
      refine ⟨fun h => ⟨first, others, rfl, fun hne => ?_, h⟩, ?_⟩
      · exact Bool.not_eq_false _ ▸ fun hunable => hable ⟨hne, hunable⟩
      · rintro ⟨_, _, hl, -, h⟩
        cases hl
        exact h

/-- A reduction comes down to one lane. -/
theorem shape_of_reduction (h : (ofKnown .reduction attrs ks ty).eval = .ok x) :
    ∃ lane, shapeAs ty [lane] = some x := by
  change (ofKnown .reduction attrs ks ty).evalReduction = .ok x at h
  unfold evalReduction at h
  split at h
  · cases h
  · obtain ⟨kind, -, h⟩ := bind_eq_ok.mp h
    obtain ⟨l, -, h⟩ := bind_eq_ok.mp h
    split at h
    · cases h
    · split at h
      · cases h
      · exact ⟨_, (finish_ofKnown .reduction attrs ks).mp h⟩

/-! ## Masks -/

/-- A comparison that has an answer has a predicate. -/
theorem predicate_of_cmpi (h : (ofKnown .cmpi attrs ks ty).eval = .ok x) :
    ∃ p, attrs.intPredicate? = some p := by
  change (ofKnown .cmpi attrs ks ty).evalCmpi = .ok x at h
  unfold evalCmpi at h
  split at h
  · cases h
  · next p hp => exact ⟨p, hp⟩

/-- A comparison marks the lanes of which its predicate holds. -/
theorem eval_cmpi {p : IntPredicate} (hp : attrs.intPredicate? = some p) :
    (ofKnown .cmpi attrs (a :: b :: rest) ty).eval = .ok x ↔
      (laneCount ty ≤ a.lanes.length ∧ laneCount ty ≤ b.lanes.length ∧
        (laneCount ty ≠ 0 → (ElemKind.ofTy a.ty).views = true)) ∧
        shapeAs ty ((List.zipWith (fun l r => Lane.ofBool (p.holds l r (.ofTy a.ty)))
          a.lanes b.lanes).take (laneCount ty)) = some x := by
  rw [← lanewiseIf_ofKnown .cmpi attrs rest]
  change (ofKnown .cmpi attrs (a :: b :: rest) ty).evalCmpi = .ok x ↔ _
  simp only [evalCmpi, attrs_ofKnown, hp, operandKind_zero, bind, Except.bind]

/-- A comparison of floats. -/
theorem eval_cmpf {p : FloatPredicate} (hp : attrs.floatPredicate? = some p) :
    (ofKnown .cmpf attrs (a :: b :: rest) ty).eval = .ok x ↔
      laneCount ty ≤ a.lanes.length ∧ laneCount ty ≤ b.lanes.length ∧
        shapeAs ty ((List.zipWith (fun l r => Lane.ofBool (p.holds l.asFloat r.asFloat))
          a.lanes b.lanes).take (laneCount ty)) = some x := by
  rw [← lanewise_ofKnown .cmpf attrs rest]
  change (ofKnown .cmpf attrs (a :: b :: rest) ty).evalCmpf = .ok x ↔ _
  simp only [evalCmpf, attrs_ofKnown, hp]

/-- The instruction does so, too, by the name of the predicate, and packs the marks. -/
theorem evalCmp_eq {f : Frame} {p : IntPredicate} {kind : ElemKind} {l r : List Lane}
    (hp : f.attrs.str? AttrName.pred = some p.mnemonic) (hk : f.operandKind 0 = .ok kind)
    (hl : f.lanes 0 = .ok l) (hr : f.lanes 1 = .ok r) :
    f.evalCmp =
      if List.zipWith (p.targetHolds kind) l r ≠ [] ∧ kind.views = false then .error .broken
      else f.finishMask (List.zipWith (p.targetHolds kind) l r) := by
  simp only [evalCmp, hp, Option.getD_some, IntPredicate.ofMnemonic?_mnemonic, hk, hl, hr, bind,
    Except.bind]
  rfl

/-- A target comparison. -/
theorem eval_cmp {p : IntPredicate} (hp : attrs.str? AttrName.pred = some p.mnemonic) :
    (ofKnown .cmp attrs (a :: b :: rest) ty).eval = .ok x ↔
      ((List.zipWith (p.targetHolds (.ofTy a.ty)) a.lanes b.lanes ≠ [] →
          (ElemKind.ofTy a.ty).views = true) ∧
        ((List.zipWith (p.targetHolds (.ofTy a.ty)) a.lanes b.lanes).drop maskBits).any id =
          false) ∧
      shapeAs ty [maskLane (List.zipWith (p.targetHolds (.ofTy a.ty)) a.lanes b.lanes)] =
        some x := by
  change (ofKnown .cmp attrs (a :: b :: rest) ty).evalCmp = .ok x ↔ _
  rw [evalCmp_eq hp operandKind_zero lanes_zero lanes_one]
  split
  · next h => exact ⟨nofun, fun h' => by rw [h'.1.1 h.1] at h; cases h.2⟩
  · next h =>
    rw [finishMask_ofKnown, and_assoc]
    refine ⟨fun h' => ⟨fun hne => ?_, h'⟩, fun h' => h'.2⟩
    exact Bool.not_eq_false _ ▸ fun hunable => h ⟨hne, hunable⟩

/-- A vector of bits, cast to a word. -/
theorem eval_pack (ha : isMaskVector a.ty = true) (hty : ty.isVector = false) :
    (ofKnown .unrealizedCast attrs (a :: rest) ty).eval = .ok x ↔
      ((a.lanes.map fun l => decide (l.asInt ≠ 0)).drop maskBits).any id = false ∧
        shapeAs ty [maskLane (a.lanes.map fun l => decide (l.asInt ≠ 0))] = some x := by
  rw [← finishMask_ofKnown .unrealizedCast attrs (a :: rest)]
  change (ofKnown .unrealizedCast attrs (a :: rest) ty).evalCast = .ok x ↔ _
  simp only [evalCast, operandTy_zero, lanes_zero, result_ofKnown, ha, hty, bind, Except.bind,
    Bool.not_false, Bool.and_self, if_true]

/-- A word, cast to a vector of bits. -/
theorem eval_unpack (ha : a.ty.isVector = false) (hty : isMaskVector ty = true) :
    (ofKnown .unrealizedCast attrs (a :: rest) ty).eval = .ok x ↔
      laneCount ty ≤ maskBits ∧
        shapeAs ty ((List.range (laneCount ty)).map fun i => .int (bitOf a.number i)) = some x := by
  have hmask : isMaskVector a.ty = false := by simp [isMaskVector, ha]
  rw [← finish_ofKnown .unrealizedCast attrs (a :: rest)]
  change (ofKnown .unrealizedCast attrs (a :: rest) ty).evalCast = .ok x ↔ _
  simp only [evalCast, operandTy_zero, lanes_zero, result_ofKnown, ha, hty, hmask, bind,
    Except.bind,
    Bool.false_and, Bool.not_false, Bool.and_self, if_true, Bool.false_eq_true, if_false]
  split
  · next h => exact ⟨nofun, fun h' => absurd h'.1 (Nat.not_le.mpr h)⟩
  · next h => exact ⟨fun h' => ⟨Nat.not_lt.mp h, h'⟩, fun h' => h'.2⟩

/-- A scalar, cast to another scalar, is brought into the range of that. -/
theorem eval_throughCast (ha : a.ty.isVector = false) (hty : ty.isVector = false) :
    (ofKnown .unrealizedCast attrs (a :: rest) ty).eval = .ok x ↔
      shapeAs ty a.lanes = some x := by
  have hsource : isMaskVector a.ty = false := by simp [isMaskVector, ha]
  have htarget : isMaskVector ty = false := by simp [isMaskVector, hty]
  rw [← finish_ofKnown .unrealizedCast attrs (a :: rest)]
  change (ofKnown .unrealizedCast attrs (a :: rest) ty).evalCast = .ok x ↔ _
  simp only [evalCast, operandTy_zero, lanes_zero, result_ofKnown, hsource, htarget, bind,
    Except.bind, Bool.false_and, Bool.false_eq_true, if_false]

/-- Which lanes a select takes from its first branch. -/
def chosen (cond : List Lane) (i : Nat) : Bool :=
  match cond[i]?.or cond.head? with
  | some c => decide (c.asInt ≠ 0)
  | none => false

/-- A select takes each lane from the branch that its condition picks. -/
theorem eval_select : (ofKnown .select attrs (a :: b :: c :: rest) ty).eval = .ok x ↔
    ∃ l, chooseLanes (chosen a.lanes) b.lanes c.lanes = .ok l ∧ shapeAs ty l = some x := by
  change (ofKnown .select attrs (a :: b :: c :: rest) ty).evalSelect = .ok x ↔ _
  simp only [evalSelect, lanes_zero, lanes_one, lanes_two, bind_eq_ok, finish_ofKnown,
    Except.ok.injEq, exists_eq_left']
  rfl

/-- The instruction goes by the bits of a mask, of which there are not more than a word has. -/
theorem eval_sel {mask : Lane} (hc : c.lanes.head? = some mask) :
    (ofKnown .sel attrs (a :: b :: c :: rest) ty).eval = .ok x ↔
      a.lanes.length ≤ maskBits ∧
        ∃ l, chooseLanes (fun i => bitOf mask.asInt i == 1) a.lanes b.lanes = .ok l ∧
          shapeAs ty l = some x := by
  change (ofKnown .sel attrs (a :: b :: c :: rest) ty).evalSel = .ok x ↔ _
  simp only [evalSel, lanes_zero, lanes_one, scalarOperand_two hc, bind, Except.bind]
  split
  · next h => exact ⟨nofun, fun h' => absurd h'.1 (Nat.not_le.mpr h)⟩
  · next h =>
    refine (bind_eq_ok.trans ?_).trans (and_iff_right (Nat.not_lt.mp h)).symm
    exact exists_congr fun l => and_congr_right fun _ => finish_ofKnown ..

/-! ## Reads from memory -/

/-- The cell number that indices address in a buffer, last dimension innermost. -/
def flatIndex (shape : List Nat) (indices : List Int) : Int :=
  (shape.zip indices).foldl (fun base (dim, i) => base * dim + i) 0

/-- No number on the way to a cell needs more than 128 bits. -/
def wayFits (base : Int) : List (Nat × Int) → Bool
  | [] => true
  | (dim, i) :: rest =>
    (fits128 (base * dim) && fits128 (base * dim + i)) && wayFits (base * dim + i) rest

/-- So many cells from the one that the indices address have numbers of 128 bits, and so has
everything on the way to them. -/
structure Addresses (shape : List Nat) (indices : List Int) (n : Nat) : Prop where
  way : wayFits 0 (shape.zip indices) = true
  cells : cellsFit (flatIndex shape indices) n = true

/-- The cells from a position on that fill so many lanes. -/
def window (cells : List Lane) (base : Int) (n : Nat) : List Lane :=
  (List.range n).map fun (i : Nat) => cellAt cells (base + i)

/-- A cell is addressed by known indices if nothing on the way overflows. -/
theorem cellNumber_slots (shape : List Nat) (ks : List Known) :
    cellNumber shape (ks.map Known.slot) =
      if wayFits 0 (shape.zip (ks.map Known.number)) then
        .ok (flatIndex shape (ks.map Known.number))
      else .error .broken := by
  unfold cellNumber flatIndex
  -- Both ways of computing go through the same prefixes, which start at any base.
  generalize (0 : Int) = base
  induction shape generalizing base ks with
  | nil => rfl
  | cons dim shape ih =>
    cases ks with
    | nil => rfl
    | cons k ks =>
      have hindex : indexOf k.slot = .ok k.number := rfl
      simp only [List.map_cons, List.zip_cons_cons, List.foldlM_cons, List.foldl_cons, hindex,
        wayFits, nextCell, bind, Except.bind]
      by_cases h : (fits128 (base * dim) && fits128 (base * dim + k.number)) = true
      · rw [if_pos h, h, Bool.true_and]
        exact ih ks _
      · rw [if_neg h, if_neg (by simp [h])]

/-- The source of an access comes first, then as many indices as it has dimensions, then what may
trail. -/
theorem split?_slots :
    MemAccess.split? (fun s => Ty.memoryRank <$> slotTy s)
      (ofKnown kind attrs (a :: rest) ty).slots =
      .ok (if rest.length < a.ty.memoryRank then none else
        some ⟨a.slot, (rest.take a.ty.memoryRank).map Known.slot,
          (rest.drop a.ty.memoryRank).head?.map Known.slot⟩) := by
  have hrank : (Ty.memoryRank <$> slotTy a.slot : Except EvalError Nat) = .ok a.ty.memoryRank := rfl
  simp only [ofKnown, List.map_cons, MemAccess.split?, hrank, bind, Except.bind, List.length_map,
    List.map_take, ← List.map_drop, List.head?_map]
  rfl

/-- What a strided read reads. -/
theorem eval_transferRead (h : (ofKnown .transferRead attrs (a :: rest) ty).eval = .ok x) :
    ∃ shape elem, a.ty = .memory shape elem ∧ shape.length ≤ rest.length ∧
      Addresses shape ((rest.take shape.length).map Known.number) (laneCount ty) ∧
      shapeAs ty (window a.lanes (flatIndex shape ((rest.take shape.length).map Known.number))
        (laneCount ty)) = some x := by
  change (ofKnown .transferRead attrs (a :: rest) ty).evalLoad = .ok x at h
  simp only [evalLoad, split?_slots, bind, Except.bind] at h
  split at h
  · cases h
  next access haccess =>
  split at haccess
  · cases haccess
  next hlen =>
  obtain rfl := Option.some.inj haccess
  -- Only memory can be read; everything else has no rank.
  cases hty : a.ty with
  | memory shape elem =>
    rw [hty] at hlen
    have hslot : slotTy a.slot = .ok (.memory shape elem) := by rw [← hty]; rfl
    have hvalue : slotValue a.slot = .ok a.value := rfl
    simp only [hslot, hvalue, resultLanes_ofKnown, kind_ofKnown, if_true] at h
    rw [cellNumber_slots, hty, show (Ty.memory shape elem).memoryRank = shape.length from rfl] at h
    -- The indices have to lie in the memory, and then the cells have to be there.
    by_cases hway : wayFits 0 (shape.zip ((rest.take shape.length).map Known.number)) = true
    · rw [if_pos hway] at h
      dsimp only at h
      split at h
      · cases h
      · split at h
        · cases h
        · next hcells =>
          rw [finish_ofKnown] at h
          exact ⟨shape, elem, rfl, Nat.not_lt.mp hlen, ⟨hway, by simpa using hcells⟩, h⟩
    · rw [if_neg hway] at h
      cases h
  | _ =>
    have hslot : slotTy a.slot = .ok a.ty := rfl
    simp only [hslot, hty] at h
    cases h

/-- And it does read that. -/
theorem eval_transferRead_of {shape : List Nat} {elem : Ty} (ha : a.ty = .memory shape elem)
    (hlen : rest.length = shape.length)
    (hcells : Addresses shape (rest.map Known.number) (laneCount ty))
    (h : shapeAs ty (window a.lanes (flatIndex shape (rest.map Known.number)) (laneCount ty)) =
      some x) : (ofKnown .transferRead attrs (a :: rest) ty).eval = .ok x := by
  change (ofKnown .transferRead attrs (a :: rest) ty).evalLoad = .ok x
  have hrank : a.ty.memoryRank = rest.length := by rw [ha, hlen]; rfl
  have hslot : slotTy a.slot = .ok (.memory shape elem) := by rw [← ha]; rfl
  have hvalue : slotValue a.slot = .ok a.value := rfl
  simp only [evalLoad, split?_slots, hrank, Nat.lt_irrefl, if_false, List.take_length,
    List.drop_length, List.head?_nil, Option.map_none, Option.isSome_none, Bool.false_eq_true,
    hslot, hvalue, resultLanes_ofKnown, kind_ofKnown, if_true, bind, Except.bind]
  rw [cellNumber_slots, if_pos hcells.way]
  dsimp only
  rw [hcells.cells, if_neg (by decide)]
  exact (finish_ofKnown ..).mpr h

/-- From offset zero on, everything is read. -/
theorem overlay_zero (read : Nat → Lane) (n : Nat) (fill : Lane) :
    overlay read 0 (List.replicate n fill) = (List.range n).map read := by
  refine List.ext_getElem (by simp [overlay]) fun i h _ => ?_
  simp [overlay]

/-- The lanes that a load starts from. -/
def carriedLanes (ty : Ty) (carried : Option Known) : List Lane :=
  (carried.map Known.lanes).getD (List.replicate (laneCount ty) (.int 0))

/-- What a load reads: the lanes before its offset are those it carries, and the others are read
from the indices on. -/
theorem eval_upd_over {shape : List Nat} {elem : Ty} (carried : Option Known)
    (ha : a.ty = .memory shape elem) (hlen : rest.length = shape.length)
    (hbits : (ElemKind.ofTy ty).bits ≠ 0) :
    (ofKnown .upd attrs (a :: (rest ++ carried.toList)) ty).eval = .ok x ↔
      Addresses shape (rest.map Known.number) ((carriedLanes ty carried).length -
        asWord ((attrs.intOrZero AttrName.offset).tdiv (ElemKind.ofTy ty).bits)) ∧
      shapeAs ty (overlay (fun i : Nat => cellAt a.lanes
        (flatIndex shape (rest.map Known.number) + i))
        (asWord ((attrs.intOrZero AttrName.offset).tdiv (ElemKind.ofTy ty).bits))
        (carriedLanes ty carried)) = some x := by
  change (ofKnown .upd attrs (a :: (rest ++ carried.toList)) ty).evalLoad = .ok x ↔ _
  have hrank : a.ty.memoryRank = rest.length := by rw [ha, hlen]; rfl
  have hroom : ¬ (rest ++ carried.toList).length < rest.length := by simp
  have htrailing : carried.toList.head? = carried := by cases carried <;> rfl
  have hslot : slotTy a.slot = .ok (.memory shape elem) := by rw [← ha]; rfl
  have hvalue : slotValue a.slot = .ok a.value := rfl
  simp only [evalLoad, split?_slots, hrank, hroom, if_false, List.take_left, List.drop_left,
    htrailing, hslot, hvalue, resultLanes_ofKnown, result_ofKnown, kind_ofKnown, attrs_ofKnown,
    hbits, if_false, bind, Except.bind]
  rw [cellNumber_slots]
  by_cases hway : wayFits 0 (shape.zip (rest.map Known.number)) = true
  · rw [if_pos hway]
    -- Both with something carried and without, the cells that are read are those left.
    have settle : ∀ (n : Nat) (lanes : List Lane),
        ((if cellsFit (flatIndex shape (rest.map Known.number)) n = false then
            .error .broken
          else (ofKnown .upd attrs (a :: (rest ++ carried.toList)) ty).finish lanes) =
            Except.ok x ↔
          Addresses shape (rest.map Known.number) n ∧ shapeAs ty lanes = some x) := by
      intro n lanes
      split
      · next h => exact ⟨nofun, fun h' => by rw [h'.1.cells] at h; cases h⟩
      · next h =>
        rw [finish_ofKnown]
        exact ⟨fun h' => ⟨⟨hway, by simpa using h⟩, h'⟩, fun h' => h'.2⟩
    cases carried <;> exact settle _ _
  · rw [if_neg hway]
    exact ⟨nofun, fun h => absurd h.1.way hway⟩

/-- What a load at offset zero reads. -/
theorem eval_upd {shape : List Nat} {elem : Ty} (ha : a.ty = .memory shape elem)
    (hlen : rest.length = shape.length) (hbits : (ElemKind.ofTy ty).bits ≠ 0)
    (hoffset : attrs.intOrZero AttrName.offset = 0)
    (hcells : Addresses shape (rest.map Known.number) (laneCount ty))
    (h : shapeAs ty (window a.lanes (flatIndex shape (rest.map Known.number)) (laneCount ty)) =
      some x) : (ofKnown .upd attrs (a :: rest) ty).eval = .ok x := by
  have hword : asWord (Int.tdiv 0 (ElemKind.ofTy ty).bits) = 0 := by rw [Int.zero_tdiv]; rfl
  rw [← List.append_nil rest]
  refine (eval_upd_over none ha hlen hbits).mpr ?_
  rw [hoffset, hword, carriedLanes, Option.map_none, Option.getD_none, overlay_zero,
    List.length_replicate]
  exact ⟨hcells, h⟩

end Frame

end SimdLowering
