/-
Conversions that undo each other.

There are two pairs of them. Lanes are moved up into an accumulator and brought down again. Both
moves take the amount modulo the width of the accumulator, the one because it is the type of the
result and the other because it is the type of the operand. Where the accumulator has room for the
bits of a lane and those of the shift, nothing is lost on the way up; the half that is added on the
way down is less than one step of what is there, and what comes down is in range and is not
saturated.

A vector of truth values is packed into a word and unpacked again. The word has one bit for each
lane and is not wider than the integers it is computed in, so neither direction cuts anything off.
The bits of the word are the lanes in order, and this is also how a comparison writes such a word
and a select reads it.
-/
import SimdLowering.Instr.Target
import SimdLowering.Proofs.Eval.Masks
import SimdLowering.Proofs.Graph.History
import SimdLowering.Proofs.Number.LaneRange
import SimdLowering.Proofs.Rewrite.Evaluation

set_option autoImplicit false

namespace SimdLowering

open SimdLowering.Frame

variable {g : Graph} {ρ : Env} {o up down : OpId} {kind : OpKind} {v w a b c wide narrow : ValueId}
  {ins : List ValueId} {rest : List OpId} {ty elemTy : Ty} {x : RtValue} {n width acc i : Nat}
  {sign : Signedness} {shift z : Int} {ints : List Int} {lanes : List Bool} {l r : List Lane}
  {mask : Nat}

/-! ## Operations by what they read and give -/

namespace Graph

/-- The operation is of the kind, reads the values in order, and gives the value, which has the
type. -/
structure Gives (g : Graph) (o : OpId) (kind : OpKind) (ins : List ValueId) (v : ValueId)
    (ty : Ty) : Prop where
  kind : g.kind o = kind
  operands : g.operands o = ins
  results : g.results o = [v]
  typed : g.valueTy v = .ok ty

/-- The value has the type, and is bound to `x`. -/
structure Bound (g : Graph) (ρ : Env) (v : ValueId) (ty : Ty) (x : RtValue) : Prop where
  typed : g.valueTy v = .ok ty
  bound : ρ.get? v = some x

theorem Bound.holds (h : g.Bound ρ v ty x) : (Source.value v).Holds g ρ [] ⟨ty, x⟩ :=
  ⟨map_ty_of_valueTy h.typed, h.bound⟩

namespace Gives

variable (h : g.Gives o kind ins v ty)
include h

/-- An operation whose operands are known evaluates as their frame does. -/
theorem evalOp_eq {ks : List Known}
    (hins : List.Forall₂ (fun w k => (Source.value w).Holds g ρ [] k) ins ks)
    (heval : (Frame.ofKnown kind (g.attrs o) ks ty).eval = .ok x) : g.evalOp ρ o = .ok x := by
  have hty : (g.value v).ty = ty := ty_of_map_ty (map_ty_of_valueTy h.typed)
  refine evalOp_of_known (h.operands ▸ hins) h.results hty ?_
  rw [h.kind]
  exact heval

/-- Once it is evaluated, its value is bound and the run goes on. -/
theorem runOps_cons (hkind : kind ≠ .ret) (heval : g.evalOp ρ o = .ok x) :
    g.runOps (o :: rest) ρ = g.runOps rest (ρ.bind v x) := by
  have hret : g.kind o ≠ .ret := by rwa [h.kind]
  simp only [runOps, if_neg hret, heval, h.results]

/-- Two operations are evaluated one after the other. -/
theorem runOps_pair {o' : OpId} {kind' : OpKind} {ins' : List ValueId} {v' : ValueId} {ty' : Ty}
    {x' : RtValue} (h' : g.Gives o' kind' ins' v' ty') (hkind : kind ≠ .ret)
    (hkind' : kind' ≠ .ret) (heval : g.evalOp ρ o = .ok x)
    (heval' : g.evalOp (ρ.bind v x) o' = .ok x') :
    g.runOps [o, o'] ρ = ((ρ.bind v x).bind v' x', .ok []) := by
  rw [h.runOps_cons hkind heval, h'.runOps_cons hkind' heval']
  rfl

/-- What it gives is bound in the run that goes on. -/
theorem bound : g.Bound (ρ.bind v x) v ty x := by
  refine ⟨h.typed, ?_⟩
  rw [Env.get?_bind, if_pos rfl]

end Gives

end Graph

/-! ## Up and down -/

/-- Up to the width of an accumulator, a shift is taken modulo the width. -/
theorem laneShift_eq (hpos : 1 ≤ acc) (hsmall : acc ≤ 127) :
    laneShift shift acc = (shift % acc).toNat := by
  have hclamp : max 1 (min 127 acc) = acc := by omega
  rw [laneShift, hclamp]

/-- Rounding adds less than a step, so what was moved up comes down as it was. -/
theorem shiftRounded_mul_twoPow (z : Int) (m : Nat) : shiftRounded (z * twoPow m) m = z := by
  have hhalf : halfStep m / twoPow m = 0 := by
    unfold halfStep
    split
    · exact Int.zero_ediv _
    · have hpos := twoPow_cast_pos (m - 1)
      have hsplit : (twoPow m : Int) = twoPow (m - 1) * 2 := twoPow_pred (by omega)
      apply Int.ediv_eq_zero_of_lt <;> omega
  have hfused := @shiftRounded_fused 0 0 z m
  rwa [Int.zero_mul, Int.zero_add, Int.zero_add, hhalf, Int.add_zero] at hfused

/-- A lane in range is not saturated. -/
theorem saturateInt_of_inRange (hsmall : width < 127) (hsign : sign ≠ .unsigned)
    (hz : InRange width z) : saturateInt z width sign = z := by
  obtain ⟨hlow, hhigh⟩ := hz
  rw [saturateInt, if_neg (by omega), if_neg hsign]
  omega

/-- Integers in range are lanes as they are. -/
theorem normalize_int_of_inRange (hone : 1 < width) (hsmall : width < 128)
    (hsign : sign ≠ .unsigned) (hz : InRange width z) :
    (Lane.int z).normalize (.int width sign) = .int z :=
  congrArg Lane.int ((wrapInt_eq_self_iff hone hsmall hsign).mpr hz)

namespace Graph

section

variable {m : Nat} (hwidth : 2 ≤ width) (hsmall : acc ≤ 126) (hroom : width + m ≤ acc)
  (hm : laneShift shift acc = m) (hrange : ∀ z ∈ ints, InRange width z)
include hwidth hsmall hroom hm hrange

/-- Where there is room for the shift, each lane is multiplied by two to the shift. -/
theorem evalOp_ups (hup : g.Gives up .ups [v] wide (.vector n (.i acc)))
    (hshift : (g.attrs up).intOrZero AttrName.shift = shift)
    (hv : g.Bound ρ v ty (.vector (ints.map Lane.int))) :
    g.evalOp ρ up = .ok (.vector (ints.map fun z => .int (z * twoPow m))) := by
  have hfit : ∀ z ∈ ints, InRange acc (z * twoPow m) := by
    intro z hz
    exact (hrange z hz).mul_twoPow (by omega) hroom
  -- So computing in 128 bits changes nothing, and neither does the range of the accumulator.
  have hlanes : (ints.map Lane.int).map (fun l => Lane.int (wrap128 (l.asInt * twoPow m))) =
      ints.map fun z => .int (z * twoPow m) := by
    rw [List.map_map]
    apply List.map_congr_left
    intro z hz
    exact congrArg Lane.int (wrap128_eq_self ((hfit z hz).mono (by omega)))
  refine hup.evalOp_eq (.cons hv.holds .nil) ((eval_shiftUp rfl).mpr ?_)
  rw [hshift, hm]
  change shapeAs _ ((ints.map Lane.int).map _) = _
  rw [hlanes]
  apply shapeAs_of_normal rfl (.inr (ElemKind.wraps_vector (by omega) (by omega) .signless n))
  intro lane hlane
  obtain ⟨z, hz, rfl⟩ := List.mem_map.mp hlane
  exact normalize_int_of_inRange (by omega) (by omega) (by decide) (hfit z hz)

/-- Coming down by the same shift, each lane is what it was. -/
theorem evalOp_srs (hsign : sign ≠ .unsigned)
    (hdown : g.Gives down .srs [wide] narrow (.vector n (.int width sign)))
    (hshift : (g.attrs down).intOrZero AttrName.shift = shift)
    (hwide : g.Bound ρ wide (.vector n (.i acc))
      (.vector (ints.map fun z => .int (z * twoPow m)))) :
    g.evalOp ρ down = .ok (.vector (ints.map Lane.int)) := by
  -- Rounding undoes the shift exactly, and what is in range is not saturated.
  have hlanes : (ints.map fun z => Lane.int (z * twoPow m)).map
      (fun l => Lane.int (saturateInt (shiftRounded l.asInt m) width sign)) =
        ints.map Lane.int := by
    rw [List.map_map]
    apply List.map_congr_left
    intro z hz
    apply congrArg Lane.int
    calc saturateInt (shiftRounded (z * twoPow m) m) width sign
        = saturateInt z width sign := by rw [shiftRounded_mul_twoPow]
      _ = z := saturateInt_of_inRange (by omega) hsign (hrange z hz)
  refine hdown.evalOp_eq (.cons hwide.holds .nil) ((eval_shiftDown rfl).mpr ?_)
  rw [hshift]
  change (∀ d ∈ ints.map fun z => Lane.int (z * twoPow m),
      roundingFits d.asInt (laneShift shift acc) = true) ∧
    shapeAs _ ((ints.map fun z => Lane.int (z * twoPow m)).map fun l =>
      Lane.int (saturateInt (shiftRounded l.asInt (laneShift shift acc)) width sign)) = _
  rw [hm, hlanes]
  -- No lane is too large to be rounded, and the results are normal.
  constructor
  · intro d hd
    obtain ⟨z, hz, rfl⟩ := List.mem_map.mp hd
    exact roundingFits_of_inRange ((hrange z hz).mul_twoPow (by omega) hroom) (by omega) (by omega)
  apply shapeAs_of_normal rfl (.inr (ElemKind.wraps_vector (by omega) (by omega) sign n))
  intro lane hlane
  obtain ⟨z, hz, rfl⟩ := List.mem_map.mp hlane
  exact normalize_int_of_inRange (by omega) (by omega) hsign (hrange z hz)

end

/-- Take lanes with a sign, or without a sign of their own, of at least two bits, an accumulator
without a sign of its own of up to 126 bits that is at least as wide, and any shift, negative ones
included, that leaves room for a lane when it is taken modulo the width of the accumulator. In any
graph and environment, moving a vector of lanes in range up into the accumulator by the shift
multiplies each by two to the shift, and moving the result down by the shift gives the vector
back. -/
theorem srs_undoes_ups (hwidth : 2 ≤ width) (hle : width ≤ acc) (hsmall : acc ≤ 126)
    (hsign : sign ≠ .unsigned) (hroom : shift % acc ≤ acc - width)
    (hup : g.Gives up .ups [v] wide (.vector n (.i acc)))
    (hupShift : (g.attrs up).intOrZero AttrName.shift = shift)
    (hdown : g.Gives down .srs [wide] narrow (.vector n (.int width sign)))
    (hdownShift : (g.attrs down).intOrZero AttrName.shift = shift)
    (hv : g.Bound ρ v (.vector n (.int width sign)) (.vector (ints.map Lane.int)))
    (hrange : ∀ z ∈ ints, InRange width z) :
    g.runOps [up, down] ρ =
      ((ρ.bind wide (.vector (ints.map fun z => .int (z * twoPow (shift % acc).toNat)))).bind narrow
        (.vector (ints.map Lane.int)), .ok []) := by
  have hm : laneShift shift acc = (shift % acc).toNat := laneShift_eq (by omega) (by omega)
  have hfits : width + (shift % acc).toNat ≤ acc := by
    have hnonneg : 0 ≤ shift % acc := Int.emod_nonneg shift (by omega)
    omega
  have hfirst := evalOp_ups hwidth hsmall hfits hm hrange hup hupShift hv
  exact hup.runOps_pair hdown (by decide) (by decide) hfirst
    (evalOp_srs hwidth hsmall hfits hm hrange hsign hdown hdownShift hup.bound)

/-- A block with a vector of four lanes for its argument, one move up and one down. -/
def shiftGraph : Graph where
  ops := #[⟨.ups, [⟨0⟩], [⟨1⟩], ⟨[("shift", .int (-16))]⟩, [], none⟩,
    ⟨.srs, [⟨1⟩], [⟨2⟩], ⟨[("shift", .int (-16))]⟩, [], none⟩]
  values := #[⟨.argument ⟨0⟩ 0, .vector 4 (.i 16)⟩, ⟨.result ⟨0⟩ 0, .vector 4 (.i 48)⟩,
    ⟨.result ⟨1⟩ 0, .vector 4 (.i 16)⟩]
  blocks := #[⟨[⟨0⟩], [], none⟩]
  regions := #[]
  chains := #[[⟨⟨0⟩, 0⟩], [⟨⟨1⟩, 0⟩]]

/-- Modulo 48, a shift by minus 16 is one by 32, the most there is room for. Both ends of the range
come back. -/
theorem srs_undoes_ups_negativeShift :
    Edit.replay [.createBlock [.vector 4 (.i 16)],
        .createOp (Instr.ups (.vector 4 (.i 48)) ⟨0⟩ (-16)),
        .createOp (Instr.srs (.vector 4 (.i 16)) ⟨1⟩ (-16))] = .ok (shiftGraph, []) ∧
    (-16 : Int) % (48 : Nat) ≤ (48 : Nat) - (16 : Nat) ∧
    (∀ z ∈ [-32768, 32767, -1, 0], InRange 16 z) ∧
    shiftGraph.runOps [⟨0⟩, ⟨1⟩] (Env.empty.bind ⟨0⟩
        (.vector [.int (-32768), .int 32767, .int (-1), .int 0])) =
      (((Env.empty.bind ⟨0⟩ (.vector [.int (-32768), .int 32767, .int (-1), .int 0])).bind ⟨1⟩
        (.vector [.int (-140737488355328), .int 140733193388032, .int (-4294967296), .int 0])).bind
          ⟨2⟩ (.vector [.int (-32768), .int 32767, .int (-1), .int 0]), .ok []) := by
  have hroom : (-16 : Int) % (48 : Nat) ≤ (48 : Nat) - (16 : Nat) := by decide
  have hrange : ∀ z ∈ [-32768, 32767, -1, 0], InRange 16 z := by decide
  refine ⟨by cbv, hroom, hrange, ?_⟩
  have hdown : shiftGraph.Gives ⟨1⟩ .srs [⟨1⟩] ⟨2⟩ (.vector 4 (.i 16)) := ⟨rfl, rfl, rfl, rfl⟩
  exact srs_undoes_ups (by decide) (by decide) (by decide) (by decide) hroom ⟨rfl, rfl, rfl, rfl⟩
    rfl hdown rfl ⟨rfl, rfl⟩ hrange

end Graph

/-! ## Masks -/

/-- The bits of the mask are the truth values in order, and it has no others. -/
def Marks (mask : Nat) (lanes : List Bool) : Prop := ∀ i, mask.testBit i = lanes.getD i false

namespace Frame

/-- A bit of a word is a bit of the number that the word holds. -/
theorem bitOf_natCast (mask i : Nat) : bitOf mask i = ((mask.testBit i).toNat : Int) := by
  have hnat : mask / twoPow i % 2 = (mask.testBit i).toNat := by
    rw [Nat.testBit_eq_decide_div_mod_eq, twoPow_eq]
    by_cases hbit : mask / 2 ^ i % 2 = 1
    · simp [hbit]
    · have hzero : mask / 2 ^ i % 2 = 0 := by omega
      simp [hzero]
  rw [bitOf, ← hnat]
  norm_cast

/-- Packing marks the lanes. -/
theorem marks_packBits (lanes : List Bool) : Marks (packBits lanes) lanes := by
  intro i
  have hbits := (bitOf_natCast (packBits lanes) i).symm.trans (bitOf_packBits lanes i)
  have hsame : ((packBits lanes).testBit i).toNat = (lanes[i]?.getD false).toNat := by
    exact_mod_cast hbits
  have injective : ∀ s t : Bool, s.toNat = t.toNat → s = t := by decide
  rw [List.getD_eq_getElem?_getD]
  exact injective _ _ hsame

end Frame

namespace Marks

/-- The truth values determine the mask. -/
theorem eq_packBits (h : Marks mask lanes) : mask = packBits lanes := by
  apply Nat.eq_of_testBit_eq
  intro i
  rw [h i, marks_packBits lanes i]

/-- It has room in as many bits as there are lanes. -/
theorem lt (h : Marks mask lanes) : mask < twoPow lanes.length := by
  rw [h.eq_packBits]
  exact packBits_lt lanes

end Marks

/-- A number that has room in so many bits marks as many lanes. -/
theorem marks_of_lt (h : mask < twoPow n) : Marks mask ((List.range n).map mask.testBit) := by
  intro i
  rw [List.getD_eq_getElem?_getD, List.getElem?_map]
  by_cases hi : i < n
  · simp [hi]
  · have hlarge : mask < 2 ^ i :=
      Nat.lt_of_lt_of_le h (Nat.pow_le_pow_right (by decide) (Nat.not_lt.mp hi))
    simp [hi, Nat.testBit_lt_two_pow hlarge]

/-- A truth value is a lane of one bit as it is. -/
theorem normalize_ofBool (t : Bool) : (Lane.ofBool t).normalize (.ofTy (.vector n (.i 1))) =
    Lane.ofBool t := by
  cases t <;> rfl

/-- A lane that is a truth value is read as this truth value. -/
theorem map_ne_zero_ofBool (lanes : List Bool) :
    (lanes.map Lane.ofBool).map (fun l => decide (l.asInt ≠ 0)) = lanes := by
  rw [List.map_map]
  conv_rhs => rw [← List.map_id lanes]
  apply List.map_congr_left
  intro t _
  cases t <;> rfl

namespace Graph

/-- A vector of truth values is packed into a word that marks them. -/
theorem evalOp_pack (hop : g.Gives o .unrealizedCast [v] w (.ui width))
    (hv : g.Bound ρ v (.vector n (.i 1)) (.vector (lanes.map Lane.ofBool)))
    (hroom : lanes.length ≤ width) (hwidth : width ≤ 126) (hmask : Marks mask lanes) :
    g.evalOp ρ o = .ok (.scalar (.int mask)) := by
  refine hop.evalOp_eq (.cons hv.holds .nil) ((eval_pack rfl rfl).mpr ?_)
  change (((lanes.map Lane.ofBool).map _).drop maskBits).any id = false ∧
    shapeAs _ [maskLane ((lanes.map Lane.ofBool).map _)] = _
  rw [map_ne_zero_ofBool, hmask.eq_packBits]
  exact ⟨any_drop_maskBits (hroom.trans (hwidth.trans (by decide))),
    shapeAs_ui_maskLane hroom hwidth⟩

/-- A word is unpacked into the truth values that it marks. -/
theorem evalOp_unpack (hop : g.Gives o .unrealizedCast [w] v (.vector n (.i 1)))
    (hw : g.Bound ρ w (.ui width) (.scalar (.int mask))) (hlen : lanes.length = n)
    (hroom : n ≤ maskBits) (hmask : Marks mask lanes) :
    g.evalOp ρ o = .ok (.vector (lanes.map Lane.ofBool)) := by
  refine hop.evalOp_eq (.cons hw.holds .nil) ((eval_unpack rfl rfl).mpr ⟨hroom, ?_⟩)
  subst hlen
  have hnumber : Known.number ⟨.ui width, .scalar (.int mask)⟩ = packBits lanes :=
    congrArg Nat.cast hmask.eq_packBits
  rw [hnumber]
  change shapeAs _ ((List.range lanes.length).map _) = _
  rw [map_bitOf_packBits]
  apply shapeAs_of_normal rfl (.inr rfl)
  intro lane hlane
  obtain ⟨t, -, rfl⟩ := List.mem_map.mp hlane
  exact normalize_ofBool t

/-- A comparison marks the lanes that satisfy its predicate. -/
theorem evalOp_cmp {p : IntPredicate} (hop : g.Gives o .cmp [a, b] w (.ui width))
    (hpred : (g.attrs o).str? AttrName.pred = some p.mnemonic)
    (hviews : (ElemKind.ofTy ty).views = true)
    (ha : g.Bound ρ a ty (.vector l)) (hb : g.Bound ρ b ty (.vector r))
    (hroom : l.length ≤ width) (hwidth : width ≤ 126)
    (hmask : Marks mask (List.zipWith (p.targetHolds (.ofTy ty)) l r)) :
    g.evalOp ρ o = .ok (.scalar (.int mask)) := by
  have hlen : (List.zipWith (p.targetHolds (.ofTy ty)) l r).length ≤ width := by
    rw [List.length_zipWith]
    exact Nat.le_trans (Nat.min_le_left ..) hroom
  refine hop.evalOp_eq (.cons ha.holds (.cons hb.holds .nil)) ((eval_cmp hpred).mpr ?_)
  refine ⟨⟨fun _ => hviews, any_drop_maskBits (hlen.trans (hwidth.trans (by decide)))⟩, ?_⟩
  rw [hmask.eq_packBits]
  exact shapeAs_ui_maskLane hlen hwidth

/-- A select takes the lanes that are marked from its first branch, and the others from its
second. -/
theorem evalOp_sel (hop : g.Gives o .sel [a, b, w] v ty) (hty : ty.isVector = true)
    (hwraps : (ElemKind.ofTy ty).wraps = true) (hroom : l.length ≤ maskBits)
    (ha : g.Bound ρ a elemTy (.vector l)) (hb : g.Bound ρ b elemTy (.vector r))
    (hw : g.Bound ρ w (.ui width) (.scalar (.int mask))) (hlen : l.length = r.length) :
    g.evalOp ρ o =
      .ok (.vector ((pickLanes mask.testBit l r).map (Lane.normalize (.ofTy ty)))) := by
  refine hop.evalOp_eq (.cons ha.holds (.cons hb.holds (.cons hw.holds .nil)))
    ((eval_sel (c := ⟨.ui width, .scalar (.int mask)⟩) rfl).mpr ?_)
  have hbits : (fun i => bitOf (Lane.int mask).asInt i == 1) = mask.testBit := by
    funext i
    change (bitOf mask i == 1) = _
    rw [bitOf_natCast]
    cases mask.testBit i <;> rfl
  rw [hbits]
  exact ⟨hroom, _, chooseLanes_eq_ok (Nat.le_of_eq hlen), shapeAs_of_isVector hty (.inr hwraps)⟩

end Graph

/-- Each lane is picked from the branch that the condition says. -/
theorem Frame.getElem?_pickLanes {holds : Nat → Bool} (hlen : l.length = r.length) (i : Nat) :
    (pickLanes holds l r)[i]? = if holds i then l[i]? else r[i]? := by
  rw [pickLanes, List.getElem?_map, List.getElem?_zipIdx]
  by_cases hi : i < l.length
  · have hother : r[i]? = some (r.getD i default) := by
      rw [List.getD_eq_getElem?_getD, List.getElem?_eq_getElem (by omega), Option.getD_some]
    rw [hother, List.getElem?_eq_getElem hi]
    simp only [Option.map_some, Nat.zero_add]
    split <;> rfl
  · have hr : r.length ≤ i := by omega
    simp [List.getElem?_eq_none (Nat.not_lt.mp hi), List.getElem?_eq_none hr]

/-- Take words without a sign of up to 126 bits, and vectors of at most as many truth values. In any
graph and environment, casting a vector to a word and back gives the vector, and casting to a
vector and back a word that has no bits beyond the lanes gives the word; in between are the word
that marks the lanes and the lanes that the word marks, bit by bit. A comparison gives the word
that marks the lanes that satisfy its predicate, and a select takes the lanes that its word marks
from its first branch and the others from its second; the lanes are compared and selected as far as
their type lets them be read and brought into range. -/
theorem mask_casts_inverse (hroom : n ≤ width) (hwidth : width ≤ 126) :
    (∀ lanes : List Bool, lanes.length = n → ∃ mask, Marks mask lanes ∧ mask < twoPow n ∧
      ∀ {g : Graph} {ρ : Env} {pack unpack : OpId} {v word back : ValueId},
        g.Gives pack .unrealizedCast [v] word (.ui width) →
        g.Gives unpack .unrealizedCast [word] back (.vector n (.i 1)) →
        g.Bound ρ v (.vector n (.i 1)) (.vector (lanes.map Lane.ofBool)) →
        g.runOps [pack, unpack] ρ = ((ρ.bind word (.scalar (.int mask))).bind back
          (.vector (lanes.map Lane.ofBool)), .ok [])) ∧
    (∀ mask < twoPow n, ∃ lanes : List Bool, lanes.length = n ∧ Marks mask lanes ∧
      ∀ {g : Graph} {ρ : Env} {unpack pack : OpId} {word v back : ValueId},
        g.Gives unpack .unrealizedCast [word] v (.vector n (.i 1)) →
        g.Gives pack .unrealizedCast [v] back (.ui width) →
        g.Bound ρ word (.ui width) (.scalar (.int mask)) →
        g.runOps [unpack, pack] ρ = ((ρ.bind v (.vector (lanes.map Lane.ofBool))).bind back
          (.scalar (.int mask)), .ok [])) ∧
    (∀ {g : Graph} {ρ : Env} {o : OpId} {a b word : ValueId} {p : IntPredicate} {ty : Ty}
      {l r : List Lane}, g.Gives o .cmp [a, b] word (.ui width) →
      (ElemKind.ofTy ty).views = true →
      (g.attrs o).str? AttrName.pred = some p.mnemonic → g.Bound ρ a ty (.vector l) →
      g.Bound ρ b ty (.vector r) → l.length = n → r.length = n →
      ∃ mask, Marks mask (List.zipWith (p.targetHolds (.ofTy ty)) l r) ∧ mask < twoPow n ∧
        g.evalOp ρ o = .ok (.scalar (.int mask))) ∧
    ∀ {g : Graph} {ρ : Env} {o : OpId} {a b word v : ValueId} {elem : Ty} {l r : List Lane}
      {mask : Nat} {lanes : List Bool}, g.Gives o .sel [a, b, word] v (.vector n elem) →
      (ElemKind.ofTy (.vector n elem)).wraps = true →
      g.Bound ρ a (.vector n elem) (.vector l) → g.Bound ρ b (.vector n elem) (.vector r) →
      l.length = n → r.length = n → Marks mask lanes →
      g.Bound ρ word (.ui width) (.scalar (.int mask)) →
      ∃ picked, g.evalOp ρ o = .ok (.vector picked) ∧ picked.length = n ∧ ∀ i, picked[i]? =
        (if lanes.getD i false then l[i]? else r[i]?).map
          (Lane.normalize (.ofTy (.vector n elem))) := by
  have hbits : n ≤ maskBits := hroom.trans (hwidth.trans (by decide))
  refine ⟨?_, ?_, ?_, ?_⟩
  -- Packing first: the mask of the marks is the one that is computed.
  · intro lanes hlen
    have hmask := marks_packBits lanes
    refine ⟨packBits lanes, hmask, hlen ▸ hmask.lt, ?_⟩
    intro g ρ pack unpack v word back hpack hunpack hv
    exact hpack.runOps_pair hunpack (by decide) (by decide)
      (Graph.evalOp_pack hpack hv (by omega) hwidth hmask)
      (Graph.evalOp_unpack hunpack hpack.bound hlen hbits hmask)
  -- Unpacking first: the lanes are the bits of the mask, and they are packed to it again.
  · intro mask hlt
    have hmask := marks_of_lt hlt
    have hlen : ((List.range n).map mask.testBit).length = n := by simp
    refine ⟨_, hlen, hmask, ?_⟩
    intro g ρ unpack pack word v back hunpack hpack hword
    exact hunpack.runOps_pair hpack (by decide) (by decide)
      (Graph.evalOp_unpack hunpack hword hlen hbits hmask)
      (Graph.evalOp_pack hpack hunpack.bound (by omega) hwidth hmask)
  · intro g ρ o a b word p ty l r hop hviews hpred ha hb hl hr
    have hmask := marks_packBits (List.zipWith (p.targetHolds (.ofTy ty)) l r)
    have hlen : (List.zipWith (p.targetHolds (.ofTy ty)) l r).length = n := by
      rw [List.length_zipWith, hl, hr, Nat.min_self]
    exact ⟨_, hmask, hlen ▸ hmask.lt,
      Graph.evalOp_cmp hop hpred hviews ha hb (by omega) hwidth hmask⟩
  -- The select goes by the same bits.
  · intro g ρ o a b word v elem l r mask lanes hop hwraps ha hb hl hr hmask hword
    have hlen : l.length = r.length := hl.trans hr.symm
    refine ⟨_, Graph.evalOp_sel hop rfl hwraps (hl ▸ hbits) ha hb hword hlen, ?_, fun i => ?_⟩
    · rw [List.length_map, pickLanes, List.length_map, List.length_zipIdx, hl]
    · rw [List.getElem?_map, getElem?_pickLanes hlen, hmask i]

/-- A block with a vector of eight truth values, a word of eight bits and two vectors of eight lanes
for its arguments. The first is cast to a word and back, the second to a vector and back, and the
others are compared and selected from. -/
def maskGraph : Graph where
  ops := #[⟨.unrealizedCast, [⟨0⟩], [⟨4⟩], .empty, [], none⟩,
    ⟨.unrealizedCast, [⟨4⟩], [⟨5⟩], .empty, [], none⟩,
    ⟨.unrealizedCast, [⟨1⟩], [⟨6⟩], .empty, [], none⟩,
    ⟨.unrealizedCast, [⟨6⟩], [⟨7⟩], .empty, [], none⟩,
    ⟨.cmp, [⟨2⟩, ⟨3⟩], [⟨8⟩], ⟨[("pred", .str "slt")]⟩, [], none⟩,
    ⟨.sel, [⟨2⟩, ⟨3⟩, ⟨8⟩], [⟨9⟩], .empty, [], none⟩]
  values := #[⟨.argument ⟨0⟩ 0, .vector 8 (.i 1)⟩, ⟨.argument ⟨0⟩ 1, .ui 8⟩,
    ⟨.argument ⟨0⟩ 2, .vector 8 (.i 16)⟩, ⟨.argument ⟨0⟩ 3, .vector 8 (.i 16)⟩,
    ⟨.result ⟨0⟩ 0, .ui 8⟩, ⟨.result ⟨1⟩ 0, .vector 8 (.i 1)⟩,
    ⟨.result ⟨2⟩ 0, .vector 8 (.i 1)⟩, ⟨.result ⟨3⟩ 0, .ui 8⟩, ⟨.result ⟨4⟩ 0, .ui 8⟩,
    ⟨.result ⟨5⟩ 0, .vector 8 (.i 16)⟩]
  blocks := #[⟨[⟨0⟩, ⟨1⟩, ⟨2⟩, ⟨3⟩], [], none⟩]
  regions := #[]
  chains := #[[⟨⟨0⟩, 0⟩], [⟨⟨2⟩, 0⟩], [⟨⟨4⟩, 0⟩, ⟨⟨5⟩, 0⟩], [⟨⟨4⟩, 1⟩, ⟨⟨5⟩, 1⟩], [⟨⟨1⟩, 0⟩], [],
    [⟨⟨3⟩, 0⟩], [], [⟨⟨5⟩, 2⟩]]

/-- All eight bits of the word are in use, the highest of them too. -/
theorem mask_casts_inverse_fullWord :
    Edit.replay [.createBlock [.vector 8 (.i 1), .ui 8, .vector 8 (.i 16), .vector 8 (.i 16)],
        .createOp (Instr.unrealizedCast ⟨0⟩ (.ui 8)),
        .createOp (Instr.unrealizedCast ⟨4⟩ (.vector 8 (.i 1))),
        .createOp (Instr.unrealizedCast ⟨1⟩ (.vector 8 (.i 1))),
        .createOp (Instr.unrealizedCast ⟨6⟩ (.ui 8)), .createOp (Instr.cmp (.ui 8) ⟨2⟩ ⟨3⟩ "slt"),
        .createOp (Instr.sel ⟨⟨2⟩, .vector 8 (.i 16)⟩ ⟨3⟩ ⟨8⟩)] = .ok (maskGraph, []) ∧
    8 ≤ 8 ∧ 8 ≤ 126 ∧
    (∃ mask : Nat, Marks mask [true, false, false, true, false, false, false, true] ∧
      maskGraph.runOps [⟨0⟩, ⟨1⟩] (Env.empty.bind ⟨0⟩ (.vector
          ([true, false, false, true, false, false, false, true].map Lane.ofBool))) =
        (((Env.empty.bind ⟨0⟩ (.vector
          ([true, false, false, true, false, false, false, true].map Lane.ofBool))).bind ⟨4⟩
            (.scalar (.int mask))).bind ⟨5⟩ (.vector
              ([true, false, false, true, false, false, false, true].map Lane.ofBool)), .ok [])) ∧
    ∃ lanes : List Bool, Marks 137 lanes ∧
      maskGraph.runOps [⟨2⟩, ⟨3⟩] (Env.empty.bind ⟨1⟩ (.scalar (.int 137))) =
        (((Env.empty.bind ⟨1⟩ (.scalar (.int 137))).bind ⟨6⟩
          (.vector (lanes.map Lane.ofBool))).bind ⟨7⟩ (.scalar (.int 137)), .ok []) := by
  -- Packing the marks and unpacking the byte, each on its half of the graph.
  obtain ⟨hpack, hunpack, -, -⟩ := mask_casts_inverse (show 8 ≤ 8 by decide) (by decide)
  obtain ⟨mask, hmask, -, hthere⟩ :=
    hpack [true, false, false, true, false, false, false, true] rfl
  obtain ⟨lanes, -, hlanes, hback⟩ := hunpack 137 (by decide)
  refine ⟨by cbv, by decide, by decide, ⟨mask, hmask, ?_⟩, ⟨lanes, hlanes, ?_⟩⟩
  · exact hthere ⟨rfl, rfl, rfl, rfl⟩ ⟨rfl, rfl, rfl, rfl⟩ ⟨rfl, rfl⟩
  · exact hback ⟨rfl, rfl, rfl, rfl⟩ ⟨rfl, rfl, rfl, rfl⟩ ⟨rfl, rfl⟩

end SimdLowering
