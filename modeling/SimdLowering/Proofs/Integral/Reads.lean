/-
The rule for reads computes what it replaces.

The cells that a read goes over are a window into the buffer, and the last index moves the
window by as much as it grows. So where an index lies between two multiples of the lane
count, the windows at these multiples joined together contain the one that is wanted, and it
starts as many lanes into them as the index is above the lower multiple.
-/
import SimdLowering.Proofs.Integral.Stage
import SimdLowering.Rules.Load
import Mathlib.Tactic.Ring

set_option autoImplicit false

namespace SimdLowering

namespace Frame

variable {cells : List Lane} {base : Int} {k n : Nat} {shape : List Nat} {outer : List Int}

/-! ## Windows -/

theorem length_window : (window cells base n).length = n := by
  simp [window]

theorem getElem_window {i : Nat} (h : i < (window cells base n).length) :
    (window cells base n)[i] = cellAt cells (base + i) := by
  simp [window]

/-- Two windows side by side contain every window between them. -/
theorem window_joined (hk : k ≤ n) :
    ((window cells base n ++ window cells (base + n) n).drop k).take n =
      window cells (base + k) n := by
  refine List.ext_getElem ?_ fun i hi hi' => ?_
  · simp only [List.length_take, List.length_drop, List.length_append, length_window]
    omega
  · rw [length_window] at hi'
    rw [List.getElem_take, List.getElem_drop, List.getElem_append, getElem_window]
    split
    · rw [getElem_window]
      congr 1
      omega
    · rw [getElem_window, length_window]
      congr 1
      rename_i hge
      rw [length_window] at hge
      omega

/-- A window is the first part of it and the window behind that. -/
theorem window_append (hk : k ≤ n) :
    window cells base k ++ window cells (base + k) (n - k) = window cells base n := by
  refine List.ext_getElem ?_ fun i hi hi' => ?_
  · simp only [List.length_append, length_window]
    omega
  · rw [List.getElem_append, getElem_window]
    split
    · rw [getElem_window]
    · rw [getElem_window, length_window]
      congr 1
      rename_i hge
      rw [length_window] at hge
      omega

/-- A window laid over the lanes from one on. -/
theorem overlay_window (lanes : List Lane) :
    overlay (fun i : Nat => cellAt cells (base + i)) k lanes =
      lanes.take k ++ window cells base (lanes.length - k) := by
  refine List.ext_getElem ?_ fun i hi hi' => ?_
  · simp only [overlay, List.length_map, List.length_zipIdx, List.length_append, List.length_take,
      length_window]
    omega
  · rw [List.getElem_append]
    simp only [overlay, List.getElem_map, List.getElem_zipIdx, Nat.zero_add, List.length_take,
      List.getElem_take, getElem_window]
    have hlen : i < lanes.length := by simpa [overlay] using hi
    by_cases hik : i < k
    · rw [if_pos hik, dif_pos (by omega)]
    · rw [if_neg hik, dif_neg (by omega)]
      congr 2
      omega

/-- Indices beyond the dimensions are not looked at. -/
theorem flatIndex_append {indices more : List Int} (h : indices.length = shape.length) :
    flatIndex shape (indices ++ more) = flatIndex shape indices := by
  have hzip : shape.zip (indices ++ more) = shape.zip indices := by
    conv_lhs => rw [← List.append_nil shape, List.zip_append h.symm]
    exact List.append_nil _
  rw [flatIndex, flatIndex, hzip]

/-- Two rows of numbers that differ in the last place only pass by the same cells, and reach cells
as far apart as the last two numbers are. -/
theorem wayFits_append (base : Int) (l : List (Nat × Int)) (dim : Nat) (i : Int) :
    wayFits base (l ++ [(dim, i)]) = true ↔ wayFits base l = true ∧
      fits128 (l.foldl (fun base (dim, i) => base * dim + i) base * dim) = true ∧
        fits128 (l.foldl (fun base (dim, i) => base * dim + i) base * dim + i) = true := by
  induction l generalizing base with
  | nil => simp [wayFits]
  | cons p l ih =>
    simp only [List.cons_append, wayFits, List.foldl_cons, Bool.and_eq_true, ih, and_assoc]

/-- The last index moves the window by as much as it grows. The cells between are addressed if
those around them are. -/
theorem flatIndex_last (h : outer.length + 1 = shape.length) : ∃ start : Int,
    (∀ i : Int, flatIndex shape (outer ++ [i]) = start + i) ∧
      ∀ (i j : Int) (n k : Nat), Addresses shape (outer ++ [i]) n → 0 < n → 0 < k → 0 ≤ j →
        j + k ≤ i + n → Addresses shape (outer ++ [j]) k := by
  obtain ⟨dims, last, rfl⟩ : ∃ dims last, shape = dims ++ [last] := by
    refine ⟨shape.dropLast, shape.getLast ?_, (List.dropLast_append_getLast _).symm⟩
    rintro rfl
    cases h
  have hlen : dims.length = outer.length := by
    simpa using h.symm
  have hzip : ∀ i : Int, (dims ++ [last]).zip (outer ++ [i]) = dims.zip outer ++ [(last, i)] :=
    fun i => List.zip_append hlen
  have hflat : ∀ i : Int, flatIndex (dims ++ [last]) (outer ++ [i]) =
      flatIndex dims outer * last + i := fun i => by
    rw [flatIndex, hzip, List.foldl_append]
    rfl
  refine ⟨flatIndex dims outer * last, hflat, fun i j n k hi hn hk hj hjk => ?_⟩
  obtain ⟨hway, hcells⟩ := hi
  rw [hzip] at hway
  obtain ⟨houter, hstart, -⟩ := (wayFits_append ..).mp hway
  -- The window starts at a number of 128 bits, and the index that counts from there ends inside.
  have hroom : flatIndex dims outer * last + j + k ≤ twoPow 127 := by
    rw [hflat, cellsFit, Bool.or_eq_true, decide_eq_true_iff] at hcells
    have := hcells.resolve_left (by simpa using Nat.ne_of_gt hn)
    omega
  have hfits := of_decide_eq_true hstart
  refine ⟨?_, ?_⟩
  · rw [hzip]
    refine (wayFits_append ..).mpr ⟨houter, hstart, decide_eq_true ?_⟩
    change -(twoPow 127 : Int) ≤ flatIndex dims outer * last + j ∧
      flatIndex dims outer * last + j < twoPow 127
    change -(twoPow 127 : Int) ≤ flatIndex dims outer * last ∧ _ at hfits
    omega
  · rw [hflat, cellsFit, Bool.or_eq_true]
    exact Or.inr (decide_eq_true hroom)

/-- Fewer cells from the same one on are addressed as well. -/
theorem Addresses.mono {indices : List Int} (h : Addresses shape indices n) (hk : k ≤ n) :
    Addresses shape indices k := by
  refine ⟨h.way, ?_⟩
  have hcells := h.cells
  rw [cellsFit, Bool.or_eq_true, decide_eq_true_iff, beq_iff_eq] at hcells ⊢
  omega

end Frame

namespace Rules

open SimdLowering.Graph SimdLowering.Frame

variable {gen : Generation} {g : Graph} {gone : List OpId} {func op : OpId} {entry : BlockId}
  {old innermost : ValueId} {args ans : List RtValue} {ρ : Env} {Γ : List Known} {ka : Known}
  {a : Source} {indices outer : List Source} {ks : List Known} {ty elem : Ty} {dims : List Nat}
  {x : RtValue} {access : MemAccess ValueId} {shape : VectorShape}

/-! ## The plans -/

/-- A load of the window that the indices address. -/
theorem evaluates_load (ha : a.Holds g ρ Γ ka)
    (hks : List.Forall₂ (Source.Holds g ρ Γ) indices ks) (hty : ka.ty = .memory dims elem)
    (hlen : ks.length = dims.length) (hbits : (ElemKind.ofTy ty).bits ≠ 0)
    (hcells : Addresses dims (ks.map Known.number) (laneCount ty))
    (h : shapeAs ty (window ka.lanes (flatIndex dims (ks.map Known.number)) (laneCount ty)) =
      some x) : Evaluates g ρ Γ (loadStep ty a indices) ⟨ty, x⟩ := by
  refine .of_operands rfl rfl (List.append_nil (a :: indices)) (.cons ha hks) ?_
  exact eval_upd hty hlen hbits rfl hcells h

/-- A load with a last index of its own. -/
theorem evaluates_load_last {s : Source} {i : Int} (ha : a.Holds g ρ Γ ka)
    (hks : List.Forall₂ (Source.Holds g ρ Γ) outer ks)
    (hs : s.Holds g ρ Γ ⟨.index, .scalar (.int i)⟩) (hty : ka.ty = .memory dims elem)
    (hlen : ks.length + 1 = dims.length) (hbits : (ElemKind.ofTy ty).bits ≠ 0)
    (hcells : Addresses dims (ks.map Known.number ++ [i]) (laneCount ty))
    (h : shapeAs ty (window ka.lanes (flatIndex dims (ks.map Known.number ++ [i]))
      (laneCount ty)) = some x) :
    Evaluates g ρ Γ (loadStep ty a (outer ++ [s])) ⟨ty, x⟩ := by
  refine evaluates_load ha (List.rel_append hks (.cons hs .nil)) hty
    (by simpa using hlen) hbits ?_ ?_
  all_goals rw [List.map_append]
  · exact hcells
  · exact h

/-- A shift by the bytes of `k` lanes, if that is what they make up, takes out of two windows side
by side the one that starts `k` lanes in. -/
theorem evaluates_shift_windows {cells : List Lane} {base : Int} {k bytes : Nat}
    {lo hi amount : Source} (hbits : (ElemKind.ofTy ty).bits ≠ 0)
    (hbytes : bytes * 8 / (ElemKind.ofTy ty).bits = k) (hfew : bytes * 8 < twoPow 127)
    (hk : k ≤ laneCount ty) (hsmall : k + laneCount ty < twoPow 64)
    (hlo : lo.Holds g ρ Γ
      ⟨ty, .vector ((window cells base (laneCount ty)).map (Lane.normalize (.ofTy ty)))⟩)
    (hhi : hi.Holds g ρ Γ
      ⟨ty, .vector ((window cells (base + laneCount ty) (laneCount ty)).map
        (Lane.normalize (.ofTy ty)))⟩)
    (hamount : amount.Holds g ρ Γ ⟨.i 32, .scalar (.int bytes)⟩)
    (h : shapeAs ty (window cells (base + k) (laneCount ty)) = some x) :
    Evaluates g ρ Γ (Instr.shift ty lo hi amount false) ⟨ty, x⟩ := by
  refine evaluates_shift hlo hhi hamount false hbits (decide_eq_true ?_) ?_ hsmall ?_ ?_
  · omega
  · rw [← hbytes]
    exact (Int.ofNat_tdiv ..).symm
  · change k + laneCount ty ≤ (List.map _ _ ++ List.map _ _).length
    simp only [List.length_append, List.length_map, length_window]
    omega
  -- The two windows joined are one long window, of which the shift takes a part.
  · change shapeAs ty (((List.map _ _ ++ List.map _ _).drop k).take (laneCount ty)) = some x
    rw [← List.map_append, ← List.map_drop, ← List.map_take, window_joined hk, ← h]
    refine shapeAs_congr ?_
    rw [List.map_map]
    exact List.map_congr_left fun c _ => Lane.normalize_normalize _ c

/-- How far an index lies above the multiple of the lane count below it. -/
theorem exists_multiple_below {lanes : Nat} (hlanes : 0 < lanes) (m : Nat) :
    ∃ low : Nat, low + m % lanes = m ∧ m % lanes < lanes ∧ (m : Int).tmod lanes =
      (m % lanes : Nat) ∧
      (m : Int).tdiv lanes * lanes = low := by
  refine ⟨m / lanes * lanes, ?_, Nat.mod_lt _ hlanes, (Int.ofNat_tmod ..).symm, ?_⟩
  · rw [Nat.mul_comm]
    exact Nat.div_add_mod m lanes
  · rw [← Int.ofNat_tdiv, Nat.cast_mul]

/-- The lanes of the width that the whole bytes of `k` of them make up. -/
def lanesInBytes (width k : Nat) : Nat := k * width / 8 * 8 / width

theorem lanesInBytes_le (width k : Nat) : lanesInBytes width k ≤ k := by
  refine Nat.div_le_of_le_mul ?_
  rw [Nat.mul_comm width]
  exact Nat.div_mul_le_self _ 8

/-- The bytes cut no lane exactly if they are whole. -/
theorem lanesInBytes_eq_iff {width k : Nat} (hwidth : 0 < width) :
    lanesInBytes width k = k ↔ 8 ∣ k * width := by
  constructor
  · intro h
    have hle := Nat.div_mul_le_self (k * width / 8 * 8) width
    rw [show k * width / 8 * 8 / width = k from h] at hle
    exact Nat.dvd_of_mod_eq_zero (by omega)
  · intro h
    rw [lanesInBytes, Nat.div_mul_cancel h, Nat.mul_div_cancel _ hwidth]

/-- How many lanes below a constant index the rule reads, for the bytes between the index and the
multiple below it need not be whole. -/
def lanesCut (lanes width m : Nat) : Nat := m % lanes - lanesInBytes width (m % lanes)

theorem lanesCut_zero (lanes width : Nat) : lanesCut lanes width 0 = 0 := by
  rw [lanesCut, Nat.zero_mod, Nat.zero_sub]

theorem lanesCut_eq_zero {lanes width m : Nat} (hwidth : 0 < width)
    (h : 8 ∣ m % lanes * width) : lanesCut lanes width m = 0 := by
  rw [lanesCut, (lanesInBytes_eq_iff hwidth).mpr h, Nat.sub_self]

section

variable {m : Nat} (ha : a.Holds g ρ Γ ka) (hks : List.Forall₂ (Source.Holds g ρ Γ) outer ks)
  (hty : ka.ty = .memory dims elem) (hlen : ks.length + 1 = dims.length)
include ha hks hty hlen

/-- The load at a constant index. -/
theorem wholePlan_evaluates {i : Int} (hbits : (ElemKind.ofTy ty).bits ≠ 0)
    (hcells : Addresses dims (ks.map Known.number ++ [i]) (laneCount ty))
    (h : shapeAs ty (window ka.lanes (flatIndex dims (ks.map Known.number ++ [i]))
      (laneCount ty)) = some x) :
    (wholePlan ty a outer .index i).Makes (Evaluates g ρ) Γ
      fun Γ d => Evaluates g ρ Γ d ⟨ty, x⟩ :=
  (evaluates_constantInt rfl).then fun _ hbase =>
    (evaluates_load_last ha.snoc (hks.imp fun _ _ hs => hs.snoc) hbase.1 hty hlen hbits hcells
      h).ends

/-- Loads at two constant indices a vector apart, and the window that starts so many lanes into
the two. -/
theorem windowPlan_evaluates {i j : Int} {k bytes : Nat} (hj : j = i + laneCount ty)
    (hbits : (ElemKind.ofTy ty).bits ≠ 0)
    (hbytes : bytes * 8 / (ElemKind.ofTy ty).bits = k) (hfew : bytes < twoPow 31)
    (hk : k ≤ laneCount ty) (hsmall : k + laneCount ty < twoPow 64)
    (hlow : Addresses dims (ks.map Known.number ++ [i]) (laneCount ty))
    (hhigh : Addresses dims (ks.map Known.number ++ [j]) (laneCount ty))
    (h : shapeAs ty (window ka.lanes (flatIndex dims (ks.map Known.number ++ [i]) + k)
      (laneCount ty)) = some x) (hv : ty.isVector = true)
    (hw : (ElemKind.ofTy ty).wraps = true) :
    (windowPlan ty a outer .index i j bytes).Makes (Evaluates g ρ) Γ
      fun Γ d => Evaluates g ρ Γ d ⟨ty, x⟩ := by
  -- The last index moves the start of the window, the others do not change.
  obtain ⟨start, hstart, -⟩ := flatIndex_last
    (show (ks.map Known.number).length + 1 = dims.length by rw [List.length_map, hlen])
  have snoc : ∀ {Δ : List Known} {k' : Known}, List.Forall₂ (Source.Holds g ρ Δ) outer ks →
      List.Forall₂ (Source.Holds g ρ (Δ ++ [k'])) outer ks :=
    fun h => h.imp fun _ _ hs => hs.snoc
  have index : ∀ {Δ : List Known} (i : Int),
      Evaluates g ρ Δ (Instr.constantInt .index i) ⟨.index, .scalar (.int i)⟩ :=
    fun i => evaluates_constantInt rfl
  have hload : ∀ i base, start + i = base →
      shapeAs ty (window ka.lanes (flatIndex dims (ks.map Known.number ++ [i])) (laneCount ty)) =
        some (.vector ((window ka.lanes base (laneCount ty)).map
          (Lane.normalize (.ofTy ty)))) := fun i base hbase => by
    rw [hstart, hbase]
    exact shapeAs_of_isVector hv (Or.inr hw)
  -- One window from `i` on, the next one behind it, and a shift over both.
  refine (index i).then fun base hbase => ?_
  refine (evaluates_load_last ha.snoc (snoc hks) hbase.1 hty hlen hbits hlow
    (hload i _ rfl)).then
    fun lo hlo => ?_
  refine (index j).then fun next hnext => ?_
  refine (evaluates_load_last ha.snoc.snoc.snoc (snoc (snoc (snoc hks))) hnext.1 hty hlen hbits
    hhigh (hload j (start + i + laneCount ty) (by omega))).then fun hi hhi => ?_
  refine (evaluates_i32 (Int.natCast_nonneg _) (by omega)).then fun amount hamt => ?_
  rw [hstart] at h
  have hroom : (twoPow 31 : Nat) * 8 ≤ twoPow 127 := by decide
  exact (evaluates_shift_windows hbits hbytes (by omega) hk hsmall hlo.1.snoc.snoc.snoc
    hhi.1.snoc hamt.1 h).ends

/-- Loads around a constant index give what a read gives so many lanes below that index. -/
theorem alignedPlan_evaluates (hshape : ty.vectorShape = some shape)
    (hlanes : 0 < shape.lanes) (hpos : 0 < shape.elemBits) (hmax : shape.bits ≤ 1024)
    (hroom : Addresses dims (ks.map Known.number ++ [(m : Int)]) (2 * shape.lanes))
    (h : shapeAs ty (window ka.lanes (flatIndex dims (ks.map Known.number ++ [(m : Int)]) -
      lanesCut shape.lanes shape.elemBits m) (laneCount ty)) = some x) :
    YieldsUnless (fun _ => True) (alignedPlan ty shape.lanes shape.elemBits a outer .index m)
      fun p => p.Makes (Evaluates g ρ) Γ fun Γ d => Evaluates g ρ Γ d ⟨ty, x⟩ := by
  obtain ⟨-, hbits, -, -⟩ := ofTy_eq_of_vectorShape hshape
  have hcount := laneCount_eq hshape
  have hv := isVector_of_vectorShape hshape
  have hw : (ElemKind.ofTy ty).wraps = true := by
    refine (wraps_of_shapeAs h).resolve_left fun hnil => ?_
    have := congrArg List.length hnil
    rw [length_window, hcount, List.length_nil] at this
    omega
  obtain ⟨start, hstart, hbetween⟩ := flatIndex_last
    (show (ks.map Known.number).length + 1 = dims.length by rw [List.length_map, hlen])
  obtain ⟨low, hm, hk, hoffset, haligned⟩ := exists_multiple_below hlanes m
  have hle := lanesInBytes_le shape.elemBits (m % shape.lanes)
  -- The window that is wanted, from the multiple on.
  have hread : shapeAs ty (window ka.lanes (flatIndex dims (ks.map Known.number ++ [(low : Int)]) +
      lanesInBytes shape.elemBits (m % shape.lanes)) (laneCount ty)) = some x := by
    rw [← h, hstart, hstart, lanesCut]
    congr 2
    omega
  have hlow : Addresses dims (ks.map Known.number ++ [(low : Int)]) (laneCount ty) :=
    hbetween _ _ _ _ hroom (by omega) (by omega) (by omega) (by omega)
  unfold alignedPlan
  dsimp only
  rw [hoffset, haligned]
  refine (YieldsUnless.of_forall fun _ => id).bind fun bits hfit => ?_
  obtain ⟨-, rfl⟩ := fitI64_eq_ok.mp hfit
  have hamount : ((m % shape.lanes : Nat) * shape.elemBits : Int).tdiv 8 =
      (m % shape.lanes * shape.elemBits / 8 : Nat) := by
    rw [← Nat.cast_mul]
    exact (Int.ofNat_tdiv _ 8).symm
  rw [hamount]
  split
  · next hzero =>
    -- There is no byte between the two.
    have hnone : lanesInBytes shape.elemBits (m % shape.lanes) = 0 := by
      rw [lanesInBytes, Int.ofNat_eq_zero.mp hzero, Nat.zero_mul, Nat.zero_div]
    rw [hnone, Nat.cast_zero, Int.add_zero] at hread
    exact .pure (wholePlan_evaluates ha hks hty hlen (by omega) hlow hread)
  · refine (YieldsUnless.of_forall fun _ => id).bind fun next hfit => ?_
    obtain ⟨-, rfl⟩ := fitI64_eq_ok.mp hfit
    have hfew : shape.lanes ≤ shape.bits := Nat.le_mul_of_pos_right _ hpos
    have hinside : m % shape.lanes * shape.elemBits ≤ shape.bits :=
      Nat.mul_le_mul_right _ (Nat.le_of_lt hk)
    have h31 : 1024 < twoPow 31 := by decide
    have h64 : 1024 + 1024 < twoPow 64 := by decide
    exact .pure (windowPlan_evaluates ha hks hty hlen (by rw [hcount]) (by omega)
      (by rw [hbits]; rfl) (by omega) (by omega) (by omega) hlow
      (hbetween _ _ _ _ hroom (by omega) (by omega) (by omega) (by omega)) hread hv hw)

end

/-- The two halves of a load. -/
theorem splitPlan_evaluates {indices : List Source} {bits : Nat} (ha : a.Holds g ρ Γ ka)
    (hks : List.Forall₂ (Source.Holds g ρ Γ) indices ks) (hty : ka.ty = .memory dims elem)
    (hlen : ks.length = dims.length) (hshape : ty.vectorShape = some shape)
    (hpos : 0 < shape.elemBits) (hlong : 2 * bits ≤ shape.bits) (hsmall : 2 * bits < twoPow 64)
    (hcells : Addresses dims (ks.map Known.number) shape.lanes)
    (h : shapeAs ty (window ka.lanes (flatIndex dims (ks.map Known.number))
        (2 * bits / shape.elemBits) ++
      window ka.lanes (flatIndex dims (ks.map Known.number))
        (shape.lanes - 2 * bits / shape.elemBits)) = some x) :
    (splitPlan ty a indices bits).Makes (Evaluates g ρ) Γ fun Γ d => Evaluates g ρ Γ d ⟨ty, x⟩ := by
  obtain ⟨-, hbits, -, -⟩ := ofTy_eq_of_vectorShape hshape
  have hv := isVector_of_vectorShape hshape
  have hhalf : 2 * bits / shape.elemBits ≤ shape.lanes := by
    rw [← Nat.mul_div_cancel shape.lanes hpos]
    exact Nat.div_le_div_right hlong
  have hcount := laneCount_eq hshape
  have hw : window ka.lanes (flatIndex dims (ks.map Known.number)) (laneCount ty) = [] ∨
      (ElemKind.ofTy ty).wraps = true := by
    refine (wraps_of_shapeAs h).imp_left fun hnil => List.eq_nil_of_length_eq_zero ?_
    have := congrArg List.length hnil
    rw [List.length_append, length_window, length_window, List.length_nil] at this
    rw [length_window]
    omega
  -- The first load fills the vector from the indices on.
  refine (evaluates_load ha hks hty hlen (by omega) (hcount ▸ hcells)
    (shapeAs_of_isVector hv hw)).then fun low hlow => Evaluates.ends ?_
  refine .of_operands rfl rfl (by rw [Instr.upd]; rfl)
    (.cons ha.snoc (List.rel_append (hks.imp fun _ _ hs => hs.snoc) (.cons hlow.1 .nil))) ?_
  refine (eval_upd_over (some _) hty hlen (by omega)).mpr ⟨hcells.mono ?_, ?_⟩
  · refine (Nat.sub_le ..).trans (Nat.le_of_eq ?_)
    change (List.map _ _).length = _
    rw [List.length_map, length_window, hcount]
  -- The second one carries it up to the middle and starts at the same indices again.
  have hfirst : asWord ((2 * bits : Int).tdiv (ElemKind.ofTy ty).bits) =
    2 * bits / shape.elemBits := by
    rw [hbits, show (2 * bits : Int) = (2 * bits : Nat) by push_cast; rfl, ← Int.ofNat_tdiv]
    exact asWord_natCast (Nat.lt_of_le_of_lt (Nat.div_le_self ..) hsmall)
  change shapeAs ty (overlay _ (asWord ((2 * bits : Int).tdiv _)) (List.map _ _)) = some x
  rw [hfirst, overlay_window, List.length_map, length_window, ← List.map_take, hcount,
    ← window_append hhalf, List.take_left' length_window, ← h]
  refine shapeAs_congr ?_
  rw [List.map_append, List.map_append, List.map_map]
  congr 1
  exact List.map_congr_left fun c _ => Lane.normalize_normalize _ c

/-! ## Where the rule reads -/

/-- How many lanes below where the read starts its replacement starts. -/
def readCut (g : Graph) (innermost : ValueId) (shape : VectorShape) : Nat :=
  match g.constantInt? innermost with
  | .ok (some value) => lanesCut shape.lanes shape.elemBits value.toNat
  | _ => 0

section

variable (h : g.Vantage gone func entry ρ op)
include h

/-- The value of the constant that defines an index. -/
theorem number_of_constantInt? {value : Int} (hv : g.AtHand func op innermost)
    (hconst : g.constantInt? innermost = .ok (some value))
    (hty : (g.value innermost).ty = .index) : (g.known ρ innermost).number = value := by
  obtain ⟨d, hd, hk, hattr⟩ := (constantInt?_eq_some h.scene.consistent).mp hconst
  have hdef := h.through hv.visible hd
  have heval := h.eval hv.visible (h.scene.results_eq hdef.inside (by rw [hk]; decide)
    (by rw [hk]; decide) hd)
  have hget : (g.attrs d).get? AttrName.value = some (.int value) := by
    unfold AttrDict.int? at hattr
    obtain ⟨x, hx, hint⟩ := Option.bind_eq_some_iff.mp hattr
    cases x with
    | int n =>
      obtain rfl := Option.some.inj hint
      exact hx
    | _ => cases hint
  rw [hk] at heval
  have hshaped := (eval_constant hget).mp heval
  rw [hty] at hshaped
  -- The known lanes are those of the constant, wrapped to an index, which changes nothing.
  have hvalue : (g.known ρ innermost).value = .scalar (.int value) := (Option.some.inj hshaped).symm
  rw [Known.number, Known.lanes, hvalue]
  rfl

/-- A read of a vector that fits two registers, planned: it computes what is read so many lanes
below where the read starts. The loads that do it go over cells with numbers of 128 bits if the
read has room for another vector. -/
theorem readPlan_computes (hs : g.AtHand func op access.source)
    (hi : ∀ v ∈ access.indices, g.AtHand func op v)
    (hlast : access.indices.getLast? = some innermost)
    (hmemory : (g.value access.source).ty = .memory dims elem)
    (hlen : access.indices.length = dims.length) (hshape : ty.vectorShape = some shape)
    (hlanes : 0 < shape.lanes) (hpos : 0 < shape.elemBits) (hmax : shape.bits ≤ 1024)
    (hforward : ∀ value, g.constantInt? innermost = .ok (some value) →
      0 ≤ value ∧ (g.value innermost).ty = .index)
    (hroom : Addresses dims ((access.indices.map (g.known ρ)).map Known.number) (2 * shape.lanes))
    (hx : shapeAs ty (window (g.known ρ access.source).lanes
      (flatIndex dims ((access.indices.map (g.known ρ)).map Known.number) -
        readCut g innermost shape) (laneCount ty)) = some x) :
    YieldsUnless (fun _ => True) (readPlan g access innermost ty shape)
      (Decision.Computes g ρ ⟨ty, x⟩) := by
  obtain ⟨-, hbits, -, -⟩ := ofTy_eq_of_vectorShape hshape
  have hm : innermost ∈ access.indices := List.mem_of_getLast? hlast
  have hsource := h.holds (Γ := []) hs
  have hindices : ∀ l : List ValueId, (∀ v ∈ l, g.AtHand func op v) →
      List.Forall₂ (Source.Holds g ρ []) (l.map Source.value) (l.map (g.known ρ)) := by
    intro l hl
    rw [List.forall₂_map_left_iff, List.forall₂_map_right_iff]
    exact List.forall₂_same.mpr fun v hv => h.holds (hl v hv)
  unfold readPlan
  obtain ⟨value?, hvalue?⟩ : ∃ x, g.constantInt? innermost = .ok x := by
    obtain ⟨x, hx, -⟩ := h.scene.definedBy? h.inside (hi _ hm) .constant rfl
    exact ⟨_, by rw [constantInt?, hx]; rfl⟩
  rw [readCut, hvalue?] at hx
  rw [hvalue?]
  refine YieldsUnless.bind (.ok rfl) fun y hy => ?_
  subst hy
  have hcount := laneCount_eq hshape
  split
  · next hfilter =>
    -- No constant, or zero: nothing is cut.
    refine .pure (.of_makes ?_)
    refine (evaluates_load hsource (hindices _ hi) hmemory (by simpa using hlen) (by omega)
      (hroom.mono (by omega)) ?_).ends
    rw [← hx]
    congr 2
    cases value? with
    | none => simp
    | some value =>
      have hzero : value = 0 := by simpa using Option.filter_eq_none_iff.mp hfilter value rfl
      simp [hzero, lanesCut_zero]
  · next value hfilter =>
    obtain ⟨rfl, -⟩ := Option.filter_eq_some_iff.mp hfilter
    obtain ⟨hnonneg, hindex⟩ := hforward value hvalue?
    obtain ⟨m, rfl⟩ := Int.eq_ofNat_of_zero_le hnonneg
    rw [if_neg (Nat.ne_of_gt hlanes), h.scene.valueTy_eq (hi _ hm), hindex]
    -- The indices are the outer ones and the constant.
    have hsplit : access.indices = access.indices.dropLast ++ [innermost] :=
      (List.dropLast_append_getLast? innermost hlast).symm
    have houter := hindices access.indices.dropLast fun v hv => hi v (List.mem_of_mem_dropLast hv)
    have hnumber := number_of_constantInt? h (hi _ hm) hvalue? hindex
    have hnumbers : (access.indices.map (g.known ρ)).map Known.number =
        (access.indices.dropLast.map (g.known ρ)).map Known.number ++ [(m : Int)] := by
      conv_lhs => rw [hsplit]
      rw [List.map_append, List.map_append, List.map_singleton, List.map_singleton, hnumber]
    rw [hnumbers] at hroom hx
    refine YieldsUnless.bind (P := (· = Ty.index)) (.ok rfl) fun indexTy hty => ?_
    subst hty
    refine (alignedPlan_evaluates hsource houter hmemory ?_ hshape hlanes hpos hmax hroom hx).bind
      fun p hp => .pure (.of_makes hp)
    rw [List.length_map, List.length_dropLast, ← hlen]
    exact Nat.sub_add_cancel (List.length_pos_of_mem hm)

end

/-! ## The rule in an integer function -/

section

variable (h : g.IntegralStage gen gone func entry args ans ρ op old)
include h

/-- What a read reads: a window into the source. -/
theorem window_of_read (hk : g.kind op = .transferRead)
    (haccess : g.memAccess? op = .ok (some access)) :
    ∃ dims elem, (g.value access.source).ty = .memory dims elem ∧
      access.indices.length = dims.length ∧
      Addresses dims ((access.indices.map (g.known ρ)).map Known.number)
        (2 * laneCount (g.value old).ty) ∧
      shapeAs (g.value old).ty (window (g.known ρ access.source).lanes
        (flatIndex dims ((access.indices.map (g.known ρ)).map Known.number))
        (laneCount (g.value old).ty)) = some (g.known ρ old).value := by
  -- The access takes the indices by a prefix of the operands, so both read the same numbers.
  obtain ⟨-, -, hprefix, hrank⟩ := (h.scene.memAccess? h.inside).of_eq_ok haccess access rfl
  obtain ⟨tail, htail⟩ := hprefix
  have heval := h.eval_eq
  rw [hk, knownOperands, ← htail, List.cons_append, List.append_assoc] at heval
  obtain ⟨dims, elem, hty, -, hcells, hx⟩ := eval_transferRead heval
  have hlen : access.indices.length = dims.length := by
    rw [hrank, show (g.value access.source).ty = .memory dims elem from hty]
    rfl
  rw [List.map_append, ← hlen, ← List.length_map (f := g.known ρ), List.take_left] at hcells hx
  -- There is room for a second window behind the first one, by the assumption on reads.
  have hroom := h.room op h.reached hk _ _ old dims elem htail.symm h.hold hty
  refine ⟨dims, elem, hty, hlen, ⟨hcells.way, ?_⟩, hx⟩
  rw [cellsFit, Bool.or_eq_true]
  refine Or.inr (decide_eq_true ?_)
  change flatIndex dims (((access.indices ++ access.trailing.toList ++ tail).map
    (g.known ρ)).map Known.number) + _ ≤ _ at hroom
  rw [List.append_assoc, List.map_append, List.map_append, flatIndex_append (by simp [hlen])]
    at hroom
  exact_mod_cast hroom

/-- The rule for reads computes those it replaces. -/
theorem transferReadToUpd_computes (hk : g.kind op = .transferRead) :
    transferReadToUpd.ComputesAt g op ρ (g.known ρ old) := by
  refine .ofDecision h.scene.consistent ?_
  obtain ⟨source, others, t, shape, htys, hres, hshape, hlanes, hpos, hbytes, hmax⟩ :=
    (hk ▸ h.types).of_transferRead
  obtain rfl := (List.cons.inj hres).1
  have hmax : shape.bits ≤ 1024 := by
    refine Nat.le_trans hmax ?_
    cases gen <;> decide
  obtain ⟨access?, haccess, hfound⟩ := h.scene.memAccess? h.inside
  rw [haccess]
  refine YieldsUnless.bind (.ok rfl) fun a ha => ?_
  subst ha
  cases access? with
  | none => exact .pure trivial
  | some access =>
    obtain ⟨hs, hi, -, -⟩ := hfound access rfl
    obtain ⟨dims, elem, hty, hlen, hroom, hx⟩ := window_of_read h hk haccess
    dsimp only
    split
    · exact .pure trivial
    split
    · exact .pure trivial
    split
    · exact .pure trivial
    rw [resultShape?_eq h.hold, hshape, firstResultType_eq h.hold]
    cases hlast : access.indices.getLast? with
    | none => exact .pure trivial
    | some innermost =>
      refine YieldsUnless.bind (P := (· = (g.value old).ty)) (.ok rfl) fun ty hty' => ?_
      subst hty'
      rw [laneCount_eq hshape] at hroom
      refine readPlan_computes h.toStage.vantage hs hi hlast hty hlen hshape hlanes hpos hmax
        (fun value hvalue => h.integral.forward hk access innermost value haccess hlast hvalue)
        hroom ?_
      -- The lanes are made up of whole bytes.
      have hcut : readCut g innermost shape = 0 := by
        unfold readCut
        split
        · exact lanesCut_eq_zero hpos (Dvd.dvd.mul_left hbytes _)
        · rfl
      rwa [hcut, Nat.cast_zero, Int.sub_zero]

end

end Rules

end SimdLowering
