/-
The rules for reductions and splats compute what they replace.

A level of a tree combines each lane with the one that stands so many lanes further on,
around the end of the vector. If lane `i` was folded from the lanes `S i`, it is folded from
`S i` and `S (i + m)` after a level that shifts by `m`; after all levels, lane zero is folded
from everything. The lanes themselves are not followed any further than that.
-/
import SimdLowering.Proofs.Eval.Folds
import SimdLowering.Proofs.Integral.Stage
import SimdLowering.Proofs.Rules.Reduction
import Mathlib.Data.List.GetD
import Mathlib.Tactic.Ring

set_option autoImplicit false

namespace SimdLowering

namespace Rules

open SimdLowering.Graph SimdLowering.Frame

variable {gen : Generation} {g : Graph} {gone : List OpId} {func op : OpId} {entry : BlockId}
  {old v : ValueId} {args ans : List RtValue} {ρ : Env} {Γ : List Known} {o : Operand Source}
  {n m j width : Nat} {sign : Signedness} {S : Nat → Multiset Lane} {ys X : List Lane}
  {f comb : Lane → Lane → Lane} {T : Lane → Multiset Lane → Prop} {k : OpKind} {attrs : AttrDict}
  {elem : Ty}

/-! ## What the levels fold -/

/-- Halving once more on both sides changes nothing. -/
theorem twoPow_div_twoPow_succ (i j : Nat) :
    twoPow (j + 1) / twoPow (i + 1) = twoPow j / twoPow i := by
  rw [twoPow_succ, twoPow_succ, Nat.mul_div_mul_right _ _ (by decide)]

/-- One lane is the last amount. -/
theorem halvings_twoPow_zero : halvings (twoPow 0) = [twoPow 0] := by decide

/-- The amounts for twice the lanes start with the doubled one. -/
theorem halvings_twoPow_succ (j : Nat) :
    halvings (twoPow (j + 1)) = twoPow (j + 1) :: halvings (twoPow j) := by
  have hlog : ∀ i, (twoPow i).log2 = i := fun i => Nat.log2_two_pow
  unfold halvings
  rw [if_neg (Nat.ne_of_gt (twoPow_pos _)), if_neg (Nat.ne_of_gt (twoPow_pos _)), hlog, hlog,
    List.range_succ_eq_map, List.map_cons, List.map_map, twoPow_zero, Nat.div_one]
  congr 1
  exact List.map_congr_left fun i _ => twoPow_div_twoPow_succ i j

/-- From which lanes each lane is folded after levels that shift by the given numbers. -/
def spread (levels : List Nat) (S : Nat → Multiset Lane) : Nat → Multiset Lane :=
  levels.foldl (fun S m i => S i + S (i + m)) S

/-- After all levels of a tree, every lane is folded from as many lanes as the levels
reach. -/
theorem spread_halvings (j : Nat) (S : Nat → Multiset Lane) (i : Nat) :
    spread (halvings (twoPow j)) S i = ∑ k ∈ Finset.range (twoPow (j + 1)), S (i + k) := by
  induction j generalizing S with
  | zero =>
    rw [halvings_twoPow_zero, show twoPow (0 + 1) = 2 from rfl, Finset.sum_range_succ,
      Finset.sum_range_one]
    rfl
  | succ j ih =>
    have hdouble : twoPow (j + 1 + 1) = twoPow (j + 1) + twoPow (j + 1) := by
      rw [twoPow_succ, Nat.mul_two]
    rw [halvings_twoPow_succ, spread, List.foldl_cons]
    change spread _ _ i = _
    rw [ih, hdouble, Finset.sum_range_add, Finset.sum_add_distrib]
    congr 1
    exact Finset.sum_congr rfl fun k _ => congrArg S (by omega)

/-- The lanes of a vector, one by one, are all of them. -/
theorem sum_singletons (X : List Lane) :
    ∑ i ∈ Finset.range X.length, ({X.getD i default} : Multiset Lane) = X := by
  induction X with
  | nil => rfl
  | cons c X ih =>
    rw [List.length_cons, Finset.sum_range_succ']
    simp only [List.getD_cons_succ, List.getD_cons_zero]
    rw [ih, Multiset.add_comm, Multiset.singleton_add, Multiset.cons_coe]

/-- The vector has lanes in range, folded from the given lanes. -/
structure Folded (kind : ElemKind) (T : Lane → Multiset Lane → Prop) (n : Nat)
    (S : Nat → Multiset Lane) (ys : List Lane) : Prop where
  length : ys.length = n
  fits : ∀ c ∈ ys, c.normalize kind = c
  folds : ∀ (i : Nat) (h : i < ys.length), T ys[i] (S i)

/-- The lane that stands so many lanes further on, around the end. -/
theorem getElem_turned (hm : m ≤ n) (hlen : ys.length = n) {i : Nat}
    (hi : i < (((ys ++ ys).drop m).take n).length) :
    ∃ h : (i + m) % n < ys.length, (((ys ++ ys).drop m).take n)[i] = ys[(i + m) % n] := by
  have hin : i < n := by
    rw [List.length_take] at hi
    omega
  have hmod : (i + m) % n < ys.length := by
    rw [hlen]
    exact Nat.mod_lt _ (by omega)
  refine ⟨hmod, ?_⟩
  rw [List.getElem_take, List.getElem_drop, List.getElem_append]
  split
  · next h =>
    have : (i + m) % n = m + i := by rw [Nat.add_comm, Nat.mod_eq_of_lt (by omega)]
    simp only [this]
  · next h =>
    have : (i + m) % n = m + i - ys.length := by
      rw [Nat.add_comm, Nat.mod_eq_sub_mod (by omega), Nat.mod_eq_of_lt (by omega), hlen]
    simp only [this]

/-- Combining each lane with the one further on folds both. -/
theorem Folded.level {kind : ElemKind} (hT : Folding kind f comb T) (h : Folded kind T n S ys)
    (hm : m ≤ n) (hS : ∀ i, S (i % n) = S i) :
    Folded kind T n (fun i => S i + S (i + m))
      ((List.zipWith f ys (((ys ++ ys).drop m).take n)).map (Lane.normalize kind)) := by
  have hlen : (((ys ++ ys).drop m).take n).length = n := by
    rw [List.length_take, List.length_drop, List.length_append, h.length]
    omega
  refine ⟨?_, fun c hc => ?_, fun i hi => ?_⟩
  · rw [List.length_map, List.length_zipWith, hlen, h.length]
    omega
  · obtain ⟨d, -, rfl⟩ := List.mem_map.mp hc
    exact Lane.normalize_normalize kind d
  · rw [List.length_map, List.length_zipWith, hlen, h.length] at hi
    obtain ⟨hmod, hturned⟩ := getElem_turned hm h.length (i := i) (by omega)
    rw [List.getElem_map, List.getElem_zipWith, hturned]
    refine hT.join (h.folds i (by rw [h.length]; omega)) ?_
    rw [← hS (i + m)]
    exact h.folds _ hmod

/-! ## Instructions that combine lanes -/

/-- The instruction of a kind on two operands, with the type of the first. -/
def combineStep (kind : OpKind) (attrs : AttrDict) (a : Operand Source) (b : Source) : Step :=
  ⟨kind, [a.ref, b], [a.ty], attrs, []⟩

/-- The instruction works lane by lane: from two values that fit the type it computes the vector
of what the function makes of their lanes, brought into range. -/
def Lanewise (kind : OpKind) (attrs : AttrDict) (ty : Ty) (f : Lane → Lane → Lane) : Prop :=
  ∀ x y : RtValue, x.Fits ty → y.Fits ty → (ofKnown kind attrs [⟨ty, x⟩, ⟨ty, y⟩] ty).eval =
    .ok (.vector ((List.zipWith f x.lanes y.lanes).map (Lane.normalize (.ofTy ty))))

/-- A vector of lanes with a width has a shape. -/
theorem vectorShape_vector (hwidth : elem.scalarBits = some width) :
    (Ty.vector n elem).vectorShape = some ⟨n, elem, width, elem.isFloat⟩ := by
  rw [Ty.vectorShape, hwidth]
  rfl

/-- Lanes made up of whole bytes can be brought into range. -/
theorem wraps_of_bytes (hwidth : elem.scalarBits = some width) (hbytes : 8 ∣ width)
    (hpos : 0 < width) : (ElemKind.ofTy (.vector n elem)).wraps = true := by
  have hbits := (ofTy_eq_of_vectorShape (vectorShape_vector (n := n) hwidth)).2.1
  cases hkind : ElemKind.ofTy (.vector n elem) with
  | int bits sign =>
    obtain rfl : bits = width := (congrArg ElemKind.bits hkind).symm.trans hbits
    have hne : bits ≠ 127 := by omega
    simp [ElemKind.wraps, hne, Nat.ne_of_gt hpos]
  | _ => rfl

/-- The lanewise kinds are of that sort. -/
theorem lanewise_of_function (hwidth : elem.scalarBits = some width)
    (hw : (ElemKind.ofTy (.vector n elem)).wraps = true)
    (hk : lanewiseFunction (.vector n elem) k = some f) : Lanewise k attrs (.vector n elem) f := by
  intro x y hx hy
  have hshape := vectorShape_vector (n := n) hwidth
  have hcount : laneCount (.vector n elem) = n := laneCount_eq hshape
  have hxlen : x.lanes.length = n := hx.length _ hshape
  have hylen : y.lanes.length = n := hy.length _ hshape
  refine (eval_lanewise hk).mpr ⟨⟨?_, ?_, fun _ => lanewiseAble_of_wraps hw k⟩, ?_⟩
  · rw [hcount, Known.lanes, hxlen]
  · rw [hcount, Known.lanes, hylen]
  · rw [hcount, List.take_of_length_le, shapeAs_of_isVector rfl (Or.inr hw)]
    rw [List.length_zipWith, Known.lanes, Known.lanes, hxlen, hylen]
    omega

/-- A lanewise instruction gives the lanes combined one by one and brought into range. -/
theorem Lanewise.evaluates {ty : Ty} {ka kb : Known} {b : Source} (hf : Lanewise k attrs ty f)
    (ho : Yielding g ρ ka Γ o) (hb : b.Holds g ρ Γ kb) (hty : ka.ty = ty) (hty' : kb.ty = ty)
    (ha : ka.value.Fits ty) (hfit : kb.value.Fits ty) :
    Evaluates g ρ Γ (combineStep k attrs o b)
      ⟨ty, .vector ((List.zipWith f ka.lanes kb.lanes).map (Lane.normalize (.ofTy ty)))⟩ := by
  obtain ⟨tya, xa⟩ := ka
  obtain ⟨tyb, xb⟩ := kb
  obtain rfl : tya = ty := hty
  obtain rfl : tyb = tya := hty'
  exact .of_operands (by rw [combineStep, ho.2]) rfl rfl (.cons ho.1 (.cons hb .nil))
    (hf _ _ ha hfit)

/-! ## The tree -/

/-- The operand is a vector of lanes that were folded from the given lanes. -/
def Running (g : Graph) (ρ : Env) (elem : Ty) (T : Lane → Multiset Lane → Prop) (n : Nat)
    (S : Nat → Multiset Lane) (Γ : List Known) (o : Operand Source) : Prop :=
  ∃ k, Yielding g ρ k Γ o ∧ k.ty = .vector n elem ∧
    Folded (.ofTy (.vector n elem)) T n S k.lanes

section

variable (hT : Folding (.ofTy (.vector n elem)) f comb T) (hf : Lanewise k attrs (.vector n elem) f)
  (hwidth : elem.scalarBits = some width) (hbytes : 8 ∣ width) (hpos : 0 < width)
include hT hf hwidth hbytes hpos

/-- One level of a tree. Its amount in bytes has to fit a word. -/
theorem treeLevel_evaluates (h : Running g ρ elem T n S Γ o) (hm : m ≤ n)
    (hroom : m * width < twoPow 32) (hreach : m + n < twoPow 64) (hS : ∀ i, S (i % n) = S i) :
    (treeLevel (.vector n elem) false (fun a b => Plan.emit (combineStep k attrs a b.ref))
      o (m * width / 8)).Makes (Evaluates g ρ) Γ
        (Running g ρ elem T n fun i => S i + S (i + m)) := by
  obtain ⟨ka, ho, hty, hfolded⟩ := h
  obtain ⟨b, hb⟩ := hbytes
  have hshape := vectorShape_vector (n := n) hwidth
  have hbits : (ElemKind.ofTy (.vector n elem)).bits = width := (ofTy_eq_of_vectorShape hshape).2.1
  have hcount : laneCount (.vector n elem) = n := laneCount_eq hshape
  have hw := wraps_of_bytes (n := n) hwidth ⟨b, hb⟩ hpos
  have hmul : m * width = m * b * 8 := by rw [hb, Nat.mul_comm 8, Nat.mul_assoc]
  have hamount : m * width / 8 = m * b := by rw [hmul, Nat.mul_div_cancel _ (by decide)]
  rw [hmul] at hroom
  have h32 : twoPow 32 = 2 * twoPow 31 := by decide
  have h127 : twoPow 32 < twoPow 127 := by decide
  -- The shifted vector holds the same lanes.
  have hturned : ∀ c ∈ ((ka.lanes ++ ka.lanes).drop m).take n,
      c.normalize (.ofTy (.vector n elem)) = c := by
    intro c hc
    have hc' := List.mem_of_mem_drop (List.mem_of_mem_take hc)
    exact hfolded.fits c ((List.mem_append.mp hc').elim id id)
  have hlen : (((ka.lanes ++ ka.lanes).drop m).take n).length = n := by
    rw [List.length_take, List.length_drop, List.length_append, hfolded.length]
    omega
  unfold treeLevel
  rw [hamount]
  refine (evaluates_i32 (Int.natCast_nonneg _) (by omega)).then fun bytes hbytes => ?_
  refine (evaluates_shift (n := m) (x := .vector (((ka.lanes ++ ka.lanes).drop m).take n))
    ho.1.snoc ho.1.snoc hbytes.1 false (by rw [hbits]; exact Nat.ne_of_gt hpos)
    (decide_eq_true (by omega)) ?_ (by rw [hcount]; exact hreach) ?_ ?_).then
    fun shifted hshifted => ?_
  · have hcast : ((m * b : Nat) : Int) * 8 = m * (width : Nat) := by exact_mod_cast hmul.symm
    rw [hbits, hcast, Int.mul_tdiv_cancel _ (by omega)]
  · rw [hcount, List.length_append, hfolded.length]
    omega
  · rw [hcount, shapeAs_of_isVector rfl (Or.inr hw)]
    exact congrArg (fun l => some (RtValue.vector l))
      ((List.map_congr_left hturned).trans (List.map_id _))
  · refine Plan.Makes.mono (Evaluates.emits (hf.evaluates ho.snoc.snoc hshifted.1 hty rfl
      ⟨hfolded.fits, ?_⟩ ⟨hturned, ?_⟩)) ?_
    · intro s hs
      obtain rfl := Option.some.inj (hshape.symm.trans hs)
      exact hfolded.length
    · intro s hs
      obtain rfl := Option.some.inj (hshape.symm.trans hs)
      exact hlen
    · intro Δ o' _ hz
      exact ⟨_, hz, rfl, hfolded.level hT hm hS⟩

/-- All levels of a tree. Every lane ends up folded from all lanes, from its own on. -/
theorem treeLevels_evaluates (h : Running g ρ elem T n S Γ o) (hn : n = twoPow (j + 1))
    (hroom : twoPow j * width < twoPow 32) (hS : ∀ i, S (i % n) = S i) :
    (treeLevels (.vector n elem) false (fun a b => Plan.emit (combineStep k attrs a b.ref))
      ((halvings (twoPow j)).map fun lanes => lanes * width / 8) o).Makes (Evaluates g ρ) Γ
        (Running g ρ elem T n fun i => ∑ k ∈ Finset.range n, S (i + k)) := by
  have hdouble := twoPow_succ j
  have hfew : twoPow j ≤ twoPow j * width := Nat.le_mul_of_pos_right _ hpos
  have h64 : twoPow 32 * 4 < twoPow 64 := by decide
  rw [treeLevels, List.foldlM_map]
  -- What is left to do spreads the lanes to what all levels spread them to.
  let I (rest : List Nat) (Δ : List Known) (o' : Operand Source) : Prop := ∃ S',
    Running g ρ elem T n S' Δ o' ∧ (∀ m ∈ rest, m ≤ twoPow j) ∧ (∀ i, S' (i % n) = S' i) ∧
      spread rest S' = spread (halvings (twoPow j)) S
  refine Plan.Makes.mono (Plan.Makes.foldlM (I := I) ?_
    ⟨S, h, fun m hm => le_of_mem_halvings hm, hS, rfl⟩) ?_
  · rintro m rest Δ o' ⟨S', h', hrest, hS', hspread⟩
    have hm := hrest m (List.mem_cons_self ..)
    have hmroom : m * width < twoPow 32 :=
      Nat.lt_of_le_of_lt (Nat.mul_le_mul_right width hm) hroom
    refine Plan.Makes.mono (treeLevel_evaluates hT hf hwidth hbytes hpos h' (by omega) hmroom
      (by omega) hS') ?_
    rintro Δ o' - ho'
    refine ⟨_, ho', fun m hm => hrest m (List.mem_cons_of_mem _ hm), fun i => ?_, hspread⟩
    rw [hS' i, ← hS' (i % n + m), ← hS' (i + m), Nat.mod_add_mod]
  · rintro Δ o' - ⟨S', h', -, -, hspread⟩
    have hS' : S' = fun i => ∑ k ∈ Finset.range n, S (i + k) := by
      funext i
      rw [show S' = spread (halvings (twoPow j)) S from hspread, spread_halvings, hn]
    exact hS' ▸ h'

/-- A tree computes whatever was folded from all lanes. -/
theorem treePlan_evaluates {whole : Lane} {x : RtValue} (h : Running g ρ elem T n S Γ o)
    (hn : n = twoPow (j + 1)) (hroom : twoPow j * width < twoPow 32)
    (hS : ∀ i, S (i % n) = S i) (hwhole : T whole (∑ i ∈ Finset.range n, S i))
    (hx : shapeAs elem [whole] = some x) :
    (treePlan (combineStep k attrs) ((halvings (twoPow j)).map fun lanes => lanes * width / 8)
      o).Makes (Evaluates g ρ) Γ fun Γ d => Evaluates g ρ Γ d ⟨elem, x⟩ := by
  obtain ⟨ref, ty⟩ := o
  obtain rfl : ty = .vector n elem := by
    obtain ⟨ka, ho, hty, -⟩ := h
    exact ho.2.trans hty
  have hkind : ElemKind.ofTy (.vector n elem) = .ofTy elem :=
    (ofTy_eq_of_vectorShape (vectorShape_vector hwidth)).1
  unfold treePlan
  refine Plan.Makes.bind (treeLevels_evaluates hT hf hwidth hbytes hpos h hn hroom hS) ?_
  rintro Δ last - ⟨kb, hlast, -, hfolded⟩
  refine (evaluates_i32 (Int.le_refl 0) (by decide)).then fun index hindex => ?_
  -- Lane zero was folded from all lanes.
  have hlen : 0 < kb.lanes.length := by
    rw [hfolded.length, hn]
    exact twoPow_pos _
  have hzero := hfolded.folds 0 hlen
  simp only [Nat.zero_add] at hzero
  have hhead : kb.lanes.head? = some kb.lanes[0] :=
    (List.head?_eq_getElem? ..).trans (List.getElem?_eq_getElem hlen)
  refine (evaluates_extElem hlast.1.snoc hindex.1 hhead ?_).ends
  refine (shapeAs_congr ?_).trans hx
  have hunique := hT.unique hzero hwhole
  rw [hkind] at hunique
  exact congrArg (fun c => [c]) hunique

/-- So does the tree that is planned for the vector, if the bits of its first shift can be
counted. -/
theorem reductionTree_evaluates {whole : Lane} {x : RtValue} (h : Running g ρ elem T n S Γ o)
    (hn : n = twoPow (j + 1)) (hroom : twoPow j * width < twoPow 32)
    (hS : ∀ i, S (i % n) = S i) (hwhole : T whole (∑ i ∈ Finset.range n, S i))
    (hx : shapeAs elem [whole] = some x) :
    Yields (reductionTree (combineStep k attrs) (twoPow j) o) fun p =>
      p.Makes (Evaluates g ρ) Γ fun Γ d => Evaluates g ρ Γ d ⟨elem, x⟩ := by
  have hlog : (twoPow j).log2 = j := Nat.log2_two_pow
  have hbits : o.ty.elementType.scalarBits.getD 0 = width := by
    obtain ⟨ka, ho, hty, -⟩ := h
    rw [ho.2, hty, Ty.elementType, hwidth, Option.getD_some]
  rw [reductionTree, hlog, if_pos rfl, hbits, treeAmounts_eq_ok.mpr ⟨hroom, rfl⟩]
  exact .ok (treePlan_evaluates hT hf hwidth hbytes hpos h hn hroom hS hwhole hx)

end

/-- The lanes of a vector, before any level. -/
theorem folded_lanes {kind : ElemKind} (hT : Folding kind f comb T) (hlen : X.length = n)
    (hX : ∀ c ∈ X, c.normalize kind = c) :
    Folded kind T n (fun i => {X.getD (i % n) default}) X := by
  refine ⟨hlen, hX, fun i hi => ?_⟩
  rw [Nat.mod_eq_of_lt (hlen ▸ hi), List.getD_eq_getElem _ _ hi]
  exact hT.single (hX _ (List.getElem_mem hi))

/-- The two halves of a vector, combined lane by lane. -/
theorem folded_halves {kind : ElemKind} (hT : Folding kind f comb T) (hlen : X.length = n + n)
    (hX : ∀ c ∈ X, c.normalize kind = c) :
    Folded kind T n (fun i => {X.getD (i % n) default} + {X.getD (n + i % n) default})
      (((List.zipWith f ((X.drop 0).take n) ((X.drop n).take n)).take n).map
        (Lane.normalize kind)) := by
  have hsize : (List.zipWith f ((X.drop 0).take n) ((X.drop n).take n)).length = n := by
    simp [hlen]
  refine ⟨by simp [hlen], fun c hc => ?_, fun i hi => ?_⟩
  · obtain ⟨d, -, rfl⟩ := List.mem_map.mp hc
    exact Lane.normalize_normalize kind d
  · have hin : i < n := by
      rw [List.length_map, List.length_take, hsize, Nat.min_self] at hi
      exact hi
    rw [List.getElem_map, List.getElem_take, List.getElem_zipWith, List.getElem_take,
      List.getElem_take, List.getElem_drop, List.getElem_drop, Nat.mod_eq_of_lt hin,
      List.getD_eq_getElem _ _ (by omega), List.getD_eq_getElem _ _ (by omega)]
    simp only [Nat.zero_add]
    exact hT.join (hT.single (hX _ (List.getElem_mem _))) (hT.single (hX _ (List.getElem_mem _)))

/-- Over all positions each lane is met once. -/
theorem sum_lanes (hlen : X.length = n) :
    (∑ i ∈ Finset.range n, ({X.getD (i % n) default} : Multiset Lane)) = X := by
  rw [← sum_singletons, hlen]
  exact Finset.sum_congr rfl fun i hi => by rw [Nat.mod_eq_of_lt (Finset.mem_range.mp hi)]

/-- Over half of the positions each lane is met once, if two are met at a time. -/
theorem sum_halves (hlen : X.length = n + n) :
    (∑ i ∈ Finset.range n, ({X.getD (i % n) default} + {X.getD (n + i % n) default} :
      Multiset Lane)) = X := by
  rw [← sum_singletons, hlen, Finset.sum_range_add, Finset.sum_add_distrib]
  congr 1 <;>
  exact Finset.sum_congr rfl fun i hi => by rw [Nat.mod_eq_of_lt (Finset.mem_range.mp hi)]

/-! ## The rules -/

/-- The value is a vector of integers in range, whose lanes are folded to the given one. -/
structure FoldsLanes (g : Graph) (ρ : Env) (kind : CombiningKind) (n width : Nat)
    (sign : Signedness) (v : ValueId) (x : RtValue) : Prop where
  vectorTy : (g.value v).ty = .vector n (.int width sign)
  holds : (Source.value v).Holds g ρ [] (g.known ρ v)
  fits : (g.known ρ v).Fits
  folds : ∃ first others, (g.known ρ v).lanes = first :: others ∧ shapeAs (.int width sign)
    [others.foldl (Lane.combine kind (.int width sign)) first] = some x

namespace FoldsLanes

variable {kind : CombiningKind} {x : RtValue} (hr : FoldsLanes g ρ kind n width sign v x)
include hr

theorem length : (g.known ρ v).lanes.length = n :=
  hr.fits.length ⟨n, .int width sign, width, false⟩ (by rw [known, hr.vectorTy]; rfl)

/-- The lanes of the input are in range. -/
theorem normalize : ∀ c ∈ (g.known ρ v).lanes, c.normalize (.int width sign) = c := by
  intro c hc
  have hc' := hr.fits.lanes c hc
  rwa [show (g.known ρ v).ty = _ from hr.vectorTy] at hc'

/-- What the reduction folds to is the whole of them. -/
theorem whole (hT : Folding (.int width sign) f (Lane.combine kind (.int width sign)) T) :
    ∃ whole, T whole (g.known ρ v).lanes ∧ shapeAs (.int width sign) [whole] = some x := by
  obtain ⟨first, others, hlanes, hx⟩ := hr.folds
  have hfit := hr.normalize
  rw [hlanes] at hfit
  refine ⟨_, ?_, hx⟩
  have hall := hT.foldl (fun c hc => hfit c (List.mem_cons_of_mem _ hc))
    (hT.single (hfit first (List.mem_cons_self ..)))
  rwa [Multiset.singleton_add, Multiset.cons_coe, ← hlanes] at hall

/-- The input is the vector that the tree starts with. -/
theorem running (hT : Folding (.int width sign) f comb T) :
    Running g ρ (.int width sign) T n (fun i => {(g.known ρ v).lanes.getD (i % n) default}) []
      ⟨.value v, .vector n (.int width sign)⟩ :=
  ⟨g.known ρ v, ⟨hr.holds, hr.vectorTy.symm⟩, hr.vectorTy,
    folded_lanes hT hr.length hr.normalize⟩

end FoldsLanes

/-- The operation folds the lanes of an integer vector. -/
structure Reduces (g : Graph) (op : OpId) (ρ : Env) (old : ValueId) (kind : CombiningKind)
    (n width : Nat) (sign : Signedness) (v : ValueId) : Prop
    extends FoldsLanes g ρ kind n width sign v (g.known ρ old).value where
  combines : (g.attrs op).combiningKind? = some kind
  integral : kind ∈ integralReductions
  scalarTy : (g.value old).ty = .int width sign
  shape : g.operandShape? op 0 = .ok (some ⟨n, .int width sign, width, false⟩)

namespace Reduces

variable {kind : CombiningKind} (hr : Reduces g op ρ old kind n width sign v)
include hr

/-- There are three kinds. -/
theorem kind_cases : kind = .add ∨ kind = .minsi ∨ kind = .maxsi := by
  simpa [integralReductions] using hr.integral

/-- The result has the type of a lane. -/
theorem known_eq : g.known ρ old = ⟨.int width sign, (g.known ρ old).value⟩ := by
  rw [← hr.scalarTy]
  rfl

end Reduces

/-- A rule for reductions computes what it replaces, if it does for every input that an
integer function has. -/
theorem reductionRule_computes {name : String}
    {look : CombiningKind → VectorShape → Operand Source → Except Fault Decision}
    (h : g.IntegralStage gen gone func entry args ans ρ op old) (hk : g.kind op = .reduction)
    (hlook : ∀ kind n width sign v, Reduces g op ρ old kind n width sign v →
      YieldsUnless (fun _ => True)
        (look kind ⟨n, .int width sign, width, false⟩ ⟨.value v, .vector n (.int width sign)⟩)
        (Decision.Computes g ρ (g.known ρ old))) :
    (reductionRule name look).ComputesAt g op ρ (g.known ρ old) := by
  refine .ofDecision h.scene.consistent ?_
  obtain ⟨t, htys, hres, hnofloat⟩ := (hk ▸ h.types).of_reduction
  obtain ⟨v, hops, rfl⟩ := operands_single htys
  have hmem : v ∈ g.operands op := by simp [hops]
  -- Without a kind the rule declines; with one it goes by the lanes of the operand.
  cases hc : (g.attrs op).combiningKind? with
  | none =>
    rw [reductionInput?, hc]
    exact .pure trivial
  | some kind =>
    rw [reductionInput?_eq h.scene (h.atHand hmem) hops hc]
    cases hs : (g.value v).ty.vectorShape with
    | none => exact .pure trivial
    | some shape =>
      obtain ⟨n, width, sign, hty, rfl⟩ := exists_int_of_vectorShape hs hnofloat
      -- What the operation computes is a fold over the lanes, in the type of the scalar.
      have heval := h.eval_eq
      rw [hk, knownOperands, hops] at heval
      obtain ⟨first, others, hlanes, -, hx⟩ := (eval_reduction hc).mp heval
      have hscalar : (g.value old).ty = .int width sign := by
        rw [(List.cons.inj hres).1, hty]
        rfl
      have hkind : ElemKind.ofTy (g.known ρ v).ty = .int width sign := by
        rw [known, hty]
        rfl
      rw [hscalar, hkind] at hx
      rw [hty]
      refine hlook kind n width sign v ⟨⟨hty, h.toStage.holds (h.atHand hmem),
        h.fits_operand hmem, first, others, hlanes, hx⟩, hc, h.integral.combines hk kind hc,
        hscalar, ?_⟩
      rw [h.scene.operandShape? h.inside 0, hops]
      exact congrArg Except.ok hs

section

variable {kind : CombiningKind}

/-- The sizes of what is reduced by a tree. -/
theorem treeSizes (h : VectorShape.isElementwise ⟨n, .int width sign, width, false⟩ = true) :
    (∃ j, n = twoPow (j + 1) ∧ n / 2 = twoPow j) ∧ 8 ∣ width ∧ 0 < width ∧ width < 128 ∧
      n * width ≤ 1024 := by
  rw [VectorShape.isElementwise, List.contains_iff_mem] at h
  simp only [elementwiseShapes, VectorShape.pair, List.mem_cons, Prod.mk.injEq,
    List.not_mem_nil, or_false] at h
  rcases h with ⟨rfl, rfl⟩ | ⟨rfl, rfl⟩ | ⟨rfl, rfl⟩ | ⟨rfl, rfl⟩
  · exact ⟨⟨5, rfl, rfl⟩, by decide⟩
  · exact ⟨⟨4, rfl, rfl⟩, by decide⟩
  · exact ⟨⟨3, rfl, rfl⟩, by decide⟩
  · exact ⟨⟨4, rfl, rfl⟩, by decide⟩

/-- A tree with the lanewise form of the combining function computes the reduction. -/
theorem reductionTree_computes {x : RtValue} (hr : FoldsLanes g ρ kind n width sign v x)
    (hT : Folding (.int width sign) f (Lane.combine kind (.int width sign)) T)
    (hk : lanewiseFunction (.vector n (.int width sign)) k = some f)
    (helem : VectorShape.isElementwise ⟨n, .int width sign, width, false⟩ = true) :
    Yields (do
      return .follow (← reductionTree (fun a b => .pureOp k [a.ref, b] a.ty) (n / 2)
        ⟨.value v, .vector n (.int width sign)⟩))
      (Decision.Computes g ρ ⟨.int width sign, x⟩) := by
  obtain ⟨⟨j, hn, hhalf⟩, hbytes, hpos, -, hroom⟩ := treeSizes helem
  -- The lanes taken together reduce to what the operation gives, in whatever order.
  obtain ⟨whole, hwhole, hx⟩ := hr.whole hT
  have hsmall : twoPow j * width ≤ n * width := by
    have := twoPow_succ j
    exact Nat.mul_le_mul_right width (by omega)
  have h32 : 1024 < twoPow 32 := by decide
  have hT' : Folding (.ofTy (.vector n (.int width sign))) f _ T := hT
  have hw : (ElemKind.ofTy (.vector n (.int width sign))).wraps = true :=
    wraps_of_bytes rfl hbytes hpos
  rw [hhalf]
  refine Yields.bind (reductionTree_evaluates hT' (lanewise_of_function rfl hw hk) rfl hbytes hpos
    (hr.running hT) hn (by omega) (fun i => by rw [Nat.mod_mod]) ?_ hx) fun p hp =>
    .pure (.of_makes hp)
  rw [sum_lanes hr.length]
  exact hwhole

/-- A tree over one register computes what its tree does. -/
theorem registerTree_computes {suits : Bool} {combine : Operand Source → Source → Step}
    {shape : VectorShape} {r : Known} (h : suits = true →
      Yields (do return .follow (← reductionTree combine (shape.lanes / 2) o))
        (Decision.Computes g ρ r)) :
    YieldsUnless (fun _ => True) (registerTree suits combine shape o)
      (Decision.Computes g ρ r) := by
  unfold registerTree
  split
  · next hsuits =>
    refine (YieldsUnless.of_forall fun _ _ => trivial).bind fun bits _ => ?_
    split
    · exact (h hsuits).unless
    · exact .pure trivial
  · exact .ok trivial

end

/-- Thirty-two lanes of thirty-two bits: the halves are added, and a tree adds the sums. -/
theorem halvedSumPlan_evaluates {x : RtValue} (hr : FoldsLanes g ρ .add 32 32 sign v x) :
    (halvedSumPlan ⟨32, .int 32 sign, 32, false⟩
      ((halvings (twoPow 3)).map fun lanes => lanes * 32 / 8)
      ⟨.value v, .vector 32 (.int 32 sign)⟩).Makes
      (Evaluates g ρ) [] fun Γ d => Evaluates g ρ Γ d ⟨.int 32 sign, x⟩ := by
  have hT : Folding (.int 32 sign) Lane.add (Lane.combine .add (.int 32 sign)) (SumsTo 32) :=
    folding_sum (by decide)
  obtain ⟨whole, hwhole, hx⟩ := hr.whole hT
  have hlen := hr.length
  have hfit := hr.normalize
  -- Either half is read as it is.
  have hhalf : ∀ i, shapeAs (.vector 16 (.int 32 sign)) (((g.known ρ v).lanes.drop i).take 16) =
      some (.vector (((g.known ρ v).lanes.drop i).take 16)) := by
    intro i
    rw [shapeAs_of_isVector rfl (Or.inr rfl)]
    refine congrArg (fun l => some (RtValue.vector l))
      ((List.map_congr_left ?_).trans (List.map_id _))
    exact fun c hc => hfit c (List.mem_of_mem_drop (List.mem_of_mem_take hc))
  have hcount : laneCount (.vector 16 (.int 32 sign)) = 16 := rfl
  unfold halvedSumPlan
  simp only [Nat.reduceDiv]
  refine (evaluates_ext hr.holds (by decide) (by rw [hcount]; decide) (by rw [hcount, hlen]; decide)
    (hhalf 0)).then fun lo hlo => ?_
  refine (evaluates_ext hr.holds.snoc (by decide) (by rw [hcount]; decide) (by rw [hcount, hlen])
    (hhalf 16)).then fun hi hhi => ?_
  have htop : (((g.known ρ v).lanes.drop 0).take 16).length = 16 := by simp [hlen]
  have hbottom : (((g.known ρ v).lanes.drop 16).take 16).length = 16 := by simp [hlen]
  refine (evaluates_lanewise_vector (f := Lane.add) rfl hlo.snoc hhi.1 rfl rfl
    (Nat.le_of_eq htop.symm) (Nat.le_of_eq hbottom.symm)).then fun sum hsum => ?_
  have hT' : Folding (.ofTy (.vector 16 (.int 32 sign))) Lane.add _ (SumsTo 32) := hT
  refine treePlan_evaluates hT' (lanewise_of_function rfl rfl rfl) rfl (by decide) (by decide)
    ⟨_, hsum, rfl, folded_halves hT hlen hfit⟩ rfl (by decide) (fun i => by rw [Nat.mod_mod]) ?_ hx
  rw [sum_halves hlen]
  exact hwhole

/-- A rule that, of the reductions of integers it rewrites, computes the fold of the lanes, and
takes the sign of a minimum or maximum from their type. -/
def FoldsByType (rule : Rule) : Prop :=
  ∃ name look, rule = reductionRule name look ∧
    ∀ {g : Graph} {ρ : Env} {kind : CombiningKind} {n width : Nat} {sign : Signedness}
      {v : ValueId} {x : RtValue}, FoldsLanes g ρ kind.byType n width sign v x →
      VectorShape.isElementwise ⟨n, .int width sign, width, false⟩ = true →
      YieldsUnless (fun _ => True) (look kind ⟨n, .int width sign, width, false⟩
        ⟨.value v, .vector n (.int width sign)⟩)
        (Decision.Computes g ρ ⟨.int width sign, x⟩)

theorem minReduction_foldsByType : FoldsByType minReduction := by
  refine ⟨_, _, rfl, fun {_ _ kind _ _ _ _ _} hr helem =>
    registerTree_computes fun hsuits => ?_⟩
  cases kind with
  | minsi | minui | minf => exact reductionTree_computes hr folding_minimum rfl helem
  | _ => cases hsuits

theorem maxReduction_foldsByType : FoldsByType maxReduction := by
  refine ⟨_, _, rfl, fun {_ _ kind _ _ _ _ _} hr helem =>
    registerTree_computes fun hsuits => ?_⟩
  cases kind with
  | maxsi | maxui | maxf => exact reductionTree_computes hr folding_maximum rfl helem
  | _ => cases hsuits

theorem intAddReduction_foldsByType : FoldsByType intAddReduction := by
  refine ⟨_, _, rfl, fun hr helem => ?_⟩
  split
  · exact .ok trivial
  next hcond =>
  simp only [not_or, not_not] at hcond
  obtain ⟨rfl, -, -⟩ := hcond
  split
  · next hpair =>
    obtain ⟨rfl, rfl⟩ := Prod.mk.inj hpair
    refine (YieldsUnless.of_forall fun _ => id).bind fun amounts hamounts => ?_
    have hquarter : 32 / 2 / 2 = twoPow 3 := by decide
    dsimp only at hamounts
    rw [hquarter] at hamounts
    obtain ⟨-, rfl⟩ := treeAmounts_eq_ok.mp hamounts
    exact .pure (.of_makes (halvedSumPlan_evaluates hr))
  · obtain ⟨-, -, -, hwidth, -⟩ := treeSizes helem
    exact (reductionTree_computes hr (folding_sum hwidth) rfl helem).unless

/-- The rules for sums of floats let integers be. -/
theorem f32AddReduction_foldsByType : FoldsByType f32AddReduction := by
  refine ⟨_, _, rfl, fun _ _ => ?_⟩
  rw [if_pos (Or.inr (Or.inl rfl))]
  exact .ok trivial

theorem bf16AddReduction_foldsByType : FoldsByType bf16AddReduction := by
  refine ⟨_, _, rfl, fun _ _ => ?_⟩
  rw [if_pos (Or.inr (Or.inl rfl))]
  exact .ok trivial

/-- In an integer function no reduction is unsigned by its name, so what may not stay is computed
as it was. -/
theorem FoldsByType.computes {rule : Rule} (hrule : FoldsByType rule)
    (h : g.IntegralStage gen gone func entry args ans ρ op old) (hk : g.kind op = .reduction)
    (hopen : Generation.aieml.conversionTarget.Open g op) :
    rule.ComputesAt g op ρ (g.known ρ old) := by
  obtain ⟨name, look, rfl, hlook⟩ := hrule
  refine reductionRule_computes h hk fun kind n width sign v hr => ?_
  have hsame : kind.byType = kind := by
    rcases hr.kind_cases with rfl | rfl | rfl <;> rfl
  rw [hr.known_eq]
  exact hlook (hsame.symm ▸ hr.toFoldsLanes) (treeShape_of_open hk hopen hr.combines hr.shape)

/-- The kind of lanes is that of the element type, and a scalar is its own element. -/
theorem ofTy_elementType {t : Ty} (ht : t.elementType.IsScalar) :
    ElemKind.ofTy t.elementType = ElemKind.ofTy t := by
  unfold ElemKind.ofTy
  rw [show t.elementType.elementType = t.elementType from ht]

/-- The rule for splats of an extracted lane computes those it replaces. -/
theorem extractBroadcastToLane_computes
    (h : g.IntegralStage gen gone func entry args ans ρ op old) (hk : g.kind op = .broadcast) :
    extractBroadcastToLane.ComputesAt g op ρ (g.known ρ old) := by
  refine .ofDecision h.scene.consistent (Yields.unless ?_)
  obtain ⟨s, t, htys, hres⟩ := (hk ▸ h.types).of_broadcast
  obtain ⟨lane, hops, rfl⟩ := operands_single htys
  have hlane : g.AtHand func op lane := h.atHand (by simp [hops])
  rw [operandAt_eq_ok.mpr (show (g.operands op)[0]? = some lane by rw [hops]; rfl)]
  refine Yields.bind (.ok rfl) fun l hl => ?_
  subst hl
  refine (h.scene.definedBy? h.inside hlane .extract rfl).bind fun x hx => ?_
  cases x with
  | none => exact .pure trivial
  | some d =>
    have hd := hx d rfl
    have he := h.enter hd hlane (by decide) (by decide) (by decide)
    obtain ⟨u, htyu, hresd, hscalar⟩ := (hd.kind ▸ he.types).of_extract
    obtain ⟨v, hopsd, rfl⟩ := operands_single htyu
    have hv : v ∈ g.operands d := by simp [hopsd]
    dsimp only
    cases hpos : g.extractPosition? d with
    | none => exact .pure trivial
    | some position =>
      dsimp only
      rw [operandAt_eq_ok.mpr (show (g.operands d)[0]? = some v by rw [hopsd]; rfl),
        firstResultType_eq h.hold]
      refine .pure (.of_makes ?_)
      -- The extracted lane is in the range of its type, and the splat copies it.
      have hextract := he.eval_eq
      rw [hd.kind, knownOperands, hopsd] at hextract
      obtain ⟨c, hc, hx⟩ := eval_extract.mp hextract
      rw [intOrZero_of_extractPosition? hpos] at hc
      rw [(List.cons.inj hresd).1] at hx
      rw [shapeAs_of_not_isVector hscalar.not_isVector
          ((wraps_of_shapeAs hx).resolve_left (List.cons_ne_nil c [])),
        ofTy_elementType hscalar,
        show c.normalize (.ofTy (g.value v).ty) = c from
          (he.fits_operand hv).lanes c (List.mem_of_getElem? hc)] at hx
      have hsplat := h.eval_eq
      rw [hk, knownOperands, hops] at hsplat
      obtain ⟨c', hc', hx'⟩ := eval_broadcast.mp hsplat
      obtain rfl : c = c' := by
        rw [Known.lanes, ← Option.some.inj hx] at hc'
        exact Option.some.inj hc'
      exact (evaluates_broadcastLane (h.toStage.holds (hd.readable v hv)) hc hx').ends

end Rules

end SimdLowering
