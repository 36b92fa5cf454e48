/-
A tree of shifts folds all lanes.

Shifting a vector against itself turns it round, so a level of the tree combines each lane with
the one that stands half of what is left further on. What a lane was combined from are then the
lanes at the distances that the levels so far add up to, and after the last level that is every
lane, once. Which of them comes first differs from lane to lane. So the combining function has to
be associative and commutative, and it has to be so on lanes in range only: an instruction brings
each result into range, and gets nothing else to read.

A tree is as long as its vector is wide: one level for each time the number of lanes can be
halved. The bits that the first level shifts by, which are the most, have to fit the word that they
are counted in; the bytes that they come to then fit, too.
-/
import SimdLowering.Proofs.Graph.History
import SimdLowering.Proofs.Integral.Reductions
import SimdLowering.Proofs.Products.Arrival

set_option autoImplicit false

namespace SimdLowering

open SimdLowering.Rules SimdLowering.Graph

variable {bits k n width : Nat} {sign : Signedness} {kind : ElemKind} {elem ty : Ty}
  {f : Lane → Lane → Lane} {code : OpKind} {attrs : AttrDict}

/-! ## Folds that do not depend on the order -/

section

variable {α : Type} (op : α → α → α) [Std.Associative op] [Std.Commutative op] {x y : α}
  {l m : List α}

omit [Std.Commutative op] in
/-- Folds are folded by folding on. -/
theorem foldl_append_cons : (l ++ y :: m).foldl op x = op (l.foldl op x) (m.foldl op y) := by
  rw [List.foldl_append, List.foldl_cons, List.foldl_assoc]

/-- A fold that starts with one of its members comes to the same wherever it starts. -/
theorem foldl_eq_of_perm (h : (x :: l).Perm (y :: m)) : l.foldl op x = m.foldl op y := by
  by_cases hxy : x = y
  · subst hxy
    exact (List.Perm.cons_inv h).foldl_op_eq
  · -- Either start is among the others of the other fold.
    have hy : y ∈ l :=
      (List.mem_cons.mp (h.mem_iff.mpr List.mem_cons_self)).resolve_left (Ne.symm hxy)
    obtain ⟨s, t, rfl⟩ := List.append_of_mem hy
    have hl : (s ++ y :: t).Perm (y :: (s ++ t)) := List.perm_middle
    have hm : m.Perm (x :: (s ++ t)) := by
      refine (List.Perm.cons_inv (a := y) ?_).symm
      exact (List.Perm.swap x y (s ++ t)).trans ((hl.symm.cons x).trans h)
    have hswap : op x y = op y x := Std.Commutative.comm x y
    calc (s ++ y :: t).foldl op x
        = (s ++ t).foldl op (op x y) := hl.foldl_op_eq
      _ = (s ++ t).foldl op (op y x) := by rw [hswap]
      _ = m.foldl op y := hm.symm.foldl_op_eq

end

/-! ## Combining lanes in range -/

/-- A lane in the range of its type. -/
abbrev LaneIn (kind : ElemKind) : Type := {c : Lane // c.normalize kind = c}

/-- What is made of two lanes in range, brought into range. -/
def combineIn (kind : ElemKind) (f : Lane → Lane → Lane) (a b : LaneIn kind) : LaneIn kind :=
  ⟨(f a.val b.val).normalize kind, Lane.normalize_normalize kind _⟩

theorem val_combineIn (a b : LaneIn kind) :
    (combineIn kind f a b).val = (f a.val b.val).normalize kind := rfl

/-- The instruction works lane by lane, and it does not matter in which order, or in which groups,
it combines lanes in range. -/
structure Combines (code : OpKind) (attrs : AttrDict) (ty : Ty)
    (f : Lane → Lane → Lane) : Prop where
  lanewise : Lanewise code attrs ty f
  assoc : Std.Associative (combineIn (.ofTy ty) f)
  comm : Std.Commutative (combineIn (.ofTy ty) f)

/-- The lane is the fold of the given lanes, in some order. -/
def FoldOf (kind : ElemKind) (f : Lane → Lane → Lane) (a : Lane) (s : Multiset Lane) : Prop :=
  ∃ (first : LaneIn kind) (others : List (LaneIn kind)),
    a = (others.foldl (combineIn kind f) first).val ∧
      s = ((first :: others).map Subtype.val : List Lane)

theorem folding_foldOf [Std.Associative (combineIn kind f)] [Std.Commutative (combineIn kind f)] :
    Folding kind f (fun a c => (f a c).normalize kind) (FoldOf kind f) where
  single ha := ⟨⟨_, ha⟩, [], rfl, rfl⟩
  join := by
    rintro _ _ _ _ ⟨x, l, rfl, rfl⟩ ⟨y, m, rfl, rfl⟩
    refine ⟨x, l ++ y :: m, ?_, ?_⟩
    · rw [foldl_append_cons]
      rfl
    · rw [Multiset.coe_add, ← List.map_append, List.cons_append]
  snoc := by
    rintro _ c _ ⟨x, l, rfl, rfl⟩ hc
    refine ⟨x, l ++ [⟨c, hc⟩], ?_, ?_⟩
    · rw [foldl_append_cons]
      rfl
    · rw [← List.cons_append, List.map_append, ← Multiset.coe_add]
      rfl
  unique := by
    rintro _ _ _ ⟨x, l, rfl, rfl⟩ ⟨y, m, rfl, hsame⟩
    have hperm : ((x :: l).map Subtype.val).Perm ((y :: m).map Subtype.val) :=
      Multiset.coe_eq_coe.mp hsame
    rw [foldl_eq_of_perm (combineIn kind f) ((List.map_perm_map_iff Subtype.val_injective).mp
      hperm)]

/-! ## Sums and extrema -/

theorem LaneIn.ext_asInt {a b : LaneIn (.int bits sign)} (h : a.val.asInt = b.val.asInt) :
    a = b := by
  rw [Subtype.ext_iff, (Lane.eq_int_of_normalize a.2).1, (Lane.eq_int_of_normalize b.2).1, h]

/-- A lanewise instruction on integer lanes is of that sort if what it does to the integers they
hold is associative and commutative. -/
theorem Combines.of_asInt (g : Int → Int → Int) [Std.Associative g] [Std.Commutative g]
    (hcode : Frame.lanewiseFunction (.vector n (.int bits sign)) code = some f)
    (hwraps : (ElemKind.int bits sign).wraps = true) (h : ∀ a b : LaneIn (.int bits sign),
      (combineIn (.int bits sign) f a b).val.asInt = g a.val.asInt b.val.asInt) :
    Combines code attrs (.vector n (.int bits sign)) f := by
  have hassoc : Std.Associative (combineIn (.int bits sign) f) := by
    refine ⟨fun a b c => LaneIn.ext_asInt ?_⟩
    rw [h, h, h, h]
    exact Std.Associative.assoc _ _ _
  have hcomm : Std.Commutative (combineIn (.int bits sign) f) := by
    refine ⟨fun a b => LaneIn.ext_asInt ?_⟩
    rw [h, h]
    exact Std.Commutative.comm _ _
  exact ⟨lanewise_of_function rfl hwraps hcode, hassoc, hcomm⟩

/-- The sum of two integers that is left in the range of a type. -/
def wrappedSum (bits : Nat) (sign : Signedness) (v w : Int) : Int :=
  wrapInt (wrap128 (v + w)) bits sign

/-- A sum may be brought into range before more is added. -/
theorem wrappedSum_wrappedSum (u v w : Int) :
    wrappedSum bits sign (wrappedSum bits sign u v) w = wrapInt
      (wrap128 (u + v + w)) bits sign := by
  unfold wrappedSum
  by_cases hb : bits < 128
  · refine wrapInt_congr hb ?_
    rw [wrap128_emod (Nat.le_of_lt hb), wrap128_emod (Nat.le_of_lt hb), Int.add_emod, wrapInt_emod,
      wrap128_emod (Nat.le_of_lt hb), ← Int.add_emod]
  · -- Lanes this wide hold whatever 128 bits do.
    simp only [wrapInt, if_pos (Nat.not_lt.mp hb)]
    exact Int.bmod_add_bmod

instance : Std.Commutative (wrappedSum bits sign) where
  comm v w := by rw [wrappedSum, wrappedSum, Int.add_comm]

instance : Std.Associative (wrappedSum bits sign) where
  assoc u v w := by
    -- The sum on the right is turned round, so that it starts with two summands as well.
    have hcomm : wrappedSum bits sign u (wrappedSum bits sign v w) =
        wrappedSum bits sign (wrappedSum bits sign v w) u := Std.Commutative.comm _ _
    have hsum : u + v + w = v + w + u := by omega
    rw [hcomm, wrappedSum_wrappedSum, wrappedSum_wrappedSum, hsum]

theorem asInt_combineIn_add (a b : LaneIn (.int bits sign)) :
    (combineIn (.int bits sign) Lane.add a b).val.asInt =
      wrappedSum bits sign a.val.asInt b.val.asInt := by
  have hsum : a.val.add b.val = .int (wrap128 (a.val.asInt + b.val.asInt)) := by
    rw [(Lane.eq_int_of_normalize a.2).1, (Lane.eq_int_of_normalize b.2).1]
    rfl
  rw [val_combineIn, hsum]
  rfl

theorem asInt_combineIn_minimum (a b : LaneIn (.int bits sign)) :
    (combineIn (.int bits sign) (Lane.minimum (.int bits sign)) a b).val.asInt =
      min a.val.asInt b.val.asInt := by
  rw [val_combineIn, Lane.minimum, lessThan_of_fits a.2 b.2]
  split
  · next h =>
    rw [a.2, min_eq_left (Int.le_of_lt (of_decide_eq_true h))]
  · next h =>
    rw [b.2, min_eq_right (by simpa using h)]

theorem asInt_combineIn_maximum (a b : LaneIn (.int bits sign)) :
    (combineIn (.int bits sign) (Lane.maximum (.int bits sign)) a b).val.asInt =
      max a.val.asInt b.val.asInt := by
  rw [val_combineIn, Lane.maximum, lessThan_of_fits a.2 b.2]
  split
  · next h =>
    rw [b.2, max_eq_right (Int.le_of_lt (of_decide_eq_true h))]
  · next h =>
    rw [a.2, max_eq_left (by simpa using h)]

/-- Sums, minima and maxima of integers of whole bytes, however many and of whatever sign, are
combined in that way. -/
theorem combines_integers (n bits : Nat) (sign : Signedness) (hbytes : 8 ∣ bits) (hpos : 0 < bits) :
    Combines .addElem .empty (.vector n (.int bits sign)) Lane.add ∧
    Combines .min .empty (.vector n (.int bits sign)) (Lane.minimum (.int bits sign)) ∧
    Combines .max .empty (.vector n (.int bits sign)) (Lane.maximum (.int bits sign)) := by
  have hwraps : (ElemKind.int bits sign).wraps = true :=
    ElemKind.wraps_int (by omega) (by omega) sign
  refine ⟨?_, ?_, ?_⟩
  · exact .of_asInt (wrappedSum bits sign) rfl hwraps asInt_combineIn_add
  · exact .of_asInt min rfl hwraps asInt_combineIn_minimum
  · exact .of_asInt max rfl hwraps asInt_combineIn_maximum

/-! ## What a tree emits -/

/-- The steps of the levels of a tree, the level with the widest shift first: the amount in bytes,
the vector shifted against itself, and the two combined. So many steps stand before them. -/
def treeSteps (code : OpKind) (attrs : AttrDict) (ty : Ty) (width : Nat) :
    Nat → Nat → Source → List Step
  | 0, _, _ => []
  | levels + 1, before, current =>
    Instr.constantInt (.i 32) (twoPow levels * width / 8 : Nat) ::
    Instr.shift ty current current (.step before) false ::
    combineStep code attrs ⟨current, ty⟩ (.step (before + 1)) ::
    treeSteps code attrs ty width levels (before + 3) (.step (before + 2))

/-- The recipe of a tree: three steps for each level, and then lane zero is read. -/
def treeRecipe (code : OpKind) (attrs : AttrDict) (elem : Ty) (width levels : Nat)
    (vector : Source) : Recipe where
  steps := treeSteps code attrs (.vector (twoPow levels) elem) width levels 0 vector ++
    [Instr.constantInt (.i 32) 0]
  final := Instr.extElem elem (.step (3 * levels - 1)) (.step (3 * levels))

theorem length_treeSteps (levels before : Nat) (s : Source) :
    (treeSteps code attrs ty width levels before s).length = 3 * levels := by
  induction levels generalizing before s with
  | zero => rfl
  | succ levels ih =>
    rw [treeSteps, List.length_cons, List.length_cons, List.length_cons, ih]
    omega

theorem run_treeLevel (amount : Nat) (s : Source) (l : List Step) :
    (treeLevel ty false (fun a b => Plan.emit (combineStep code attrs a b.ref)) ⟨s, ty⟩
      amount).run l = (⟨.step (l.length + 2), ty⟩, l ++
        [Instr.constantInt (.i 32) amount, Instr.shift ty s s (.step l.length) false,
          combineStep code attrs ⟨s, ty⟩ (.step (l.length + 1))]) := by
  rw [treeLevel, Plan.run_bind, Plan.emitI32, Plan.run_emit, Plan.run_bind, Plan.run_emit,
    Plan.run_emit]
  simp only [List.length_append, List.length_singleton, List.append_assoc, List.cons_append,
    List.nil_append]
  rfl

/-- The levels of a tree emit their steps, and the last one gives the result. -/
theorem run_treeLevels (j : Nat) (s : Source) (l : List Step) :
    (treeLevels ty false (fun a b => Plan.emit (combineStep code attrs a b.ref))
      ((halvings (twoPow j)).map fun lanes => lanes * width / 8) ⟨s, ty⟩).run l =
        (⟨.step (l.length + 3 * j + 2), ty⟩,
        l ++ treeSteps code attrs ty width (j + 1) l.length s) := by
  induction j generalizing s l with
  | zero =>
    rw [treeLevels, halvings_twoPow_zero]
    exact run_treeLevel (twoPow 0 * width / 8) s l
  | succ j ih =>
    rw [treeLevels, halvings_twoPow_succ, List.map_cons, List.foldlM_cons, Plan.run_bind,
      run_treeLevel]
    -- The other levels start three steps on, from what this level has combined.
    refine (ih _ _).trans ?_
    rw [treeSteps, List.append_assoc, List.length_append]
    congr 2
    simp only [List.length_cons, List.length_nil]
    congr 1
    omega

/-- A tree emits its recipe. -/
theorem toRecipe_treePlan (j : Nat) (s : Source) :
    (treePlan (combineStep code attrs) ((halvings (twoPow j)).map fun lanes => lanes * width / 8)
      ⟨s, .vector (twoPow (j + 1)) elem⟩).toRecipe =
        treeRecipe code attrs elem width (j + 1) s := by
  have hrun : (treePlan (combineStep code attrs)
      ((halvings (twoPow j)).map fun lanes => lanes * width / 8)
        ⟨s, .vector (twoPow (j + 1)) elem⟩).run [] =
          ((treeRecipe code attrs elem width (j + 1) s).final,
            (treeRecipe code attrs elem width (j + 1) s).steps) := by
    unfold treePlan
    rw [Plan.run_bind, run_treeLevels, firstLane, Plan.run_bind, Plan.emitI32, Plan.run_emit]
    simp only [List.nil_append, List.length_nil, Nat.zero_add, length_treeSteps]
    rfl
  rw [Plan.toRecipe, hrun]

/-- A tree is planned exactly if the bits of its first shift can be counted. -/
theorem reductionTree_twoPow {combine : Operand Source → Source → Step}
    (hwidth : elem.scalarBits = some width) (n j : Nat) (s : Source) :
    reductionTree combine (twoPow j) ⟨s, .vector n elem⟩ =
      if twoPow j * width < twoPow 32 then
        .ok (treePlan combine ((halvings (twoPow j)).map fun lanes => lanes * width / 8)
          ⟨s, .vector n elem⟩)
      else .error .overflow := by
  have hlog : (twoPow j).log2 = j := Nat.log2_two_pow
  rw [reductionTree, hlog, if_pos rfl, Ty.elementType, hwidth, Option.getD_some]
  split
  · next hroom =>
    rw [treeAmounts_eq_ok.mpr ⟨hroom, rfl⟩]
    rfl
  · next hroom =>
    -- The first shift is the one that overflows.
    rw [treeAmounts, halvings_eq_cons (Nat.ne_of_gt (twoPow_pos j)), List.mapM_cons,
      fitU32_eq_error.mpr ⟨Nat.not_lt.mp hroom, rfl⟩]
    rfl

/-! ## Trees compute folds -/

/-- The recipe of a tree evaluates to the fold of the lanes. -/
theorem treeRecipe_evaluates {g : Graph} {ρ : Env} {v : ValueId} {j : Nat}
    {first : LaneIn (.ofTy (.vector (twoPow (j + 1)) elem))}
    {others : List (LaneIn (.ofTy (.vector (twoPow (j + 1)) elem)))}
    (hwidth : elem.scalarBits = some width) (hbytes : 8 ∣ width) (hpos : 0 < width)
    (hf : Combines code attrs (.vector (twoPow (j + 1)) elem) f)
    (hroom : twoPow j * width < twoPow 32) (hlen : others.length + 1 = twoPow (j + 1))
    (hv : (Source.value v).Holds g ρ []
      ⟨.vector (twoPow (j + 1)) elem, .vector ((first :: others).map Subtype.val)⟩) :
    (treeRecipe code attrs elem width (j + 1) (.value v)).Evaluates g ρ
      ⟨elem, .scalar (others.foldl (combineIn (.ofTy (.vector (twoPow (j + 1)) elem)) f)
        first).val⟩ := by
  have hassoc := hf.assoc
  have hcomm := hf.comm
  have hkind := (ofTy_eq_of_vectorShape (vectorShape_vector (n := twoPow (j + 1)) hwidth)).1
  have hfold : Folding (.ofTy (.vector (twoPow (j + 1)) elem)) f _ (FoldOf _ f) := folding_foldOf
  have hlanes : ((first :: others).map Subtype.val).length = twoPow (j + 1) := by
    rw [List.length_map, List.length_cons, hlen]
  have hrange : ∀ c ∈ (first :: others).map Subtype.val,
      c.normalize (.ofTy (.vector (twoPow (j + 1)) elem)) = c := by
    intro c hc
    obtain ⟨a, -, rfl⟩ := List.mem_map.mp hc
    exact a.2
  have hall : FoldOf (.ofTy (.vector (twoPow (j + 1)) elem)) f
    (others.foldl (combineIn _ f) first).val
      ((first :: others).map Subtype.val : List Lane) := ⟨first, others, rfl, rfl⟩
  have hscalar : elem.isVector = false := by
    cases elem <;> first | rfl | cases hwidth
  -- The levels count the lanes by their places, each place once.
  rw [← sum_lanes hlanes] at hall
  rw [← toRecipe_treePlan]
  refine .of_makes (treePlan_evaluates hfold hf.lanewise hwidth hbytes hpos
    ⟨_, ⟨hv, rfl⟩, rfl, folded_lanes hfold hlanes hrange⟩ rfl hroom
    (fun i => by rw [Nat.mod_mod]) hall ?_)
  have hwraps : (ElemKind.ofTy elem).wraps = true := by
    rw [← show ElemKind.ofTy (.vector (twoPow (j + 1)) elem) = .ofTy elem from hkind]
    exact wraps_of_bytes hwidth hbytes hpos
  rw [Frame.shapeAs_of_not_isVector hscalar hwraps, ← hkind]
  exact congrArg (fun c => some (RtValue.scalar c)) (others.foldl (combineIn _ f) first).2

/-- Sums, minima and maxima of integers of whole bytes are instructions that work lane by lane, and
on lanes in range they are associative and commutative. Take any such instruction, on vectors of
two to the `k` lanes of whole bytes, with `k` at least one, where half of the lanes have fewer than
two to the thirty-two bits. The tree that starts by shifting half of the lanes is planned. It emits
`k` levels, each an amount in bytes, a shift and the instruction, the amounts being those of two to
the `k - 1` lanes down to one, and it ends by reading lane zero. Evaluated in any environment that
binds the input to a vector with lanes in range, what it emits gives the fold of the lanes, of each
of them once. If half of the lanes have more bits than that, planning the tree overflows. -/
theorem reductionTree_exact :
    (∀ (n bits : Nat) (sign : Signedness), 8 ∣ bits → 0 < bits →
      Combines .addElem .empty (.vector n (.int bits sign)) Lane.add ∧
      Combines .min .empty (.vector n (.int bits sign)) (Lane.minimum (.int bits sign)) ∧
      Combines .max .empty (.vector n (.int bits sign)) (Lane.maximum (.int bits sign))) ∧
    ∀ {code : OpKind} {attrs : AttrDict} {elem : Ty} {width k : Nat} {f : Lane → Lane → Lane},
      1 ≤ k → elem.scalarBits = some width → 8 ∣ width → 0 < width →
      Combines code attrs (.vector (twoPow k) elem) f → ∀ v : ValueId,
      (twoPow (k - 1) * width < twoPow 32 →
        (∃ p, reductionTree (combineStep code attrs) (twoPow (k - 1))
            ⟨.value v, .vector (twoPow k) elem⟩ = .ok p ∧
          p.toRecipe = treeRecipe code attrs elem width k (.value v)) ∧
        ∀ {g : Graph} {gone : List OpId} {ρ : Env}
          {first : LaneIn (.ofTy (.vector (twoPow k) elem))}
          {others : List (LaneIn (.ofTy (.vector (twoPow k) elem)))},
          g.Consistent gone → g.valueTy v = .ok (.vector (twoPow k) elem) →
          ρ.get? v = some (.vector ((first :: others).map Subtype.val)) →
          others.length + 1 = twoPow k →
          (g.addRecipe (treeRecipe code attrs elem width k (.value v))).1.MadeToGive ρ
            (g.addRecipe (treeRecipe code attrs elem width k (.value v))).2
            (.scalar (others.foldl (combineIn (.ofTy (.vector (twoPow k) elem)) f) first).val)) ∧
      (twoPow 32 ≤ twoPow (k - 1) * width →
        reductionTree (combineStep code attrs) (twoPow (k - 1))
          ⟨.value v, .vector (twoPow k) elem⟩ = .error .overflow) := by
  refine ⟨combines_integers, ?_⟩
  intro code attrs elem width k f hk hwidth hbytes hpos hf v
  -- With one level at least, the tree is built level by level down to one lane.
  obtain ⟨j, rfl⟩ : ∃ j, k = j + 1 := ⟨k - 1, by omega⟩
  rw [Nat.add_sub_cancel, reductionTree_twoPow hwidth]
  refine ⟨fun hroom => ⟨⟨_, if_pos hroom, toRecipe_treePlan j (.value v)⟩, ?_⟩,
    fun hover => if_neg (Nat.not_lt.mpr hover)⟩
  intro g gone ρ first others hc hty hbound hlen
  exact Graph.madeToGive_of_evaluates hc
    (treeRecipe_evaluates hwidth hbytes hpos hf hroom hlen ⟨Graph.map_ty_of_valueTy hty, hbound⟩)

/-- A lane of eight bits without a sign. -/
def byteLane (v : Int) : LaneIn (.int 8 .signless) :=
  ⟨(Lane.int v).normalize (.int 8 .signless), Lane.normalize_normalize _ _⟩

/-- A block with a vector of four bytes for its argument. -/
def fourBytes : Graph where
  ops := #[]
  values := #[⟨.argument ⟨0⟩ 0, .vector 4 (.i 8)⟩]
  blocks := #[⟨[⟨0⟩], [], none⟩]
  regions := #[]
  chains := #[]

/-- The sum of four bytes overflows twice: 301 comes to 45. -/
theorem reductionTree_exact_fourBytes :
    Edit.replay [.createBlock [.vector 4 (.i 8)]] = .ok (fourBytes, []) ∧
    (∃ p, reductionTree Instr.addElem 2 ⟨.value ⟨0⟩, .vector 4 (.i 8)⟩ = .ok p ∧
      p.toRecipe = treeRecipe .addElem .empty (.i 8) 8 2 (.value ⟨0⟩)) ∧
    (treeRecipe .addElem .empty (.i 8) 8 2 (.value ⟨0⟩)).steps.length = 7 ∧
    (fourBytes.addRecipe (treeRecipe .addElem .empty (.i 8) 8 2 (.value ⟨0⟩))).1.MadeToGive
      (Env.empty.bind ⟨0⟩ (.vector [.int 100, .int 100, .int 100, .int 1]))
      (fourBytes.addRecipe (treeRecipe .addElem .empty (.i 8) 8 2 (.value ⟨0⟩))).2
      (.scalar (.int 45)) := by
  have history : Edit.replay [.createBlock [.vector 4 (.i 8)]] = .ok (fourBytes, []) := by cbv
  have hc := Graph.consistent_of_replay history
  have hsum : Combines .addElem .empty (.vector (twoPow 2) (.int 8 .signless)) Lane.add :=
    (reductionTree_exact.1 4 8 .signless (by decide) (by decide)).1
  obtain ⟨hplanned, -⟩ := reductionTree_exact.2 (k := 2) (by decide) rfl (by decide) (by decide)
    hsum ⟨0⟩
  obtain ⟨hrecipe, hgives⟩ := hplanned (by decide)
  have hbound : (Env.empty.bind ⟨0⟩
      (.vector [.int 100, .int 100, .int 100, .int 1])).get? ⟨0⟩ = some (.vector
        ([byteLane 100, byteLane 100, byteLane 100, byteLane 1].map Subtype.val)) := rfl
  refine ⟨history, hrecipe, rfl, ?_⟩
  exact hgives hc rfl hbound rfl

/-- Minima of four lanes of two to the thirty-one bits are lanewise, associative and commutative,
but no tree is planned for them: half of the lanes have a bit too many to be counted. -/
theorem reductionTree_overflows :
    Combines .min .empty (.vector (twoPow 2) (.i 2147483648))
      (Lane.minimum (.int 2147483648 .signless)) ∧
    (Ty.i 2147483648).scalarBits = some 2147483648 ∧ 8 ∣ 2147483648 ∧
    reductionTree Instr.minElem (twoPow 1) ⟨.value ⟨0⟩, .vector (twoPow 2) (.i 2147483648)⟩ =
      .error .overflow := by
  have hbytes : 8 ∣ 2147483648 := by decide
  refine ⟨(combines_integers _ _ _ hbytes (by decide)).2.1, rfl, hbytes, ?_⟩
  have hwidth : (Ty.i 2147483648).scalarBits = some 2147483648 := rfl
  rw [reductionTree_twoPow hwidth]
  exact if_neg (by decide)

end SimdLowering
