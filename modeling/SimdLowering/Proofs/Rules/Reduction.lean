/-
The rules for reductions and splats are lawful.

The trees need a first shift that is a power of two. A rule that does not check the shape
relies on the target here: reductions of other shapes may stay, and on what may stay no rule
is tried.
-/
import SimdLowering.Proofs.Rewrite.LastWord
import SimdLowering.Proofs.Rules.AddSub
import SimdLowering.Rules.Reduction
import SimdLowering.Rules.Splat
import SimdLowering.Target.FinalForm

set_option autoImplicit false

namespace SimdLowering

namespace Rules

open SimdLowering.Graph

variable {g : Graph} {gone : List OpId} {root op : OpId} {old v : ValueId} {ty : Ty}
  {shape : VectorShape} {R : Site} {Γ : List Ty} {o : Operand Source}
  {combine : Operand Source → Operand Source → Plan (Operand Source)} {isAcc : Bool}
  {bits first lanes : Nat} {amounts : List Nat}

/-! ## Amounts -/

/-- No amount is larger than the first. -/
theorem le_of_mem_halvings (h : lanes ∈ halvings first) : lanes ≤ first := by
  unfold halvings at h
  split at h
  · cases h
  · obtain ⟨i, -, rfl⟩ := List.mem_map.mp h
    exact Nat.div_le_self ..

/-- The first amount comes first, and the others are halves of it. -/
theorem halvings_eq_cons (hpos : first ≠ 0) :
    halvings first = first :: (List.range first.log2).map fun i => first / twoPow (i + 1) := by
  rw [halvings, if_neg hpos, List.range_succ_eq_map, List.map_cons, List.map_map, twoPow_zero,
    Nat.div_one]
  rfl

/-- The amounts are worked out exactly if the bits of the first of them can be counted, which are
the most. -/
theorem treeAmounts_eq_ok : treeAmounts bits first = .ok amounts ↔
    first * bits < twoPow 32 ∧ amounts = (halvings first).map fun lanes => lanes * bits / 8 := by
  have hfits (h : first * bits < twoPow 32) : treeAmounts bits first =
      .ok ((halvings first).map fun lanes => lanes * bits / 8) := by
    refine mapM_eq_ok fun lanes hlanes => ?_
    have hle := Nat.mul_le_mul_right bits (le_of_mem_halvings hlanes)
    rw [fitU32_eq_ok.mpr ⟨Nat.lt_of_le_of_lt hle h, rfl⟩]
    rfl
  constructor
  · intro h
    have hfirst : first * bits < twoPow 32 := by
      by_cases hpos : first = 0
      · rw [hpos, Nat.zero_mul]
        exact twoPow_pos 32
      · rw [treeAmounts, halvings_eq_cons hpos, List.mapM_cons] at h
        obtain ⟨amount, hamount, -⟩ := bind_eq_ok.mp h
        obtain ⟨n, hn, -⟩ := map_eq_ok.mp hamount
        exact (fitU32_eq_ok.mp hn).1
    rw [hfits hfirst] at h
    exact ⟨hfirst, (Except.ok.inj h).symm⟩
  · rintro ⟨hfirst, rfl⟩
    exact hfits hfirst

/-! ## Trees -/

/-- Combining what has the type of the running vector gives that type again. -/
def Combines (R : Site) (ty : Ty)
    (combine : Operand Source → Operand Source → Plan (Operand Source)) : Prop :=
  ∀ Γ a b, Gives R ty Γ a → Gives R ty Γ b → (combine a b).Makes (Builds R) Γ (Gives R ty)

/-- An instruction that reads two vectors combines them. -/
theorem combines_lanewise {k : OpKind} (hk : k.isLowered = true) (harity : k.arity ≤ 2)
    (hload : k ≠ .upd) (hmac : k ≠ .fma) :
    Combines R ty fun a b => Plan.emit (.pureOp k [a.ref, b.ref] a.ty) := by
  intro Γ a b ha hb
  have h := Makes.emit_gives (stepOk_lanewise (o := a) hk harity hload ha.1 hb.1 hmac)
  rwa [show (Draft.pureOp k [a.ref, b.ref] a.ty).resultType = ty from ha.2] at h

/-- So does a sum that goes through accumulators. -/
theorem combines_sumThroughViews : Combines R ty (sumThroughViews ty) := by
  intro Γ a b ha hb
  refine Makes.step (stepOk_cast ha.1 true) ?_
  refine Makes.step (stepOk_cast hb.1.snoc true) ?_
  refine Makes.step (stepOk_lanewise (k := .addElem) (o := ⟨_, ty⟩) rfl (Nat.zero_le _) nofun
    Readable.last.snoc .last nofun) ?_
  exact Makes.emit_gives (stepOk_cast .last false)

/-- One level shifts and combines. -/
theorem treeLevel_makes (hc : Combines R ty combine) (ho : Gives R ty Γ o) :
    (treeLevel ty isAcc combine o lanes).Makes (Builds R) Γ (Gives R ty) := by
  refine Makes.step (stepOk_constantInt _) ?_
  refine Makes.step (stepOk_shift ho.1.snoc ho.1.snoc .last isAcc) ?_
  exact hc _ _ _ ⟨ho.1.snoc.snoc, ho.2⟩ ⟨.last, rfl⟩

/-- And so on for all levels. -/
theorem treeLevels_makes (hc : Combines R ty combine) (ho : Gives R ty Γ o) :
    (treeLevels ty isAcc combine amounts o).Makes (Builds R) Γ (Gives R ty) :=
  Plan.Makes.foldlM (I := fun _ => Gives R ty) (fun _ _ _ _ ha => treeLevel_makes hc ha) ho

/-- In the end lane zero is read. -/
theorem firstLane_makes {s : Source} (hs : Readable R Γ s) :
    (firstLane ty s).Makes (Builds R) Γ (EndsAs R ty) :=
  Makes.step (stepOk_constantInt 0) (Makes.final (stepOk_extElem hs.snoc .last) rfl nofun)

/-- A combining instruction of two operands, which takes the type of the first. -/
def IsLanewise (combine : Operand Source → Source → Step) : Prop :=
  ∃ k : OpKind, k.isLowered = true ∧ k.arity ≤ 2 ∧ k ≠ .upd ∧ k ≠ .fma ∧
    combine = fun a b => .pureOp k [a.ref, b] a.ty

theorem isLanewise_addElem : IsLanewise Instr.addElem :=
    ⟨.addElem, rfl, by decide, nofun, nofun, rfl⟩

theorem isLanewise_minElem : IsLanewise Instr.minElem := ⟨.min, rfl, by decide, nofun, nofun, rfl⟩

theorem isLanewise_maxElem : IsLanewise Instr.maxElem := ⟨.max, rfl, by decide, nofun, nofun, rfl⟩

/-- A tree gives one value of the element type. -/
theorem treePlan_makes {combine : Operand Source → Source → Step}
    (hc : IsLanewise combine) (ho : Readable R Γ o.ref) :
    (treePlan combine amounts o).Makes (Builds R) Γ (EndsAs R o.ty.elementType) := by
  obtain ⟨k, hk, harity, hload, hmac, rfl⟩ := hc
  refine Makes.gives_bind (treeLevels_makes (combines_lanewise hk harity hload hmac) ⟨ho, rfl⟩) ?_
  exact fun _ _ _ hlast _ => firstLane_makes hlast

/-- So does one that adds two halves first. -/
theorem halvedSumPlan_makes (ho : Readable R Γ o.ref) :
    (halvedSumPlan shape amounts o).Makes (Builds R) Γ (EndsAs R shape.elem) := by
  refine Makes.step (stepOk_ext ho 0) ?_
  refine Makes.step (stepOk_ext ho.snoc 1) ?_
  refine Makes.step (stepOk_lanewise (k := .addElem) (o := ⟨_, _⟩) rfl (Nat.zero_le _) nofun
    Readable.last.snoc .last nofun) ?_
  exact treePlan_makes isLanewise_addElem .last

/-- And one of floats. -/
theorem floatSumTree_makes (ho : Readable R Γ o.ref) :
    (floatSumTree shape amounts o).Makes (Builds R) Γ (EndsAs R shape.elem) :=
  Makes.gives_bind (treeLevels_makes combines_sumThroughViews ⟨ho, rfl⟩)
    fun _ _ _ hlast _ => firstLane_makes hlast

/-- And one of short floats, which is summed in the accumulator. -/
theorem brainSumTree_makes (ho : Readable R Γ o.ref) :
    (brainSumTree shape amounts o).Makes (Builds R) Γ (EndsAs R shape.elem) := by
  refine Makes.step (stepOk_ups ho 0) ?_
  refine Makes.gives_bind (treeLevels_makes
    (combines_lanewise (k := .addElem) rfl (Nat.zero_le _) nofun nofun) ⟨.last, rfl⟩) ?_
  intro Δ last _ hlast _
  refine Makes.step (stepOk_srs hlast 0) ?_
  refine Makes.step (stepOk_concat .last .last) ?_
  exact firstLane_makes .last

/-! ## The rules -/

/-- What a rule for reductions is given to look at. -/
theorem reductionInput?_eq {kind : CombiningKind} {rest : List ValueId} (h : Scene g gone root)
    (hv : g.AtHand root op v) (hops : g.operands op = v :: rest)
    (hc : (g.attrs op).combiningKind? = some kind) :
    reductionInput? g op = .ok ((g.value v).ty.vectorShape.map fun shape =>
      (kind, shape, ⟨.value v, (g.value v).ty⟩)) := by
  simp only [reductionInput?, hc, hops, List.head?_cons, h.source_eq hv]
  rfl

/-- A rule for reductions declines, or does what it does with the input that it finds. -/
theorem reductionRule_look {Q : Decision → Prop}
    {look : CombiningKind → VectorShape → Operand Source → Except Fault Decision}
    (h : Scene g gone root) (hin : g.Inside root op) (hkind : g.kind op = .reduction)
    (hdecline : Q .decline)
    (hlook : ∀ kind shape v old, (g.attrs op).combiningKind? = some kind →
      g.operandShape? op 0 = .ok (some shape) → g.AtHand root op v →
      (g.value v).ty.vectorShape = some shape → g.results op = [old] →
      (g.value old).ty = (g.value v).ty.elementType →
      Yields (look kind shape ⟨.value v, (g.value v).ty⟩) Q) :
    Yields (do
      match ← reductionInput? g op with
      | none => return .decline
      | some (kind, shape, v) => look kind shape v) Q := by
  have hlen := (h.shaped op hin).arity
  rw [hkind] at hlen
  obtain ⟨v, rest, hops⟩ := List.exists_cons_of_length_pos
    (show 0 < (g.operands op).length from hlen)
  have hv : g.AtHand root op v := h.atHand_of_mem_operands hin (by simp [hops])
  obtain ⟨old, hold, hty⟩ : ∃ old, g.results op = [old] ∧
      (g.value old).ty = (g.value v).ty.elementType :=
    h.exists_result hin (by rw [hkind, typesOf, hops]; rfl)
  -- Both decisions on the way decline, and beyond them the rule looks at kind and lanes.
  cases hc : (g.attrs op).combiningKind? with
  | none =>
    rw [reductionInput?, hc]
    exact .pure hdecline
  | some kind =>
    rw [reductionInput?_eq h hv hops hc]
    cases hs : (g.value v).ty.vectorShape with
    | none => exact .pure hdecline
    | some shape =>
      refine hlook kind shape v old hc ?_ hv hs hold hty
      rw [h.operandShape? hin 0, hops]
      exact congrArg Except.ok hs

/-- A rule for reductions is lawful if for every input it gives something lawful. -/
theorem reductionRule_lawful {target : ConversionTarget} {name : String}
    {look : CombiningKind → VectorShape → Operand Source → Except Fault Decision}
    (hlook : ∀ (g : Graph) (gone : List OpId) (root op : OpId) (kind : CombiningKind)
      (shape : VectorShape) (v old : ValueId), Scene g gone root → g.Inside root op →
      g.kind op = .reduction → target.Open g op → (g.attrs op).combiningKind? = some kind →
      g.operandShape? op 0 = .ok (some shape) → g.AtHand root op v →
      (g.value v).ty.vectorShape = some shape → g.results op = [old] →
      (g.value old).ty = (g.value v).ty.elementType →
      Yields (look kind shape ⟨.value v, (g.value v).ty⟩) (Decision.Lawful g root op)) :
    (reductionRule name look).Lawful target := by
  refine .ofDecision (by decide) fun g gone root op h hin hk hopen => ?_
  have hkind : g.kind op = .reduction := List.mem_singleton.mp hk
  exact reductionRule_look h hin hkind trivial fun kind shape v old =>
    hlook g gone root op kind shape v old h hin hkind hopen

/-- A tree over few and narrow lanes has its amounts. -/
theorem treeAmounts_yields (hfirst : first ≤ 32) (hbits : bits ≤ 64) :
    Yields (treeAmounts bits first) fun _ => True := by
  have hsmall : first * bits ≤ 32 * 64 := Nat.mul_le_mul hfirst hbits
  exact ⟨_, treeAmounts_eq_ok.mpr ⟨Nat.lt_of_le_of_lt hsmall (by decide), rfl⟩, trivial⟩

/-- A tree over few and narrow lanes is planned. -/
theorem reductionTree_yields {combine : Operand Source → Source → Step}
    (hpow : twoPow first.log2 = first) (hfirst : first ≤ 32)
    (hbits : o.ty.elementType.scalarBits.getD 0 ≤ 64) :
    Yields (reductionTree combine first o) fun p => ∃ amounts, p = treePlan combine amounts o := by
  rw [reductionTree, if_pos hpow]
  exact (treeAmounts_yields hfirst hbits).bind fun amounts _ => .pure ⟨amounts, rfl⟩

/-- A tree may stand for a reduction of its input. -/
theorem treePlan_lawful {combine : Operand Source → Source → Step} (hc : IsLanewise combine)
    (hv : g.AtHand root op v) (hold : g.results op = [old])
    (hty : (g.value old).ty = (g.value v).ty.elementType) :
    (Decision.follow (treePlan combine amounts ⟨.value v, (g.value v).ty⟩)).Lawful g root op := by
  refine .of_makes hold ?_
  rw [hty]
  exact treePlan_makes hc (.value hv)

/-- Lanewise sums have sixteen, thirty-two or sixty-four lanes. -/
theorem lanes_of_isElementwise (h : shape.isElementwise = true) :
    shape.lanes = 64 ∨ shape.lanes = 32 ∨ shape.lanes = 16 := by
  rw [VectorShape.isElementwise, List.contains_iff_mem] at h
  simp only [elementwiseShapes, VectorShape.pair, List.mem_cons, Prod.mk.injEq,
    List.not_mem_nil, or_false] at h
  omega

/-- Half of the lanes is a power of two where a reduction is lowered at all. -/
theorem twoPow_log2_of_isElementwise (h : shape.isElementwise = true) :
    twoPow (shape.lanes / 2).log2 = shape.lanes / 2 := by
  rcases lanes_of_isElementwise h with e | e | e <;> rw [e] <;> rfl

/-- Where the second generation does not let a reduction stay, its input has a shape that is
reduced by a tree. -/
theorem treeShape_of_open {kind : CombiningKind}
    (hk : g.kind op = .reduction) (hopen : Generation.aieml.conversionTarget.Open g op)
    (hc : (g.attrs op).combiningKind? = some kind)
    (hs : g.operandShape? op 0 = .ok (some shape)) :
    (if shape.isFloat then shape.lanes == 16 || shape.lanes == 32
      else shape.isElementwise) = true := by
  obtain ⟨sizes, verdict, sizes', hlegal, hne⟩ := hopen
  have hcheck : Generation.aieml.conversionTarget.checks (g.kind op) =
      some (.ofTest FinalForm.reductionStays) := by
    rw [hk]
    rfl
  obtain ⟨ok, hok, rfl⟩ := (ConversionTarget.legality_eq_ok_of_check hcheck).mp hlegal
  obtain ⟨stays, hstays, e⟩ := bind_eq_ok.mp hok
  cases e
  have hstays' : ok = false := by simpa using hne
  subst hstays'
  rw [FinalForm.reductionStays, hc] at hstays
  -- A kind for which the check asks nothing may stay, so the operation would not be open.
  cases kind <;>
    first
    | cases hstays
    | (rw [FinalForm.operandAvoids, hs] at hstays
       simpa [pure, Except.pure, bind, Except.bind] using hstays)

/-- Half of the lanes of what is reduced by a tree is a power of two. -/
theorem shape_of_open {kind : CombiningKind}
    (hk : g.kind op = .reduction) (hopen : Generation.aieml.conversionTarget.Open g op)
    (hc : (g.attrs op).combiningKind? = some kind)
    (hs : g.operandShape? op 0 = .ok (some shape)) :
    twoPow (shape.lanes / 2).log2 = shape.lanes / 2 := by
  have hp := treeShape_of_open hk hopen hc hs
  split at hp
  · simp only [Bool.or_eq_true, beq_iff_eq] at hp
    rcases hp with e | e <;> rw [e] <;> rfl
  · exact twoPow_log2_of_isElementwise hp

/-- The elements of a vector type are those of its shape. -/
theorem elementType_of_vectorShape (hs : ty.vectorShape = some shape) :
    ty.elementType = shape.elem := by
  cases ty with
  | vector lanes elem =>
    obtain ⟨bits, -, rfl⟩ := Option.map_eq_some_iff.mp hs
    rfl
  | _ => cases hs

/-- What is reduced by a tree has few lanes, and they are narrow. -/
theorem size_of_treeShape (hs : ty.vectorShape = some shape)
    (h : (if shape.isFloat then shape.lanes == 16 || shape.lanes == 32
      else shape.isElementwise) = true) :
    shape.lanes ≤ 64 ∧ shape.elemBits ≤ 32 ∧ ty.elementType.scalarBits.getD 0 = shape.elemBits := by
  have helem := elementType_of_vectorShape hs
  obtain ⟨lanes, elem, rfl⟩ : ∃ lanes elem, ty = .vector lanes elem := by
    cases ty with
    | vector lanes elem => exact ⟨lanes, elem, rfl⟩
    | _ => cases hs
  obtain ⟨width, hwidth, rfl⟩ := Option.map_eq_some_iff.mp hs
  have hscalar : (Ty.vector lanes elem).elementType.scalarBits.getD 0 = width :=
    congrArg (fun w : Option Nat => w.getD 0) hwidth
  dsimp only at h ⊢
  -- Floats have at most 32 bits; integers are in the table of shapes.
  split at h
  · next hfloat =>
    simp only [Bool.or_eq_true, beq_iff_eq] at h
    refine ⟨by omega, ?_, hscalar⟩
    cases elem with
    | float format =>
      obtain rfl := Option.some.inj hwidth
      cases format <;> decide
    | _ => cases hfloat
  · rw [VectorShape.isElementwise, List.contains_iff_mem] at h
    simp only [elementwiseShapes, VectorShape.pair, List.mem_cons, Prod.mk.injEq,
      List.not_mem_nil, or_false] at h
    exact ⟨by omega, by omega, hscalar⟩

/-- A tree over a register, on which the target lets rules be tried. -/
theorem registerTree_lawful {kind : CombiningKind} {suits : Bool}
    {combine : Operand Source → Source → Step} (hc : IsLanewise combine)
    (hk : g.kind op = .reduction) (hopen : Generation.aieml.conversionTarget.Open g op)
    (hkind : (g.attrs op).combiningKind? = some kind)
    (hs : g.operandShape? op 0 = .ok (some shape)) (hv : g.AtHand root op v)
    (hsv : (g.value v).ty.vectorShape = some shape) (hold : g.results op = [old])
    (hty : (g.value old).ty = (g.value v).ty.elementType) :
    Yields (registerTree suits combine shape ⟨.value v, (g.value v).ty⟩)
      (Decision.Lawful g root op) := by
  obtain ⟨hlanes, hbits, helem⟩ := size_of_treeShape hsv (treeShape_of_open hk hopen hkind hs)
  have hsize : shape.bits ≤ 64 * 32 := Nat.mul_le_mul hlanes hbits
  -- The bits of a shape in the table are few, so they are computed without overflow.
  unfold registerTree
  split
  · refine Yields.bind (P := fun _ => True)
      ⟨_, fitU32_eq_ok.mpr ⟨Nat.lt_of_le_of_lt hsize (by decide), rfl⟩, trivial⟩ fun size _ => ?_
    split
    · refine (reductionTree_yields (shape_of_open hk hopen hkind hs) (by omega)
        (show (g.value v).ty.elementType.scalarBits.getD 0 ≤ 64 by omega)).bind ?_
      rintro _ ⟨amounts, rfl⟩
      exact .pure (treePlan_lawful hc hv hold hty)
    · exact .pure trivial
  · exact .ok trivial

theorem minReduction_lawful : minReduction.Lawful Generation.aieml.conversionTarget := by
  refine reductionRule_lawful ?_
  intro g gone root op kind shape v old h hin hk hopen hc hs hv hsv hold hty
  exact registerTree_lawful isLanewise_minElem hk hopen hc hs hv hsv hold hty

theorem maxReduction_lawful : maxReduction.Lawful Generation.aieml.conversionTarget := by
  refine reductionRule_lawful ?_
  intro g gone root op kind shape v old h hin hk hopen hc hs hv hsv hold hty
  exact registerTree_lawful isLanewise_maxElem hk hopen hc hs hv hsv hold hty

theorem intAddReduction_lawful (target : ConversionTarget) : intAddReduction.Lawful target := by
  refine reductionRule_lawful ?_
  intro g gone root op kind shape v old h hin hk hopen hc hs hv hsv hold hty
  split
  · exact .ok trivial
  next hcond =>
  simp only [not_or, Bool.not_eq_false, Bool.not_eq_true] at hcond
  obtain ⟨-, hfloat, helementwise⟩ := hcond
  obtain ⟨hlanes, hbits, helem⟩ := size_of_treeShape hsv (by rw [hfloat]; exact helementwise)
  split
  · refine (treeAmounts_yields (by omega) (by omega)).bind fun amounts _ => ?_
    refine .pure (.of_makes hold ?_)
    rw [hty, elementType_of_vectorShape hsv]
    exact halvedSumPlan_makes (.value hv)
  · refine (reductionTree_yields (twoPow_log2_of_isElementwise helementwise) (by omega)
      (show (g.value v).ty.elementType.scalarBits.getD 0 ≤ 64 by omega)).bind ?_
    rintro _ ⟨amounts, rfl⟩
    exact .pure (treePlan_lawful isLanewise_addElem hv hold hty)

theorem f32AddReduction_lawful (target : ConversionTarget) : f32AddReduction.Lawful target := by
  refine reductionRule_lawful ?_
  intro g gone root op kind shape v old h hin hk hopen hc hs hv hsv hold hty
  split
  · exact .ok trivial
  next hcond =>
  simp only [not_or, not_not] at hcond
  obtain ⟨hlanes, hbits⟩ := Prod.mk.inj hcond.2.2
  refine (treeAmounts_yields (by omega) (by omega)).bind fun amounts _ => ?_
  refine .pure (.of_makes hold ?_)
  rw [hty, elementType_of_vectorShape hsv]
  exact floatSumTree_makes (.value hv)

/-- The accumulator of floats has lanes of up to 32 bits. -/
theorem accBits_le (hs : ty.vectorShape = some shape) (hfloat : shape.isFloat = true) :
    ((accumulatorOf ty).vectorShape.map VectorShape.elemBits).getD 32 ≤ 64 := by
  obtain ⟨lanes, elem, rfl⟩ : ∃ lanes elem, ty = .vector lanes elem := by
    cases ty with
    | vector lanes elem => exact ⟨lanes, elem, rfl⟩
    | _ => cases hs
  obtain ⟨width, hwidth, rfl⟩ := Option.map_eq_some_iff.mp hs
  cases elem with
  | float format => cases format <;> exact (by decide : 32 ≤ 64)
  | _ => cases hfloat

theorem bf16AddReduction_lawful (target : ConversionTarget) :
    bf16AddReduction.Lawful target := by
  refine reductionRule_lawful ?_
  intro g gone root op kind shape v old h hin hk hopen hc hs hv hsv hold hty
  split
  · exact .ok trivial
  next hcond =>
  simp only [not_or, not_not, Bool.not_eq_false] at hcond
  obtain ⟨hlanes, hbits⟩ := Prod.mk.inj hcond.2.2
  refine (treeAmounts_yields (by omega) (accBits_le hsv hcond.2.1)).bind fun amounts _ => ?_
  refine .pure (.of_makes hold ?_)
  rw [hty, elementType_of_vectorShape hsv]
  exact brainSumTree_makes (.value hv)

theorem extractBroadcastToLane_lawful (target : ConversionTarget) :
    extractBroadcastToLane.Lawful target := by
  refine .ofDecision (by decide) fun g gone root op h hin hk _ => ?_
  have hkind : g.kind op = .broadcast := List.mem_singleton.mp hk
  obtain ⟨old, hold⟩ := h.single_of_kind hin (by rw [hkind]; decide) (by rw [hkind]; decide)
  have hlen := (h.shaped op hin).arity
  rw [hkind] at hlen
  refine (h.operandAt hin (i := 0) hlen).bind fun lane hlane => ?_
  refine (h.definedBy? hin hlane.2 .extract rfl).bind fun x hx => ?_
  cases x with
  | none => exact .pure trivial
  | some extract =>
    have he := hx extract rfl
    have helen := (h.shaped extract he.inside).arity
    rw [he.kind] at helen
    dsimp only
    split
    · exact .pure trivial
    refine (he.operandAt (i := 0) helen).bind fun v hv => ?_
    rw [firstResultType_eq hold]
    exact .pure (.of_makes hold (Makes.final (stepOk_broadcastLane (.value hv.2) _) rfl nofun))

end Rules

end SimdLowering
