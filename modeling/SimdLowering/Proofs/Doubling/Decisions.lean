/-
A function that returns a product plus something, as the rules of the first generation see it.

By the time the sum is visited, other operations may have been rewritten, and the factors and the
summand may go by new names. But what has a new name is given by an operation that a rule created,
and rules create neither products nor splats nor extracts. So whatever is not a product in the
function never becomes one, and neither does a splat of an extracted lane come about. The rule
for sums with products therefore takes the sum, the other rule for sums leaves it alone, and
nothing can be folded into the multiply-add afterwards.
-/
import SimdLowering.Proofs.Doubling.Placed

set_option autoImplicit false

namespace SimdLowering

open SimdLowering.Rules SimdLowering.FinalForm

namespace Graph

variable {g₀ g : Graph} {gone gone₀ : List OpId} {func mul add ret op o d : OpId} {entry : BlockId}
  {a b c v w product sum out : ValueId} {ty : Ty} {n width : Nat} {sign : Signedness}
  {ren : ValueId → ValueId} {sizes : AccessSizes} {m : DoubledMac}

/-! ## The function -/

/-- The value is a splat of a lane that was extracted from a vector. -/
def SplatsLane (g : Graph) (v : ValueId) : Prop :=
  ∃ splat lane extract, v ∈ g.results splat ∧ g.kind splat = .broadcast ∧
    (g.operands splat)[0]? = some lane ∧ lane ∈ g.results extract ∧ g.kind extract = .extract

/-- The function returns the sum of a product and of something that is no product, where no
factor is a splat of an extracted lane. -/
structure ReturnsMac (g : Graph) (func : OpId) (entry : BlockId) (mul add ret : OpId)
    (a b c product sum : ValueId) (ty : Ty) : Prop
    extends ReturnsSum g func entry mul add ret a b c product sum ty where
  factors : ∀ v ∈ [a, b], ¬ g.SplatsLane v

/-- Parameters are neither products nor splats, whatever they are given. -/
theorem MultipliesAndAdds.returnsMac (hc : Consistent g gone)
    (h : g.MultipliesAndAdds func entry mul add ret a b c product sum ty) :
    g.ReturnsMac func entry mul add ret a b c product sum ty where
  toReturnsSum := h.returnsSum hc
  factors v hv := by
    rintro ⟨splat, -, -, hsplat, -⟩
    refine hc.not_mem_results_of_mem_argsOf (h.params v ?_).1 hsplat
    exact List.mem_append_left [c] hv

/-! ## What new names cannot hide -/

section

variable (hR : g₀.Renames g func ren) (hup : Upright g gone func g₀.ops.size)
include hR hup

/-- No splat of an extracted lane comes about. -/
theorem Renames.not_splatsLane (hscene₀ : Scene g₀ gone₀ func) (hv : g₀.HasValue v)
    (hvis : g.Visible func o (ren v)) (ho : g.Inside func o) (h : ¬ g₀.SplatsLane v) :
    ¬ g.SplatsLane (ren v) := by
  rintro ⟨splat, lane, extract, hsplat, hkind, hlane, hextract, hextractKind⟩
  obtain ⟨hop, -, hres, hkind₀⟩ := hR.definer hup hv hsplat (by rw [hkind]; rfl)
  have hinside := (hvis.through hup.scene.consistent hup.scene.ordered.visible ho hsplat).1
  rw [hR.operands hop hinside, List.getElem?_map] at hlane
  obtain ⟨lane₀, hlane₀, rfl⟩ := Option.map_eq_some_iff.mp hlane
  have hvalue : g₀.HasValue lane₀ := hscene₀.ordered.hasValue_of_mem_operands hscene₀.consistent
    (hR.inside hop hinside) (List.mem_of_getElem? hlane₀)
  obtain ⟨-, -, hextract₀, hextractKind₀⟩ := hR.definer hup hvalue hextract
    (by rw [hextractKind]; rfl)
  exact h ⟨splat, lane₀, extract, hres, hkind₀.trans hkind, hlane₀, hextract₀,
    hextractKind₀.trans hextractKind⟩

end

/-! ## The sum -/

/-- The recipe that takes the place of the sum. -/
def doubledRecipe (n width : Nat) (sign : Signedness) (a b c : ValueId) : Recipe :=
  (fmaPlan (.vector n (.int width sign)) (.vector (n * 2) (.int width sign))
    (.vector n (.i (aieAccumulatorWidth width))) (.value a) (.value b) (.value c)).toRecipe

theorem all_doubledRecipe : (doubledRecipe n width sign a b c).all =
    [Instr.concat (.vector (n * 2) (.int width sign)) [.value a, .value a],
      Instr.ups (.vector n (.i (aieAccumulatorWidth width))) (.value c) 0,
      Instr.fma (.vector n (.i (aieAccumulatorWidth width))) (.step 0) (.value b) (.step 1)
        .standard false,
      Instr.srs (.vector n (.int width sign)) (.step 2) 0] := rfl

theorem fine_doubledRecipe (ha : g.HasValue a) (hb : g.HasValue b) (hc : g.HasValue c) :
    (doubledRecipe n width sign a b c).Fine g.HasValue := by
  intro i d hd
  rw [all_doubledRecipe] at hd
  match i, hd with
  | 0, hd =>
    obtain rfl := Option.some.inj hd
    exact ⟨⟨_, rfl⟩, rfl, List.forall_mem_cons.mpr ⟨ha, List.forall_mem_singleton.mpr ha⟩⟩
  | 1, hd =>
    obtain rfl := Option.some.inj hd
    exact ⟨⟨_, rfl⟩, rfl, List.forall_mem_singleton.mpr hc⟩
  | 2, hd =>
    obtain rfl := Option.some.inj hd
    refine ⟨⟨_, rfl⟩, rfl, List.forall_mem_cons.mpr ⟨Nat.zero_lt_two, ?_⟩⟩
    exact List.forall_mem_cons.mpr ⟨hb, List.forall_mem_singleton.mpr Nat.one_lt_two⟩
  | 3, hd =>
    obtain rfl := Option.some.inj hd
    exact ⟨⟨_, rfl⟩, rfl, List.forall_mem_singleton.mpr (Nat.lt_succ_self 2)⟩

/-- The names that the operations of the recipe get. -/
def nextMac (g : Graph) : DoubledMac :=
  ⟨⟨g.ops.size + 0⟩, ⟨g.ops.size + 1⟩, ⟨g.ops.size + 2⟩, ⟨g.ops.size + 3⟩,
    ⟨g.values.size + 0⟩, ⟨g.values.size + 1⟩, ⟨g.values.size + 2⟩⟩

theorem mem_ops_nextMac (hd : d ∈ g.nextOps (doubledRecipe n width sign a b c).all.length) :
    d ∈ g.nextMac.ops := by
  obtain ⟨i, e, he, rfl⟩ := mem_nextOps_all.mp hd
  have hlt : i < 4 := (List.getElem?_eq_some_iff.mp he).1
  have hcases : i = 0 ∨ i = 1 ∨ i = 2 ∨ i = 3 := by omega
  rcases hcases with rfl | rfl | rfl | rfl <;> simp [nextMac, DoubledMac.ops]

/-- Once the recipe is in place, its steps are the four instructions. -/
theorem Spliced.issuesMac {g' : Graph} {blk : BlockId} {old : ValueId}
    (hs : Spliced g g' gone op blk old (doubledRecipe n width sign a b c))
    (hr : (doubledRecipe n width sign a b c).Lawful g func op) (hreached : g.Reached blk op) :
    g'.IssuesMac blk (renamed old (g.standIn (doubledRecipe n width sign a b c)) a)
      (renamed old (g.standIn (doubledRecipe n width sign a b c)) b)
      (renamed old (g.standIn (doubledRecipe n width sign a b c)) c)
      (g.standIn (doubledRecipe n width sign a b c)) n width sign g.nextMac := by
  -- What the steps pass on to each other has no other name.
  have own : ∀ j, renamed old (g.standIn (doubledRecipe n width sign a b c))
      (Source.valueFrom g.values.size (.step j)) = ⟨g.values.size + j⟩ := fun j => hs.renamed_step j
  have hconcat := hs.issues_made hr hreached (i := 0) (by rw [all_doubledRecipe]; rfl)
  have hups := hs.issues_made hr hreached (i := 1) (by rw [all_doubledRecipe]; rfl)
  have hfma := hs.issues_made hr hreached (i := 2) (by rw [all_doubledRecipe]; rfl)
  have hsrs := hs.issues_made hr hreached (i := 3) (by rw [all_doubledRecipe]; rfl)
  rw [Instr.mapOperands_fma, Instr.mapOperands_fma, own, own] at hfma
  rw [Instr.mapOperands_srs, Instr.mapOperands_srs, own] at hsrs
  exact ⟨hconcat, hups, hfma, hsrs⟩

section

variable (h : g₀.ReturnsMac func entry mul add ret a b c product sum
    (.vector n (.int width sign)))
  (hscene₀ : Scene g₀ gone₀ func) (hR : g₀.Renames g func ren)
  (hup : Upright g gone func g₀.ops.size)
  (hadd : g.Inside func add) (hmul : g.Inside func mul)
include h hscene₀ hR hup hadd

include hmul in
/-- The factors and the summand are found, whatever they are called. -/
theorem ReturnsMac.macOperands : ∃ lhs rhs, g.operands add = [lhs, rhs] ∧
    g.macOperands? lhs rhs = .ok (some ⟨ren a, ren b, ren c⟩) := by
  obtain ⟨-, haddOp, hmulOp⟩ := h.hasOp hscene₀
  have hops := hR.operands haddOp hadd
  have hkept : ren product = product := hR.kept hmulOp hmul (by simp [h.mulResults])
  have hfactors : g.operands mul = [ren a, ren b] := by
    rw [hR.operands hmulOp hmul, h.mulOperands]
    rfl
  have hproduct : g.definedBy? product .muli = .ok (some mul) :=
    (definedBy?_eq_some hup.scene.consistent).mpr
      ⟨by simp [hR.results hmulOp, h.mulResults], (hR.kind hmulOp).trans h.mulKind⟩
  -- The summand comes from no product, as was assumed of it at the start.
  have hsummand : g.definedBy? (ren c) .muli = .ok none := by
    have hmem : ren c ∈ g.operands add := hops ▸ List.mem_map_of_mem h.mem_addOperands.2
    obtain ⟨x, hx, -⟩ :=
      hup.scene.definedBy? hadd (hup.scene.atHand_of_mem_operands hadd hmem) .muli rfl
    cases x with
    | none => exact hx
    | some d =>
      obtain ⟨hd, hk⟩ := (definedBy?_eq_some hup.scene.consistent).mp hx
      obtain ⟨-, -, hres, hk₀⟩ :=
        hR.definer hup (h.hasValue hscene₀ (v := c) (by simp)) hd (by rw [hk]; rfl)
      exact absurd (hk₀.trans hk) (h.summand d hres)
  refine macOperands?_of_product hproduct hsummand hfactors ?_
  rcases h.addOperands with hside | hside
  · exact Or.inl (by rw [hops, hside, List.map_cons, List.map_singleton, hkept])
  · exact Or.inr (by rw [hops, hside, List.map_cons, List.map_singleton, hkept])

omit hup in
theorem ReturnsMac.result : g.results add = [sum] ∧ ren sum = sum ∧
    (g.value sum).ty = .vector n (.int width sign) := by
  obtain ⟨-, haddOp, -⟩ := h.hasOp hscene₀
  have hkept : ren sum = sum := hR.kept haddOp hadd (by simp [h.addResults])
  have hsum : g₀.HasValue sum :=
    hscene₀.consistent.hasValue_of_mem_results (o := add) (by simp [h.addResults])
  refine ⟨(hR.results haddOp).trans h.addResults, hkept, ?_⟩
  have hty := hR.ty_eq hsum
  rwa [hkept, h.ty_sum hscene₀] at hty

include hmul

/-- The sum is taken by the rule for sums with products, if twice its lanes can be counted. -/
theorem ReturnsMac.mulAddToFma_matches (hcount : n * 2 < twoPow 32) : mulAddToFma.run g add sizes =
    .ok (((Decision.rewrite (doubledRecipe n width sign (ren a) (ren b) (ren c))).perform g).1,
      sizes, ((Decision.rewrite (doubledRecipe n width sign (ren a) (ren b) (ren c))).perform
        g).2) := by
  obtain ⟨lhs, rhs, hops, hmac⟩ := h.macOperands hscene₀ hR hup hadd hmul
  obtain ⟨hres, -, hty⟩ := h.result hscene₀ hR hadd
  have hc : g₀.HasValue c := h.hasValue hscene₀ (by simp)
  have hcTy : g.valueTy (ren c) = .ok (.vector n (.int width sign)) := by
    rw [valueTy_of_hasValue (hR.hasValue hc), hR.ty_eq hc, h.typed c (by simp)]
  have hdoubled : fitU32 (n * 2) = .ok (n * 2) := fitU32_eq_ok.mpr ⟨hcount, rfl⟩
  refine Rule.run_ofDecision ?_ sizes
  simp only [resultShape?_fused hres hty, binaryOperands_eq hops, hmac, bind, Except.bind, hcTy,
    aie_accumulator?_vector, firstResultType_eq hres, hty, hdoubled]
  rfl

/-- The other rule for sums leaves it alone. -/
theorem ReturnsMac.shuffledAddSub_declines :
    (shuffledAddSub .addi).run g add sizes = .ok (g, sizes, .declined) := by
  obtain ⟨lhs, rhs, hops, hmac⟩ := h.macOperands hscene₀ hR hup hadd hmul
  obtain ⟨hres, -, hty⟩ := h.result hscene₀ hR hadd
  refine Rule.run_of_decline ?_ sizes
  simp only [resultShape?_fused hres hty, binaryOperands_eq hops, hmac, bind, Except.bind,
    if_true, Functor.map, Except.map, Option.isSome_some]
  rfl

omit hup hmul in
/-- It may not stay. -/
theorem ReturnsMac.legality_sum : Generation.aie.conversionTarget.legality g add sizes =
    .ok (.illegal, sizes) := by
  obtain ⟨-, haddOp, -⟩ := h.hasOp hscene₀
  obtain ⟨hres, -, hty⟩ := h.result hscene₀ hR hadd
  rw [Generation.aie_legality_addi ((hR.kind haddOp).trans h.addKind), scalarResult,
    resultShape?_fused hres hty]
  rfl

end

/-! ## The multiply-add -/

/-- A value that is no splat of an extracted lane is no splat, or one of something else. -/
theorem Scene.definedBy?_extract (hscene : Scene g gone func) (ho : g.Inside func o)
    (hv : g.AtHand func o v) (hnot : ¬ g.SplatsLane v) {splat : OpId}
    (hsplat : g.definedBy? v .broadcast = .ok (some splat)) :
    ∃ lane, g.operandAt splat 0 = .ok lane ∧ g.definedBy? lane .extract = .ok none := by
  obtain ⟨hres, hkind⟩ := (definedBy?_eq_some hscene.consistent).mp hsplat
  have hreach := (hscene.definedBy? ho hv .broadcast rfl).of_eq_ok hsplat splat rfl
  obtain ⟨lane, hlane, hslot, hat⟩ :=
    hreach.operandAt (i := 0) (by
      have harity := (hscene.shaped splat hreach.inside).arity
      rwa [hkind] at harity)
  refine ⟨lane, hlane, ?_⟩
  obtain ⟨x, hx, -⟩ := hscene.definedBy? ho hat .extract rfl
  cases x with
  | none => exact hx
  | some extract =>
    obtain ⟨hextract, hextractKind⟩ := (definedBy?_eq_some hscene.consistent).mp hx
    exact absurd ⟨splat, lane, extract, hres, hkind, hslot, hextract, hextractKind⟩ hnot

/-- Nothing can be folded into the multiply-add if no factor is a splat of an extracted lane. -/
theorem IssuesMac.noPendingSplat (h : g.IssuesMac entry a b c out n width sign m)
    (hscene : Scene g gone func) (hentry : g.IsEntry func entry)
    (hnot : ∀ v ∈ [a, b], ¬ g.SplatsLane v) : noPendingSplat g m.fma = .ok true := by
  have hin := hentry.holdsBlock.inside h.fma.reached.mem
  have hleft : g.operandAt m.fma 0 = .ok m.twice := by rw [operandAt, h.fma.operands]; rfl
  have hright : g.operandAt m.fma 1 = .ok b := by rw [operandAt, h.fma.operands]; rfl
  have hfirst : g.operandAt m.concat 0 = .ok a := by rw [operandAt, h.concat.operands]; rfl
  have hconcat : g.definedBy? m.twice .concat = .ok (some m.concat) :=
    (definedBy?_eq_some hscene.consistent).mpr ⟨by simp [h.concat.results], h.concat.kind⟩
  have htwice : g.AtHand func m.fma m.twice :=
    hscene.atHand_of_mem_operands hin (by rw [h.fma.operands]; exact List.mem_cons_self ..)
  have hb : g.AtHand func m.fma b :=
    hscene.atHand_of_mem_operands hin (by rw [h.fma.operands]; exact .tail _ (.head _))
  have ha : g.AtHand func m.fma a :=
    ((hscene.definedBy? hin htwice .concat rfl).of_eq_ok hconcat m.concat rfl).readable a
      (by rw [h.concat.operands]; exact List.mem_cons_self ..)
  -- Whichever factor is looked at, it is not of the kind that is folded.
  have test : ∀ {v splat}, g.AtHand func m.fma v → ¬ g.SplatsLane v →
      g.definedBy? v .broadcast = .ok (some splat) →
      pendingSplat? g m.fma = .ok (some splat) → FinalForm.noPendingSplat g m.fma = .ok true := by
    intro v splat hv hnot hsplat hpending
    obtain ⟨lane, hlane, hextract⟩ := hscene.definedBy?_extract hin hv hnot hsplat
    simp only [FinalForm.noPendingSplat, hpending, hlane, hextract, bind, Except.bind]
    rfl
  obtain ⟨x, hx, -⟩ := hscene.definedBy? hin ha .broadcast rfl
  cases x with
  | some splat =>
    refine test ha (hnot a (by simp)) hx ?_
    simp only [pendingSplat?, hleft, hconcat, hfirst, hx, bind, Except.bind]
    rfl
  | none =>
    have hpending : pendingSplat? g m.fma = g.definedBy? b .broadcast := by
      simp only [pendingSplat?, hleft, hconcat, hfirst, hright, hx, bind, Except.bind]
    obtain ⟨y, hy, -⟩ := hscene.definedBy? hin hb .broadcast rfl
    cases y with
    | some splat => exact test hb (hnot b (by simp)) hy (hpending.trans hy)
    | none =>
      simp only [FinalForm.noPendingSplat, hpending.trans hy, bind, Except.bind]
      rfl

/-- All four operations may stay. -/
theorem IssuesMac.legality (h : g.IssuesMac entry a b c out n width sign m)
    (hscene : Scene g gone func) (hentry : g.IsEntry func entry)
    (hnot : ∀ v ∈ [a, b], ¬ g.SplatsLane v) (ho : o ∈ m.ops) :
    Generation.aie.conversionTarget.legality g o sizes = .ok (.legal, sizes) := by
  have plain : ∀ {e : Draft ValueId} {o v}, g.Issues entry e o v →
      e.kind ∈ [.concat, .ups, .srs] →
      Generation.aie.conversionTarget.legality g o sizes = .ok (.legal, sizes) := by
    intro e o v hi hkind
    rw [← hi.kind] at hkind
    have hmade : ∀ k ∈ [OpKind.concat, .ups, .srs],
        k.isLowered = true ∧ k ≠ .upd ∧ k ≠ .fma ∧ k ≠ .unrealizedCast := by decide
    obtain ⟨hlowered, hload, hfma, hcast⟩ := hmade _ hkind
    exact Generation.legality_of_made (Or.inl hlowered) hload hfma hcast
  simp only [DoubledMac.ops, List.mem_cons, List.not_mem_nil, or_false] at ho
  rcases ho with rfl | rfl | rfl | rfl
  · exact plain h.concat (.head _)
  · exact plain h.ups (.tail _ (.head _))
  · exact Generation.aie_legality_fma h.fma.kind (h.noPendingSplat hscene hentry hnot)
  · exact plain h.srs (.tail _ (.tail _ (.head _)))

end Graph

end SimdLowering
