/-
A sum that waits for its turn, in the midst of everything else.

The product that a sum adds must still be a product when the sum is visited. It is, since nobody
else reads it: rules go for what the operation visited reads, or what they look through reads, and
a sum is neither. So no splice gives the product another reader or takes the sum away from it, and
a product with a sum as its only reader may stay.

The summand is the other matter. If it is a product too, the sum could not be fused. But then it
has readers besides the sum, which do not go before it is visited itself, and that is before the
sum is. At its visit it is lowered, and what stands in for it is no product.
-/
import SimdLowering.Proofs.Fusion.Splices
import SimdLowering.Proofs.Lowering.Names
import SimdLowering.Proofs.Rewrite.Standing

set_option autoImplicit false

namespace SimdLowering

open SimdLowering.Rules

/-- Names of the three operations that a fused sum comes to, and of what the first two give. -/
structure FusedMac where
  ups : OpId
  fma : OpId
  srs : OpId
  up : ValueId
  total : ValueId
  deriving DecidableEq, Repr

/-- The operations. -/
def FusedMac.ops (m : FusedMac) : List OpId := [m.ups, m.fma, m.srs]

namespace Graph

variable {g₀ g g' : Graph} {gone gone₀ : List OpId} {func mul add op d : OpId} {blk blk' : BlockId}
  {a b c v old product sum out : ValueId} {ty summandTy : Ty} {shift : Int} {r : Recipe}
  {ren : ValueId → ValueId} {rest : List OpId} {m : FusedMac} {sizes : AccessSizes}

/-! ## The sum -/

/-- Somewhere in the function a sum of a fused shape adds something to a product that nobody else
reads. If that is a product as well, it has the type of the sum, and somebody else reads it. -/
structure AddsProduct (g : Graph) (func : OpId) (blk : BlockId) (mul add : OpId)
    (a b c product sum : ValueId) : Prop where
  inside : g.Inside func add
  placed : add ∈ g.opsIn blk
  addKind : g.kind add = .addi
  addOperands : g.operands add = [product, c] ∨ g.operands add = [c, product]
  addResults : g.results add = [sum]
  mulKind : g.kind mul = .muli
  mulOperands : g.operands mul = [a, b]
  mulResults : g.results mul = [product]
  onlyRead : ∀ u ∈ g.uses product, u.user = add
  summand : ∀ d, c ∈ g.results d → g.kind d = .muli →
    (g.value c).ty = (g.value sum).ty ∧ ∃ u ∈ g.uses c, u.user ≠ add
  shape : (g.value sum).ty.Fuses

/-- In the block the summand goes up, the product is added to it, and the total comes down. -/
structure FusesIn (g : Graph) (blk : BlockId) (a b c out : ValueId) (ty summandTy : Ty)
    (shift : Int) (m : FusedMac) : Prop where
  ups : g.Stands blk (Instr.ups (accumulatorOf summandTy) c shift) m.ups m.up
  fma : g.Stands blk (Instr.fmaElem a b ⟨m.up, accumulatorOf summandTy⟩ false) m.fma m.total
  srs : g.Stands blk (Instr.srs ty m.total shift) m.srs out

namespace AddsProduct

variable (h : g₀.AddsProduct func blk mul add a b c product sum) (hscene₀ : Scene g₀ gone₀ func)
include h

theorem mem_operands : product ∈ g₀.operands add ∧ c ∈ g₀.operands add := by
  rcases h.addOperands with hops | hops <;> simp [hops]

/-- The sum does not double the product. -/
theorem summand_ne : c ≠ product := by
  rintro rfl
  obtain ⟨-, u, hu, hne⟩ := h.summand mul (by simp [h.mulResults]) h.mulKind
  exact hne (h.onlyRead u hu)

include hscene₀

/-- Whatever defines an operand of the sum is in the function. -/
theorem inside_of_mem_operands (hv : v ∈ g₀.operands add) (hd : v ∈ g₀.results d) :
    g₀.Inside func d :=
  ((hscene₀.ordered.visible add h.inside v hv).through hscene₀.consistent
    hscene₀.ordered.visible h.inside hd).1

theorem inside_mul : g₀.Inside func mul :=
  h.inside_of_mem_operands hscene₀ h.mem_operands.1 (by simp [h.mulResults])

theorem hasOp : g₀.HasOp add ∧ g₀.HasOp mul :=
  ⟨h.inside.hasOp hscene₀.consistent.toNestingAgrees,
    (h.inside_mul hscene₀).hasOp hscene₀.consistent.toNestingAgrees⟩

theorem hasValue (hv : v ∈ [a, b, c]) : g₀.HasValue v := by
  have reads : ∀ {o}, g₀.Inside func o → v ∈ g₀.operands o → g₀.HasValue v := fun ho hv =>
    hscene₀.ordered.hasValue_of_mem_operands hscene₀.consistent ho hv
  simp only [List.mem_cons, List.not_mem_nil, or_false] at hv
  rcases hv with rfl | rfl | rfl
  · exact reads (h.inside_mul hscene₀) (by simp [h.mulOperands])
  · exact reads (h.inside_mul hscene₀) (by simp [h.mulOperands])
  · exact reads h.inside h.mem_operands.2

theorem hasValue_sum : g₀.HasValue sum :=
  hscene₀.consistent.hasValue_of_mem_results (o := add) (by simp [h.addResults])

end AddsProduct

/-! ## Waiting -/

/-- The sum of `g₀` has not been visited, and `rest` is still to come. The product has no other
reader, and if the summand is a product, it has been replaced or is to come and has one. -/
structure SumAwaits (g₀ g : Graph) (func : OpId) (mul add : OpId) (c product : ValueId)
    (ren : ValueId → ValueId) (rest : List OpId) : Prop where
  renames : g₀.Renames g func ren
  inside_add : g.Inside func add
  inside_mul : g.Inside func mul
  onlyRead : ∀ u ∈ g.uses product, u.user = add
  summand : ∀ d, c ∈ g₀.results d → g₀.kind d = .muli →
    ren c ≠ c ∨ (d ∈ rest ∧ ∃ u ∈ g.uses c, u.user ≠ add)

section

variable (h : g₀.AddsProduct func blk mul add a b c product sum) (hscene₀ : Scene g₀ gone₀ func)
include h hscene₀

/-- At the start everything is to come. -/
theorem SumAwaits.start : SumAwaits g₀ g₀ func mul add c product id (g₀.postorder func) where
  renames := .refl _ _
  inside_add := h.inside
  inside_mul := h.inside_mul hscene₀
  onlyRead := h.onlyRead
  summand d hd hk := by
    have hin := h.inside_of_mem_operands hscene₀ h.mem_operands.2 hd
    exact Or.inr ⟨(mem_postorder hscene₀.consistent hscene₀.ordered.acyclic).mpr hin,
      (h.summand d hd hk).2⟩

variable (hW : SumAwaits g₀ g func mul add c product ren rest)
  (hup : Upright g gone func g₀.ops.size)
include hW

/-- The sum reads the product under its old name. -/
theorem SumAwaits.operands :
    g.operands add = [product, ren c] ∨ g.operands add = [ren c, product] := by
  have hops := hW.renames.operands (h.hasOp hscene₀).1 hW.inside_add
  have hkept : ren product = product :=
    hW.renames.kept (h.hasOp hscene₀).2 hW.inside_mul (by simp [h.mulResults])
  rcases h.addOperands with hside | hside
  · exact Or.inl (by rw [hops, hside, List.map_cons, List.map_singleton, hkept])
  · exact Or.inr (by rw [hops, hside, List.map_cons, List.map_singleton, hkept])

theorem SumAwaits.mulResults : g.results mul = [product] :=
  (hW.renames.results (h.hasOp hscene₀).2).trans h.mulResults

theorem SumAwaits.addKind : g.kind add = .addi :=
  (hW.renames.kind (h.hasOp hscene₀).1).trans h.addKind

theorem SumAwaits.mulKind : g.kind mul = .muli :=
  (hW.renames.kind (h.hasOp hscene₀).2).trans h.mulKind

/-- The sum goes by the name it had and has the type it had. -/
theorem SumAwaits.result : g.results add = [sum] ∧ ren sum = sum ∧
    (g.value sum).ty = (g₀.value sum).ty := by
  have hkept : ren sum = sum :=
    hW.renames.kept (h.hasOp hscene₀).1 hW.inside_add (by simp [h.addResults])
  have hty := hW.renames.ty_eq (h.hasValue_sum hscene₀)
  rw [hkept] at hty
  exact ⟨(hW.renames.results (h.hasOp hscene₀).1).trans h.addResults, hkept, hty⟩

include hup

/-- The product may stay. -/
theorem SumAwaits.legality_product :
    Generation.aieml.conversionTarget.legality g mul sizes = .ok (.legal, sizes) := by
  have hne : ren c ≠ product := by
    intro e
    -- A product that is still there does not stand in for anything.
    have hsame := hW.renames.eq_of_mem_results (h.hasValue hscene₀ (by simp))
      (h.hasOp hscene₀).2 (e ▸ (by simp [hW.mulResults h hscene₀] : product ∈ g.results mul))
    exact h.summand_ne (hsame.symm.trans e)
  have hsingle := hup.scene.hasSingleUseBy_of_onlyRead hW.inside_add (hW.addKind h hscene₀)
    (hW.operands h hscene₀) (hW.mulResults h hscene₀) hne hW.onlyRead
  rw [Generation.legality_muli (hW.mulKind h hscene₀), FinalForm.productStays, hsingle,
    Bool.true_or, if_pos rfl]

end

/-! ## The summand -/

section

variable (h : g₀.AddsProduct func blk mul add a b c product sum) (hscene₀ : Scene g₀ gone₀ func)
  (hR : g₀.Renames g func ren) (hup : Upright g gone func g₀.ops.size)
  (hd : c ∈ g₀.results d) (hk : g₀.kind d = .muli)
include h hscene₀ hR hup hd hk

/-- A product that is the summand is one that the rule for products lowers, once somebody else
than the sum reads it. -/
theorem AddsProduct.summand_lowers (hadd : g.Inside func add) (hin : g.Inside func d)
    (hother : ∃ u ∈ g.uses c, u.user ≠ add) :
    g.results d = [c] ∧ g.kind d = .muli ∧ (g.value c).ty.Fuses ∧
      g.hasSingleUseBy d .addi = false := by
  have hop : g₀.HasOp d := hasOp_of_mem_results hd
  have hin₀ := hR.inside hop hin
  have hres₀ : g₀.results d = [c] :=
    hscene₀.results_eq hin₀ (by rw [hk]; decide) (by rw [hk]; decide) hd
  have hkept : ren c = c := hR.kept hop hin hd
  have hty : (g.value c).ty = (g₀.value c).ty := by
    have hty := hR.ty_eq (h.hasValue hscene₀ (v := c) (by simp))
    rwa [hkept] at hty
  have hres : g.results d = [c] := (hR.results hop).trans hres₀
  refine ⟨hres, (hR.kind hop).trans hk, ?_, ?_⟩
  · rw [hty, (h.summand d hd hk).1]
    exact h.shape
  · -- The sum reads it as well, and so there are two readers.
    rw [← Bool.not_eq_true, hasSingleUseBy_iff]
    rintro ⟨w, u, hw, huses, -⟩
    rw [hres] at hw
    obtain rfl := Option.some.inj hw
    obtain ⟨u', hu', hne⟩ := hother
    have hmem : c ∈ g.operands add := by
      rw [hR.operands (h.hasOp hscene₀).1 hadd, ← hkept]
      exact List.mem_map_of_mem h.mem_operands.2
    obtain ⟨u'', hu'', heq⟩ := hup.scene.consistent.mem_uses_of_mem_operands
      (hup.scene.not_mem_gone hadd hmem) hmem
    rw [huses, List.mem_singleton] at hu' hu''
    exact hne (by rw [hu', ← hu'', heq])

end

/-! ## Splices elsewhere -/

section

variable (h : g₀.AddsProduct func blk mul add a b c product sum) (hscene₀ : Scene g₀ gone₀ func)
  (hscene : Scene g gone func) (hin : g.Inside func op)
  (hs : Spliced g g' gone op blk' old r) (hr : r.Lawful g func op)
include h hscene₀ hscene hin hs hr

/-- A splice at the operation whose turn it is leaves the sum waiting, if that is neither the sum
nor its product. -/
theorem SumAwaits.spliced (hW : SumAwaits g₀ g func mul add c product ren (op :: rest))
    (hpending : Pending g₀ g func (op :: rest)) (hadd : op ≠ add) (hmul : op ≠ mul) :
    SumAwaits g₀ g' func mul add c product
      (fun v => renamed old (g.standIn r) (ren v)) rest where
  renames := hW.renames.spliced hscene hin hs hr
  inside_add := (hs.inside_iff hin).mpr (Or.inl ⟨hW.inside_add, Ne.symm hadd⟩)
  inside_mul := (hs.inside_iff hin).mpr (Or.inl ⟨hW.inside_mul, Ne.symm hmul⟩)
  onlyRead u hu := by
    have hres := hW.mulResults h hscene₀
    have hproduct : g.HasValue product :=
      hscene.consistent.hasValue_of_mem_results (o := mul) (by simp [hres])
    have hold : product ≠ old := by
      rintro rfl
      exact hmul (hs.eq_of_old_mem_results (d := mul) (by simp [hres])).symm
    -- A recipe reads what `op` reads or what rules look through on the way there. The product has
    -- one reader, which is not `op`, and rules do not look through sums.
    refine hW.onlyRead u ((hs.mem_uses_of_opaque hin hr hproduct hold fun x hx hvx => ?_).mp hu)
    obtain ⟨w, hw, rfl⟩ :=
      hscene.consistent.mem_uses_of_mem_operands (hscene.not_mem_gone hx hvx) hvx
    rw [hW.onlyRead w hw, hW.addKind h hscene₀]
    exact ⟨Ne.symm hadd, rfl⟩
  summand d hd hk := by
    have hop : g₀.HasOp d := hasOp_of_mem_results hd
    have hres : c ∈ g.results d := by rwa [hW.renames.results hop]
    have hvalue : g.HasValue c := hscene.consistent.hasValue_of_mem_results hres
    have hfresh : g.standIn r ≠ c := by
      rintro rfl
      exact not_hasValue_add _ hvalue
    by_cases hold : ren c = old
    · -- The summand is replaced by this very splice.
      left
      rw [renamed, if_pos hold]
      exact hfresh
    rw [renamed, if_neg hold]
    rcases hW.summand d hd hk with hne | ⟨hmem, u, hu, huser⟩
    · exact Or.inl hne
    rcases List.mem_cons.mp hmem with rfl | hlater
    · left
      intro hsame
      exact hold (hsame.trans (List.mem_singleton.mp (hs.single ▸ hres)))
    · -- What goes cannot see the summand, so it is not the other reader.
      right
      have hgoes : u.user ≠ op := by
        rintro rfl
        have hread := hscene.consistent.mem_operands_of_mem_uses hu
        exact hpending.not_visible hlater hres (hscene.ordered.visible _ hin c hread)
      have hcold : c ≠ old := by
        rintro rfl
        exact hpending.head_not_mem (hs.eq_of_old_mem_results hres ▸ hlater)
      exact ⟨hlater, u, (hs.mem_uses_of_hasValue hvalue hcold).mpr (Or.inl ⟨hu, hgoes⟩), huser⟩

end

/-! ## The visit -/

section

variable (h : g₀.AddsProduct func blk mul add a b c product sum) (hscene₀ : Scene g₀ gone₀ func)
  (hW : SumAwaits g₀ g func mul add c product ren (add :: rest))
  (hpending : Pending g₀ g func (add :: rest)) (hup : Upright g gone func g₀.ops.size)
include h hscene₀ hW

include hpending hup in
/-- When the turn of the sum has come, its factors and its summand are found, whatever they are
called. -/
theorem SumAwaits.macOperands : ∃ lhs rhs, g.operands add = [lhs, rhs] ∧
    g.macOperands? lhs rhs = .ok (some ⟨ren a, ren b, ren c⟩) := by
  have hc := hup.scene.consistent
  have hmulOp := (h.hasOp hscene₀).2
  have hops := hW.operands h hscene₀
  have hfactors : g.operands mul = [ren a, ren b] := by
    rw [hW.renames.operands hmulOp hW.inside_mul, h.mulOperands]
    rfl
  have hproduct : g.definedBy? product .muli = .ok (some mul) :=
    (definedBy?_eq_some hc).mpr ⟨by simp [hW.mulResults h hscene₀], hW.mulKind h hscene₀⟩
  have hmem : ren c ∈ g.operands add := by rcases hops with hops | hops <;> simp [hops]
  -- The summand is no product: whatever makes it was there at the start or is still to come.
  have hsummand : g.definedBy? (ren c) .muli = .ok none := by
    obtain ⟨x, hx, -⟩ := hup.scene.definedBy? hW.inside_add
      (hup.scene.atHand_of_mem_operands hW.inside_add hmem) .muli rfl
    cases x with
    | none => exact hx
    | some d =>
      exfalso
      obtain ⟨hd, hk⟩ := (definedBy?_eq_some hc).mp hx
      obtain ⟨hop, hsame, hres, hk₀⟩ :=
        hW.renames.definer hup (h.hasValue hscene₀ (v := c) (by simp)) hd (by rw [hk]; rfl)
      rcases hW.summand d hres (hk₀.trans hk) with hne | ⟨hmem', -⟩
      · exact hne hsame
      rcases List.mem_cons.mp hmem' with rfl | hlater
      · exact absurd (hk.symm.trans (hW.addKind h hscene₀)) (by decide)
      · exact hpending.not_visible hlater hd
          (hup.scene.ordered.visible add hW.inside_add (ren c) hmem)
  exact macOperands?_of_product hproduct hsummand hfactors hops

/-- Once the recipe is in place the sum is fused. -/
theorem SumAwaits.fuses (hb : g.blockOf? add = g₀.blockOf? add)
    (hs : Spliced g g' gone add blk' sum
      (mixedSum (g₀.value sum).ty (g₀.value c).ty (ren a) (ren b) (ren c) shift)) :
    let ren' := fun v => renamed sum (g.standIn
      (mixedSum (g₀.value sum).ty (g₀.value c).ty (ren a) (ren b) (ren c) shift)) (ren v)
    ∃ m, g'.FusesIn blk (ren' a) (ren' b) (ren' c) (ren' sum) (g₀.value sum).ty
      (g₀.value c).ty shift m := by
  intro ren'
  obtain rfl : blk' = blk := by
    have hplaced := (hscene₀.consistent.places add blk).mp h.placed
    rw [← hb, hs.placed] at hplaced
    exact Option.some.inj hplaced
  have hups := hs.stands_made (i := 0) (by rw [all_mixedSum]; rfl)
  have hfma := hs.stands_made (i := 1) (by rw [all_mixedSum]; rfl)
  have hsrs := hs.stands_made (i := 2) (by rw [all_mixedSum]; rfl)
  -- What the steps pass on to each other has no other name.
  rw [Instr.mapOperands_fmaElem, Instr.mapOperands_fmaElem, Source.valueFrom, Source.valueFrom,
    Source.valueFrom, hs.renamed_step] at hfma
  rw [Instr.mapOperands_srs, Instr.mapOperands_srs, Source.valueFrom, hs.renamed_step] at hsrs
  have hout : ren' sum = ⟨g.values.size + 2⟩ := by
    have hkept := (hW.result h hscene₀).2.1
    simp only [ren', hkept, renamed, if_true]
    rfl
  exact ⟨⟨_, _, _, _, _⟩, hups, hfma, hout ▸ hsrs⟩

end

/-! ## Afterwards -/

namespace FusesIn

variable (h : g.FusesIn blk a b c out ty summandTy shift m)
include h

/-- Splices anywhere else leave the three operations there. -/
theorem spliced (hscene : Scene g gone func) (hblk : g.HoldsBlock func blk)
    (hs : Spliced g g' gone op blk' old r) (hop : op ∉ m.ops) :
    g'.FusesIn blk (renamed old (g.standIn r) a) (renamed old (g.standIn r) b)
      (renamed old (g.standIn r) c) (renamed old (g.standIn r) out) ty summandTy shift m := by
  simp only [FusedMac.ops, List.mem_cons, List.not_mem_nil, or_false, not_or] at hop
  obtain ⟨hups, hfma, hsrs⟩ := hop
  have hraised := hs.stands_of_ne hscene h.ups (hblk.inside h.ups.mem) (Ne.symm hups)
  have htotal := hs.stands_of_ne hscene h.fma (hblk.inside h.fma.mem) (Ne.symm hfma)
  have hdown := hs.stands_of_ne hscene h.srs (hblk.inside h.srs.mem) (Ne.symm hsrs)
  -- What the three give keeps its name.
  rw [Instr.mapOperands_fmaElem, hs.renamed_of_stands h.ups (Ne.symm hups)] at htotal
  rw [Instr.mapOperands_srs, hs.renamed_of_stands h.fma (Ne.symm hfma)] at hdown
  rw [hs.renamed_of_stands h.srs (Ne.symm hsrs)]
  exact ⟨hraised, htotal, hdown⟩

/-- All three may stay. -/
theorem legality {gen : Generation} (hop : op ∈ m.ops) :
    gen.conversionTarget.legality g op sizes = .ok (.legal, sizes) := by
  have plain : ∀ {e : Draft ValueId} {o v}, g.Stands blk e o v → e.kind.isLowered = true →
      e.kind ≠ .upd → e.kind ≠ .fma → e.kind ≠ .unrealizedCast →
      gen.conversionTarget.legality g o sizes = .ok (.legal, sizes) := by
    intro e o v he hlowered hload hfma hcast
    rw [← he.kind] at hlowered hload hfma hcast
    exact Generation.legality_of_made (Or.inl hlowered) hload hfma hcast
  simp only [FusedMac.ops, List.mem_cons, List.not_mem_nil, or_false] at hop
  rcases hop with rfl | rfl | rfl
  · exact plain h.ups rfl nofun nofun nofun
  · exact plain h.fma rfl nofun nofun nofun
  · exact plain h.srs rfl nofun nofun nofun

/-- Neither a lanewise product nor a lanewise sum has a part in it. -/
theorem kind_ne (hc : Consistent g gone) (hv : v ∈ [m.up, m.total, out])
    (hd : v ∈ g.results d) : g.kind d ≠ .mulElem ∧ g.kind d ≠ .addElem := by
  simp only [List.mem_cons, List.not_mem_nil, or_false] at hv
  rcases hv with rfl | rfl | rfl
  · rw [h.ups.eq_of_mem_results hc hd, h.ups.kind]
    exact ⟨nofun, nofun⟩
  · rw [h.fma.eq_of_mem_results hc hd, h.fma.kind]
    exact ⟨nofun, nofun⟩
  · rw [h.srs.eq_of_mem_results hc hd, h.srs.kind]
    exact ⟨nofun, nofun⟩

end FusesIn

end Graph

end SimdLowering
