/-
Rest after a splice.

A splice renames one value and leaves everything around an operation as it was, so an operation
that does not look behind that value looks the same afterwards. Products are the exception:
whether one may stay depends on who reads it. A product that is left for the single sum that
reads it is the affair of that sum, and when the sum goes, all that can read the product are
instructions that rules have made. Such a product is loose. It stays loose, because nobody but
rules will ever read it again, and it takes one more round to lower it.
-/
import SimdLowering.Proofs.Fixpoint.Resting
import SimdLowering.Proofs.Rewrite.Uses

set_option autoImplicit false

namespace SimdLowering

open SimdLowering.Graph SimdLowering.Rules

namespace Graph

variable {g g' : Graph} {gone : List OpId} {func op x : OpId} {b : BlockId} {v w old : ValueId}
  {r : Recipe} {k : OpKind}

/-- The operation is a product, and all that read it are of kinds that rules create. -/
structure Loose (g : Graph) (x : OpId) : Prop where
  product : g.kind x = .muli ∨ g.kind x = .mulf
  readers : ∀ v ∈ g.results x, ∀ u ∈ g.uses v, (g.kind u.user).isLowered = true

theorem not_isLowered_of_mem_watchedKinds : k ∈ watchedKinds → k.isLowered = false := by
  revert k
  decide

namespace Spliced

variable (hs : Spliced g g' gone op b old r) (h : Scene g gone func) (hin : g.Inside func op)
  (hr : r.Lawful g func op) (hx : g.Inside func x)
include hs

include h hr hx

omit hr in
/-- What defines an operand is looked up with the same answer, if neither what goes nor what stands
in for it is of the kind that is looked for. -/
theorem definedBy?_together (hv : v ∈ g.operands x) (hread : v = old → g.kind op ≠ k)
    (hfinal : g'.kind ⟨g.ops.size + r.steps.length⟩ ≠ k) :
    Together (· = ·) (g.definedBy? v k) (g'.definedBy? (renamed old (g.standIn r) v) k) := by
  have hvalue : g.HasValue v := h.ordered.hasValue_of_mem_operands h.consistent hx hv
  intro a a' ha ha'
  refine Option.ext fun d => ?_
  -- On both sides the answer is the operation that gives the value, if its kind is right.
  have left : a = some d ↔ v ∈ g.results d ∧ g.kind d = k := by
    rw [← definedBy?_eq_some hs.before, ha, Except.ok.injEq]
  have right : a' = some d ↔
      renamed old (g.standIn r) v ∈ g'.results d ∧ g'.kind d = k := by
    rw [← definedBy?_eq_some hs.after, ha', Except.ok.injEq]
  rw [left, right, hs.mem_results_renamed hvalue]
  constructor
  · rintro ⟨hd, hkind⟩
    have hne : v ≠ old := by
      rintro rfl
      rw [hs.eq_of_old_mem_results hd] at hkind
      exact hread rfl hkind
    exact ⟨Or.inl ⟨hne, hd⟩, by rw [hs.kind_of_hasOp (hasOp_of_mem_results hd), hkind]⟩
  · rintro ⟨⟨-, hd⟩ | ⟨-, rfl⟩, hkind⟩
    · rw [hs.kind_of_hasOp (hasOp_of_mem_results hd)] at hkind
      exact ⟨hd, hkind⟩
    · exact absurd hkind hfinal

/-- A kind that is looked for behind operands is not one that rules create. -/
theorem definedBy?_renamed (hv : v ∈ g.operands x) (hk : k ∈ watchedKinds)
    (hread : v = old → g.kind op ∉ watchedKinds) :
    Together (· = ·) (g.definedBy? v k) (g'.definedBy? (renamed old (g.standIn r) v) k) :=
  hs.definedBy?_together h hx hv (fun e hkind => hread e (hkind ▸ hk))
    (hs.kind_final hr (Or.inl (not_isLowered_of_mem_watchedKinds hk)))

theorem sameOperand (hv : v ∈ g.operands x) (hread : v = old → g.kind op ∉ watchedKinds) :
    SameOperand g g' v (renamed old (g.standIn r) v) := by
  have types : ∀ {w}, g.HasValue w →
      Together (· = ·) (g.valueTy w) (g'.valueTy (renamed old (g.standIn r) w)) := by
    intro w hw
    rw [valueTy_of_hasValue hw, valueTy_of_hasValue (hs.hasValue_renamed hw),
      hs.ty_renamed_of_hasValue hr hw]
    exact .ok rfl
  have hvalue : g.HasValue v := h.ordered.hasValue_of_mem_operands h.consistent hx hv
  refine ⟨types hvalue, fun k hk => hs.definedBy?_renamed h hr hx hv hk hread,
    fun k _ d hd => ?_, fun k _ d i hd => ?_⟩
  -- The definer was there before, so its attributes are kept and its operands renamed.
  all_goals have hmem := ((definedBy?_eq_some hs.before).mp hd).1
  · exact hs.attrs_of_hasOp (hasOp_of_mem_results hmem)
  · have hd : g.Inside func d :=
      ((h.ordered.visible x hx v hv).through h.consistent h.ordered.visible hx hmem).1
    intro w w' hw hw'
    rw [operandAt_eq_ok] at hw hw'
    rw [hs.operands_of_inside h hd, List.getElem?_map, hw] at hw'
    obtain rfl := Option.some.inj hw'
    exact types (h.ordered.hasValue_of_mem_operands h.consistent hd (List.mem_of_getElem? hw))

/-- An operation that does not look behind the result of the one that goes looks the same. -/
theorem sameView (hread : old ∈ g.operands x → g.kind op ∉ watchedKinds)
    (hproduct : g.kind x = .muli → g.hasSingleUseBy x .addi = true →
      g'.hasSingleUseBy x .addi = true)
    (hfloat : g.kind x = .mulf → g.hasSingleUseBy x .addf = true →
      g'.hasSingleUseBy x .addf = true) : SameView g g' x := by
  have hop := hx.hasOp hs.before.toNestingAgrees
  have hops := hs.operands_of_inside h hx
  refine ⟨hs.kind_of_hasOp hop, hs.attrs_of_hasOp hop, hs.resultShape?_of_hasOp hop, ?_, ?_, ?_,
    hproduct, hfloat⟩
  · rw [hs.memAccess?_eq h hr hx]
    intro a a' ha ha'
    obtain ⟨a₁, ha₁, rfl⟩ := map_eq_ok.mp ha'
    exact ⟨_, by rw [Except.ok.inj (ha.symm.trans ha₁)]⟩
  · rw [hops, List.length_map]
  · intro i v v' hv hv'
    rw [hops, List.getElem?_map, hv] at hv'
    cases hv'
    have hmem := List.mem_of_getElem? hv
    exact hs.sameOperand h hr hx hmem fun e => hread (e ▸ hmem)

include hin

/-- A product that a single operation reads, of a kind no rule looks through, is read by it alone
after the splice, unless that operation is the one that goes. -/
theorem hasSingleUseBy (hres : g.results x = [v]) (hne : x ≠ op) (hk : k.isTransparent = false)
    (hsingle : g.hasSingleUseBy x k = true) : g'.hasSingleUseBy x k = true ∨
      (g.kind op = k ∧ ∀ u ∈ g.uses v, u.user = op) := by
  obtain ⟨w, u, hw, huses, huser⟩ := hasSingleUseBy_iff.mp hsingle
  rw [hres] at hw
  obtain rfl : v = w := Option.some.inj hw
  -- The one reader is the operation that was rewritten, or it is still there.
  by_cases hop : u.user = op
  · refine Or.inr ⟨hop ▸ huser, fun t ht => ?_⟩
    rw [huses, List.mem_singleton] at ht
    rw [ht, hop]
  refine Or.inl (hasSingleUseBy_iff.mpr ⟨v, u, ?_, ?_, ?_⟩)
  · rw [hs.results_of_hasOp (hx.hasOp hs.before.toNestingAgrees), hres]
    rfl
  · rw [hs.after.uses_eq_singleton]
    intro t
    have hmem : v ∈ g.results x := by simp [hres]
    have hold : v ≠ old := by
      rintro rfl
      exact hne (hs.eq_of_old_mem_results hmem)
    rw [hs.mem_uses_of_opaque hin hr (hs.before.hasValue_of_mem_results hmem) hold, huses,
      List.mem_singleton]
    -- No new reader has come, as the plan does not read through to this value.
    intro d hd hread
    obtain ⟨t, ht, rfl⟩ := hs.before.mem_uses_of_mem_operands (h.not_mem_gone hd hread) hread
    rw [huses, List.mem_singleton] at ht
    rw [ht]
    exact ⟨hop, by rw [huser, hk]⟩
  · have hreader : g.HasOp u.user :=
      hasOp_of_mem_operands (hs.before.mem_operands_of_mem_uses (by rw [huses]; simp))
    rw [hs.kind_of_hasOp hreader, huser]

omit h hin in
/-- If all that read a product but the operation that goes are of kinds that rules create, the
product is loose after the splice. -/
theorem loose (hne : x ≠ op) (hproduct : g.kind x = .muli ∨ g.kind x = .mulf)
    (hreaders : ∀ v ∈ g.results x, ∀ u ∈ g.uses v, u.user ≠ op →
      (g.kind u.user).isLowered = true) : g'.Loose x := by
  have hop := hx.hasOp hs.before.toNestingAgrees
  refine ⟨by rwa [hs.kind_of_hasOp hop], fun v hv u hu => ?_⟩
  rw [hs.results_of_hasOp hop] at hv
  have hold : v ≠ old := by
    rintro rfl
    exact hne (hs.eq_of_old_mem_results hv)
  rcases (hs.mem_uses_of_hasValue (hs.before.hasValue_of_mem_results hv) hold).mp hu with
    ⟨hu, hgoes⟩ | ⟨i, d, hd, huser, -⟩
  · have hreader := hasOp_of_mem_operands (hs.before.mem_operands_of_mem_uses hu)
    rw [hs.kind_of_hasOp hreader]
    exact hreaders v hv u hu hgoes
  · rw [huser, hs.kind_made hd]
    exact (hr.steps i d hd).lowered

end Spliced

end Graph

variable {o : LowerOptions} {g g' : Graph} {gone : List OpId} {func op x : OpId} {b : BlockId}
  {old : ValueId} {r : Recipe}

/-- A loose product stays loose. -/
theorem Graph.Loose.spliced (hloose : g.Loose x) (hs : Spliced g g' gone op b old r)
    (hr : r.Lawful g func op) (hx : g.Inside func x) (hne : x ≠ op) : g'.Loose x :=
  hs.loose hr hx hne hloose.product fun v hv u hu _ => hloose.readers v hv u hu

/-- What rests goes on resting when another operation is rewritten whose result it does not look
behind, or it is a product that is loose now because the sum that read it has gone. -/
theorem RuleSet.Rests.spliced (ho : o.target = .aieml)
    (hrests : o.ruleSet.Rests o.target.conversionTarget g x) (hk : g.kind x ≠ .upd)
    (hs : Spliced g g' gone op b old r) (h : Scene g gone func) (hin : g.Inside func op)
    (hr : r.Lawful g func op) (hx : g.Inside func x) (hlanes : g.HasLanes x) (hne : x ≠ op)
    (hread : old ∈ g.operands x → g.kind op ∉ watchedKinds) :
    o.ruleSet.Rests o.target.conversionTarget g' x ∨
      (g'.Loose x ∧ (g.kind op = .addi ∨ g.kind op = .addf)) := by
  have hop := hx.hasOp hs.before.toNestingAgrees
  have hvalues : ∀ v ∈ g.operands x, g.HasValue v := fun v hv =>
    h.ordered.hasValue_of_mem_operands h.consistent hx hv
  have view : (g.kind x = .muli → g.hasSingleUseBy x .addi = true →
        g'.hasSingleUseBy x .addi = true) →
      (g.kind x = .mulf → g.hasSingleUseBy x .addf = true → g'.hasSingleUseBy x .addf = true) →
      o.ruleSet.Rests o.target.conversionTarget g' x := fun hproduct hfloat =>
    hrests.sameView ho hk h hx (h.spliced hin hs hr) ((hs.inside_iff hin).mpr (Or.inl ⟨hx, hne⟩))
      (hlanes.spliced hs hop) (mayOverflow_spliced hs hr hop hvalues)
      (hs.sameView h hr hx hread hproduct hfloat)
  -- A product that a sum reads alone keeps its reader or loses it.
  have product : ∀ k, (k = .addi ∨ k = .addf) → (g.kind x = .muli ∨ g.kind x = .mulf) →
      g.hasSingleUseBy x k = true →
      g'.hasSingleUseBy x k = true ∨ (g'.Loose x ∧ (g.kind op = .addi ∨ g.kind op = .addf)) := by
    intro k hsum hproduct hsingle
    obtain ⟨v, hres⟩ := h.single_of_kind hx (by rcases hproduct with e | e <;> rw [e] <;> decide)
      (by rcases hproduct with e | e <;> rw [e] <;> decide)
    have hopaque : k.isTransparent = false := by rcases hsum with rfl | rfl <;> rfl
    refine (hs.hasSingleUseBy h hin hr hx hres hne hopaque hsingle).imp_right fun hgoes => ?_
    refine ⟨hs.loose hr hx hne hproduct fun w hw u hu hother => ?_, hgoes.1 ▸ hsum⟩
    rw [hres, List.mem_singleton] at hw
    exact absurd (hgoes.2 u (hw ▸ hu)) hother
  by_cases hmuli : g.kind x = .muli
  · have hmulf : g.kind x ≠ .mulf := by rw [hmuli]; decide
    by_cases hsingle : g.hasSingleUseBy x .addi = true
    · exact (product .addi (Or.inl rfl) (Or.inl hmuli) hsingle).imp_left fun hsingle' =>
        view (fun _ _ => hsingle') fun e => absurd e hmulf
    · exact Or.inl (view (fun _ e => absurd e hsingle) fun e => absurd e hmulf)
  by_cases hmulf : g.kind x = .mulf
  · by_cases hsingle : g.hasSingleUseBy x .addf = true
    · exact (product .addf (Or.inr rfl) (Or.inr hmulf) hsingle).imp_left fun hsingle' =>
        view (fun e => absurd e hmuli) fun _ _ => hsingle'
    · exact Or.inl (view (fun e => absurd e hmuli) fun _ e => absurd e hsingle)
  · exact Or.inl (view (fun e => absurd e hmuli) fun e => absurd e hmulf)

end SimdLowering
