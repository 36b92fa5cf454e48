/-
Reductions of integers, lowered.

The second generation reduces by a tree of lanewise instructions, and its minimum and maximum have
no signed and unsigned form: they take the sign from the type of the lanes. So a tree computes
the reduction by the combining function that does the same. For sums and for the signed extrema
this is the reduction that was asked for, and so it is for all kinds if the lanes are unsigned.
The unsigned extrema of other lanes are not kept: a negative lane comes out as the least of all,
where without a sign it is the greatest.

As with products, nothing is assumed of the rest of the function: it is enough that the run
gets to the reduction.
-/
import SimdLowering.Proofs.Integral.Reductions
import SimdLowering.Proofs.Products.Arrival
import SimdLowering.Target.RuleTable

set_option autoImplicit false

namespace SimdLowering

namespace Graph

open SimdLowering.Rules

variable {g g' : Graph} {gone : List OpId} {func op : OpId} {entry : BlockId} {v : ValueId}
  {args : List RtValue} {ρ : Env} {kind : CombiningKind} {n width : Nat} {sign : Signedness}
  {x : RtValue} {rule : Rule} {shift : Int} {sizes sizes' : AccessSizes} {edits : Edits}

/-- The run of the function on the arguments gets to a reduction of a vector of integers. -/
structure ReducesAt (g : Graph) (func : OpId) (entry : BlockId) (args : List RtValue) (op : OpId)
    (ρ : Env) (kind : CombiningKind) (v : ValueId) (n width : Nat) (sign : Signedness) : Prop
    extends g.Ready func entry args op ρ where
  reduces : g.kind op = .reduction
  combines : (g.attrs op).combiningKind? = some kind
  operands : ∃ rest, g.operands op = v :: rest
  vectorTy : (g.value v).ty = .vector n (.int width sign)

/-- Every rule of the second generation for reductions goes by the type of the lanes. -/
theorem foldsByType_of_root (hrule : rule ∈ aiemlRules shift)
    (hroot : OpKind.reduction ∈ rule.roots) : FoldsByType rule := by
  have hmem : rule ∈ (aiemlRules shift).filter fun r => r.roots.contains .reduction :=
    List.mem_filter.mpr ⟨hrule, List.contains_iff_mem.mpr hroot⟩
  -- Five rules have reductions for roots, whatever the shift is.
  have hrules : (aiemlRules shift).filter (fun r => r.roots.contains .reduction) =
      [minReduction, maxReduction, intAddReduction, f32AddReduction, bf16AddReduction] := rfl
  rw [hrules] at hmem
  simp only [List.mem_cons, List.not_mem_nil, or_false] at hmem
  rcases hmem with rfl | rfl | rfl | rfl | rfl
  · exact minReduction_foldsByType
  · exact maxReduction_foldsByType
  · exact intAddReduction_foldsByType
  · exact f32AddReduction_foldsByType
  · exact bf16AddReduction_foldsByType

namespace ReducesAt

variable (hscene : Scene g gone func) (h : g.ReducesAt func entry args op ρ kind v n width sign)
include h

omit hscene in
theorem mem_operands : v ∈ g.operands op := by
  obtain ⟨rest, hops⟩ := h.operands
  simp [hops]

omit hscene in
theorem vectorShape : (g.value v).ty.vectorShape = some ⟨n, .int width sign, width, false⟩ := by
  rw [h.vectorTy]
  rfl

include hscene

/-- The result is a scalar of the type of the lanes. -/
theorem exists_result : ∃ old, g.results op = [old] ∧ (g.value old).ty = .int width sign := by
  obtain ⟨rest, hops⟩ := h.operands
  refine hscene.exists_result h.arrives.inside ?_
  rw [h.reduces, typesOf, hops, List.map_cons, h.vectorTy]
  rfl

/-- Whatever the lanes are folded by, if there are any and they have a range, there is a fold. -/
theorem exists_folds (kind : CombiningKind) (hn : 0 < n)
    (hwraps : (ElemKind.int width sign).wraps = true) :
    ∃ x, FoldsLanes g ρ kind n width sign v x := by
  have hmem := h.mem_operands
  have hlen : (g.known ρ v).lanes.length = n := (h.fits hmem).length _ h.vectorShape
  obtain ⟨first, others, hlanes⟩ := List.exists_cons_of_length_pos (hlen ▸ hn)
  have hscalar : (Ty.int width sign).isVector = false := rfl
  exact ⟨_, h.vectorTy, h.holds hscene hmem, h.fits hmem, first, others, hlanes,
    Frame.shapeAs_of_not_isVector hscalar hwraps _ []⟩

/-- The reduction evaluates to the fold by its own combining function. -/
theorem evalOp_eq (hx : FoldsLanes g ρ kind n width sign v x)
    (hwraps : (ElemKind.int width sign).wraps = true) : g.evalOp ρ op = .ok x := by
  obtain ⟨old, hold, holdTy⟩ := h.exists_result hscene
  obtain ⟨rest, hops⟩ := h.operands
  obtain ⟨first, others, hlanes, hshape⟩ := hx.folds
  refine h.toReady.evalOp_eq hscene hold ?_
  rw [h.reduces, knownOperands, hops, List.map_cons, holdTy]
  refine (Frame.eval_reduction h.combines).mpr ⟨first, others, hlanes, ?_⟩
  rw [known, h.vectorTy]
  exact ⟨fun _ => ElemKind.folds_of_wraps hwraps kind, hshape⟩

/-- Where the target does not let the reduction stay, its input has a shape that a tree takes. -/
theorem isElementwise (hopen : Generation.aieml.conversionTarget.Open g op) :
    VectorShape.isElementwise ⟨n, .int width sign, width, false⟩ = true := by
  obtain ⟨rest, hops⟩ := h.operands
  have hshape : g.operandShape? op 0 = .ok (some ⟨n, .int width sign, width, false⟩) := by
    rw [hscene.operandShape? h.arrives.inside 0, hops]
    exact congrArg Except.ok h.vectorShape
  exact treeShape_of_open h.reduces hopen h.combines hshape

/-- Lanes of such a shape have a range. -/
theorem wraps (hopen : Generation.aieml.conversionTarget.Open g op) :
    (ElemKind.int width sign).wraps = true := by
  obtain ⟨-, hbytes, hpos, -⟩ := treeSizes (h.isElementwise hscene hopen)
  exact ElemKind.wraps_int (by omega) (by omega) sign

/-- What a rule makes of the reduction gives the fold that goes by the type of the lanes. -/
theorem madeToGive (hrule : FoldsByType rule)
    (hopen : Generation.aieml.conversionTarget.Open g op)
    (hrun : rule.run g op sizes = .ok (g', sizes', .matched edits))
    (hx : FoldsLanes g ρ kind.byType n width sign v x) : g'.MadeToGive ρ edits x := by
  obtain ⟨name, look, rfl, hlook⟩ := hrule
  obtain ⟨rest, hops⟩ := h.operands
  refine madeToGive_of_run (F := fun _ => True) (k := ⟨.int width sign, x⟩) hscene.consistent ?_
    hrun
  -- The rule is handed the input with its shape, and the rest is its lookup.
  rw [reductionInput?_eq hscene (h.atHand hscene h.mem_operands) hops h.combines, h.vectorShape,
    h.vectorTy]
  exact hlook hx (h.isElementwise hscene hopen)

end ReducesAt

/-- Take any reduction of a vector of integers that may not stay on the second generation, any
rule that rewrites it and any run that gets to it. What the rule has made gives the fold of the
lanes by the combining function that takes its sign from their type. -/
theorem reduction_byType (hscene : Scene g gone func)
    (h : g.ReducesAt func entry args op ρ kind v n width sign) (hrule : rule ∈ aiemlRules shift)
    (hroot : OpKind.reduction ∈ rule.roots) (hopen : Generation.aieml.conversionTarget.Open g op)
    (hrun : rule.run g op sizes = .ok (g', sizes', .matched edits)) :
    ∃ x, FoldsLanes g ρ kind.byType n width sign v x ∧ g'.MadeToGive ρ edits x := by
  have helem := h.isElementwise hscene hopen
  -- The shapes of trees have a power of two for their lanes, so there is a first one.
  obtain ⟨⟨j, hn, -⟩, -⟩ := treeSizes helem
  obtain ⟨x, hx⟩ := h.exists_folds hscene kind.byType (hn ▸ twoPow_pos _) (h.wraps hscene hopen)
  exact ⟨x, hx, h.madeToGive hscene (foldsByType_of_root hrule hroot) hopen hrun hx⟩

/-- That is what the reduction itself evaluates to, unless it is an unsigned extremum of lanes
that are read with a sign. -/
theorem reduction_keeps (hscene : Scene g gone func)
    (h : g.ReducesAt func entry args op ρ kind v n width sign) (hrule : rule ∈ aiemlRules shift)
    (hroot : OpKind.reduction ∈ rule.roots) (hopen : Generation.aieml.conversionTarget.Open g op)
    (hsign : kind.byType = kind ∨ sign = .unsigned)
    (hrun : rule.run g op sizes = .ok (g', sizes', .matched edits)) :
    ∃ x, g.evalOp ρ op = .ok x ∧ g'.MadeToGive ρ edits x := by
  obtain ⟨x, hx, hmade⟩ := reduction_byType hscene h hrule hroot hopen hrun
  refine ⟨x, h.evalOp_eq hscene ?_ (h.wraps hscene hopen), hmade⟩
  obtain ⟨first, others, hlanes, hshape⟩ := hx.folds
  rw [Lane.combine_byType hsign] at hshape
  exact ⟨hx.vectorTy, hx.holds, hx.fits, first, others, hlanes, hshape⟩

end Graph

end SimdLowering
