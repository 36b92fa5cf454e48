/-
The operations of a recipe, once created.

A recipe names the results of its own steps by position. Names of values are given out
in order, and every step of a recipe has one result, so the result of step `i` gets the
name that comes `i` after the next free one; likewise for operations. With that, the
graph after the creation is described without a run: the arenas are longer by the
steps, and the new records are read off them.

What a recipe has to satisfy for this is `Recipe.Fine`: one result for each step, no
regions, no step that reads a later one, and only values of the graph with a property
that the caller chooses. Rules choose "can be read at the operation".
-/
import SimdLowering.Proofs.Graph.Preservation
import SimdLowering.Rewrite.Recipe

set_option autoImplicit false

namespace SimdLowering

/-- The value an operand of a recipe stands for, when the results of the steps are
named from `base` on. -/
def Source.valueFrom (base : Nat) : Source → ValueId
  | value v => v
  | step i => ⟨base + i⟩

/-- The operand is a value with the property, or the result of one of the first `n`
steps. -/
def Source.Fine (R : ValueId → Prop) (n : Nat) : Source → Prop
  | value v => R v
  | step i => i < n

/-- The step can be created after `n` others. -/
structure StepFine (R : ValueId → Prop) (n : Nat) (d : Step) : Prop where
  result : ∃ ty, d.results = [ty]
  bare : d.regions = []
  reads : ∀ s ∈ d.operands, Source.Fine R n s

/-- All steps of a recipe, the last one included. -/
def Recipe.all (r : Recipe) : List Step := r.steps ++ [r.final]

/-- Every step of the recipe can be created after those before it. -/
def Recipe.Fine (R : ValueId → Prop) (r : Recipe) : Prop :=
  ∀ i d, r.all[i]? = some d → StepFine R i d

/-- What may be read may be read later and elsewhere, if more may be read there. -/
theorem Source.Fine.mono {R R' : ValueId → Prop} (hR : ∀ v, R v → R' v) {n m : Nat} (hn : n ≤ m)
    {s : Source} (h : Source.Fine R n s) : Source.Fine R' m s := by
  cases s with
  | value v => exact hR v h
  | step i => exact Nat.lt_of_lt_of_le h hn

/-- The same for a whole step. -/
theorem StepFine.mono {R R' : ValueId → Prop} (hR : ∀ v, R v → R' v) {n m : Nat} (hn : n ≤ m)
    {d : Step} (h : StepFine R n d) : StepFine R' m d :=
  ⟨h.result, h.bare, fun s hs => (h.reads s hs).mono hR hn⟩

/-- The last step is one of all. -/
theorem Recipe.length_all (r : Recipe) : r.all.length = r.steps.length + 1 := by
  simp [Recipe.all]

/-- It comes after the others. -/
theorem Recipe.getElem?_all_final (r : Recipe) : r.all[r.steps.length]? = some r.final := by
  simp [Recipe.all]

/-- The step after the last of a list is the one that is added. -/
theorem getElem?_snoc (l : List Step) (d : Step) (i : Nat) :
    (l ++ [d])[i]? = if i = l.length then some d else l[i]? := by
  by_cases hi : i = l.length
  · rw [if_pos hi, hi, List.getElem?_concat_length]
  · rw [if_neg hi]
    rcases Nat.lt_or_ge i l.length with hlt | hge
    · rw [List.getElem?_append_left hlt]
    · rw [List.getElem?_eq_none hge, List.getElem?_eq_none]
      rw [List.length_append, List.length_singleton]
      omega

/-- So a step is one of the others or the last. -/
theorem Recipe.getElem?_all_eq_some {r : Recipe} {i : Nat} {d : Step} :
    r.all[i]? = some d ↔ r.steps[i]? = some d ∨ (i = r.steps.length ∧ d = r.final) := by
  rw [Recipe.all, getElem?_snoc]
  split
  · next hi =>
    rw [hi, List.getElem?_eq_none (Nat.le_refl _)]
    simp [eq_comm]
  · next hi => simp [hi]

/-- A step gives one result. -/
theorem StepFine.results_eq {R : ValueId → Prop} {n : Nat} {d : Step} (h : StepFine R n d) :
    d.results = [d.resultType] := by
  obtain ⟨ty, hty⟩ := h.result
  rw [Draft.resultType, hty]
  rfl

namespace Graph

variable {g g₁ g₂ g' : Graph} {gone : List OpId} {R : ValueId → Prop} {o : OpId} {v : ValueId}

/-- The names that the next operations get. -/
def nextOps (g : Graph) (n : Nat) : List OpId := (List.range n).map fun i => ⟨g.ops.size + i⟩

/-- The next operations are numbered on from those that are there. -/
theorem mem_nextOps {n : Nat} : o ∈ g.nextOps n ↔ ∃ i, i < n ∧ o = ⟨g.ops.size + i⟩ := by
  simp only [nextOps, List.mem_map, List.mem_range]
  exact ⟨fun ⟨i, hi, h⟩ => ⟨i, hi, h.symm⟩, fun ⟨i, hi, h⟩ => ⟨i, hi, h.symm⟩⟩

theorem nextOps_succ (n : Nat) : g.nextOps (n + 1) = g.nextOps n ++ [⟨g.ops.size + n⟩] := by
  simp [nextOps, List.range_succ]

/-- The operations of a recipe are its steps and the final one. -/
theorem nextOps_all (r : Recipe) : g.nextOps r.all.length =
    g.nextOps r.steps.length ++ [⟨g.ops.size + r.steps.length⟩] := by
  rw [r.length_all, nextOps_succ]

theorem nextValues_succ (n : Nat) :
    g.nextValues (n + 1) = g.nextValues n ++ [⟨g.values.size + n⟩] := by
  simp [nextValues, List.range_succ]

theorem nodup_nextOps (n : Nat) : (g.nextOps n).Nodup := by
  refine List.Nodup.map (fun i j h => ?_) List.nodup_range
  simp only [OpId.mk.injEq] at h
  omega

/-- The record of a step, created at the given position after the graph. -/
def stepOperation (g : Graph) (i : Nat) (d : Step) : Operation :=
  ⟨d.kind, d.operands.map (Source.valueFrom g.values.size), [⟨g.values.size + i⟩], d.attrs, [],
    none⟩

/-- The graph `g₁` is `g` with the given steps created after it and not placed. -/
structure Created (g g₁ : Graph) (all : List Step) : Prop where
  op : ∀ o, g₁.op o = if g.HasOp o then g.op o else
    (all[o.index - g.ops.size]?.map (g.stepOperation (o.index - g.ops.size))).getD default
  value? : ∀ v, g₁.value? v = if g.HasValue v then g.value? v else
    all[v.index - g.values.size]?.map fun d =>
      ⟨.result ⟨g.ops.size + (v.index - g.values.size)⟩ 0, d.resultType⟩
  opsSize : g₁.ops.size = g.ops.size + all.length
  valuesSize : g₁.values.size = g.values.size + all.length
  blocks : g₁.blocks = g.blocks
  regions : g₁.regions = g.regions

/-- Where there are no steps nothing is created. -/
theorem created_nil : Created g g [] where
  op o := by
    split
    · rfl
    · next h => rw [op_eq_default h]; rfl
  value? v := by
    split
    · rfl
    · next h => rw [value?_eq_none h]; rfl
  opsSize := rfl
  valuesSize := rfl
  blocks := rfl
  regions := rfl

/-- Once the results of the steps before it are known by name, an operand of a step is
what it stands for. -/
theorem resolve_nextValues {n : Nat} {s : Source} (h : Source.Fine R n s) :
    s.resolve (g.nextValues n) = s.valueFrom g.values.size := by
  cases s with
  | value v => rfl
  | step i =>
    change (g.nextValues n).getD i default = _
    rw [List.getD_eq_getElem?_getD, getElem?_nextValues, if_pos (show i < n from h)]
    rfl

/-- After the steps before it, a step becomes the record that is read off it. -/
theorem Created.newOperation_eq {l : List Step} {d : Step} (h : Created g g₁ l)
    (hd : StepFine R l.length d) :
    g₁.newOperation (d.mapOperands (Source.resolve (g.nextValues l.length))) =
      g.stepOperation l.length d := by
  have hoperands : (d.mapOperands (Source.resolve (g.nextValues l.length))).operands =
      d.operands.map (Source.valueFrom g.values.size) :=
    List.map_congr_left fun s hs => resolve_nextValues (hd.reads s hs)
  have hlen : (d.mapOperands (Source.resolve (g.nextValues l.length))).results.length = 1 := by
    rw [Draft.mapOperands, hd.results_eq]
    rfl
  have hone : g₁.nextValues 1 = [⟨g.values.size + l.length⟩] := by
    rw [← h.valuesSize]
    rfl
  rw [newOperation, hlen, hoperands, hone, stepOperation]
  simp only [Draft.mapOperands, hd.bare]

/-- One more step. -/
theorem Created.addStep {l : List Step} {d : Step} (h : Created g g₁ l)
    (hd : StepFine R l.length d) :
    Created g (g₁.addStep (g.nextValues l.length) d).1 (l ++ [d]) ∧
      (g₁.addStep (g.nextValues l.length) d).2 = ⟨g.ops.size + l.length⟩ ∧
      ((g₁.addStep (g.nextValues l.length) d).1.results ⟨g.ops.size + l.length⟩) =
        [⟨g.values.size + l.length⟩] := by
  have hnext : g₁.nextOp = ⟨g.ops.size + l.length⟩ := by
    rw [nextOp, h.opsSize]
  have hop := op_addOp (g := g₁) (d.mapOperands (Source.resolve (g.nextValues l.length)))
  have hval := value?_addOp (g := g₁) (d.mapOperands (Source.resolve (g.nextValues l.length)))
  have hresults : (d.mapOperands (Source.resolve (g.nextValues l.length))).results =
      [d.resultType] := hd.results_eq
  obtain ⟨hops, hvalues, -, -⟩ := addUses_arenas (g := g₁) g₁.nextOp
    (d.mapOperands (Source.resolve (g.nextValues l.length))).operands
  rw [hnext, h.newOperation_eq hd] at hop
  refine ⟨⟨fun o => ?_, fun v => ?_, ?_, ?_, ?_, ?_⟩, hnext, ?_⟩
  · rw [Graph.addStep, hop o, getElem?_snoc, h.op o]
    -- The index of an operation that was not there says which step it is.
    have hindex : o = ⟨g.ops.size + l.length⟩ ↔
        ¬ g.HasOp o ∧ o.index - g.ops.size = l.length := by
      obtain ⟨j⟩ := o
      simp only [OpId.mk.injEq, HasOp]
      omega
    by_cases ho : g.HasOp o
    · simp [ho, hindex]
    · by_cases hl : o.index - g.ops.size = l.length
      · simp [ho, hindex, hl]
      · simp [ho, hindex, hl]
  · rw [Graph.addStep, hval v, hresults, getElem?_snoc, h.value? v, hnext]
    have hv₁ : g₁.HasValue v ↔ v.index < g.values.size + l.length := by
      rw [HasValue, h.valuesSize]
    by_cases hv : g.HasValue v
    · have hlt : v.index < g.values.size := hv
      rw [if_pos (hv₁.mpr (by omega)), if_pos hv, if_pos hv]
    · have hge : g.values.size ≤ v.index := Nat.not_lt.mp hv
      rw [if_neg hv, if_neg hv, h.valuesSize, List.getElem?_singleton]
      by_cases hl : v.index = g.values.size + l.length
      · rw [if_neg fun hlt => Nat.ne_of_lt (hv₁.mp hlt) hl, if_pos (by omega),
          if_pos (by omega), hl]
        simp
      · rw [if_neg (show v.index - g.values.size ≠ l.length by omega)]
        split
        · rfl
        · next hge₁ =>
          rw [hv₁, Nat.not_lt] at hge₁
          rw [if_neg (by omega), List.getElem?_eq_none (by omega)]
          rfl
  · simp only [Graph.addStep, addOp, addValues, Array.size_push]
    rw [show (⟨g₁.ops.size⟩ : OpId) = g₁.nextOp from rfl, hops, h.opsSize]
    simp only [List.length_append, List.length_singleton]
    omega
  · simp only [Graph.addStep, addOp, addValues, Array.size_append]
    rw [show (⟨g₁.ops.size⟩ : OpId) = g₁.nextOp from rfl, hvalues, h.valuesSize]
    simp [hresults]
    omega
  · rw [Graph.addStep, blocks_addOp, h.blocks]
  · rw [Graph.addStep, regions_addOp, h.regions]
  · rw [results, Graph.addStep, hop, if_pos rfl]
    rfl

/-- Creating an operation without regions is all there is to making one. -/
theorem createOp_of_bare {d : Draft ValueId} (bare : d.regions = []) :
    g.createOp d = .ok (g.addOp d) := by
  rw [createOp, bare]
  rfl

/-- Creating what owns no region keeps a graph consistent. -/
theorem Consistent.addOp (h : Consistent g gone) (d : Draft ValueId) (bare : d.regions = []) :
    Consistent (g.addOp d).1 gone := h.createOp (createOp_of_bare bare)

/-- So does creating what a step asks for. -/
theorem Consistent.addStep (h : Consistent g gone) {results : List ValueId} {d : Step} {n : Nat}
    (hd : StepFine R n d) : Consistent (g.addStep results d).1 gone :=
  h.addOp _ hd.bare

/-- A list of steps. -/
theorem addSteps_created {l ds : List Step} (hg : Created g g₁ l) (hc : Consistent g₁ gone)
    (hd : ∀ i d, ds[i]? = some d → StepFine R (l.length + i) d) :
    ∃ g₂, addSteps ds g₁ (g.nextValues l.length) =
        (g₂, g.nextValues (l ++ ds).length,
          (List.range ds.length).map fun i => ⟨g.ops.size + l.length + i⟩) ∧
      Created g g₂ (l ++ ds) ∧ Consistent g₂ gone := by
  -- The induction is on the steps still to be made; those before them are counted in `l`.
  induction ds generalizing l g₁ with
  | nil =>
    refine ⟨g₁, ?_, ?_, hc⟩
    · simp [addSteps]
    · simpa using hg
  | cons d ds ih =>
    have hd₀ := hd 0 d rfl
    obtain ⟨hg₁, hop, hres⟩ := hg.addStep hd₀
    have hc₁ : Consistent (g₁.addStep (g.nextValues l.length) d).1 gone := hc.addStep hd₀
    have hd₁ : ∀ i e, ds[i]? = some e → StepFine R ((l ++ [d]).length + i) e := by
      intro i e he
      have := hd (i + 1) e he
      rw [List.length_append, List.length_singleton]
      exact (by omega : l.length + (i + 1) = l.length + 1 + i) ▸ this
    obtain ⟨g₂, hrun, hg₂, hc₂⟩ := ih hg₁ hc₁ hd₁
    refine ⟨g₂, ?_, by simpa using hg₂, hc₂⟩
    rw [addSteps]
    generalize hstep : g₁.addStep (g.nextValues l.length) d = made at hop hres hrun ⊢
    obtain ⟨g₃, op⟩ := made
    dsimp only at hop hres hrun ⊢
    subst hop
    rw [hres, List.headD_cons, ← nextValues_succ,
      show l.length + 1 = (l ++ [d]).length by simp, hrun]
    -- What is left is to number the operations on from the first one.
    simp only [Prod.mk.injEq, true_and]
    refine ⟨by simp, ?_⟩
    rw [List.length_cons, List.range_succ_eq_map, List.map_cons, List.map_map]
    simp only [Nat.add_zero, List.length_append, List.length_singleton, List.cons.injEq, true_and]
    refine List.map_congr_left fun i _ => ?_
    simp only [Function.comp_apply, OpId.mk.injEq]
    omega

/-- The operations of a recipe, created: the graph is longer by the steps, and the
edits name the new operations in order. -/
theorem addRecipe_created (h : Consistent g gone) {r : Recipe} (hr : r.Fine R) :
    ∃ g₂, g.addRecipe r =
        (g₂, ⟨g.nextOps r.steps.length, .replace ⟨g.ops.size + r.steps.length⟩⟩) ∧
      Created g g₂ r.all ∧ Consistent g₂ gone := by
  have hsteps : ∀ i d, r.steps[i]? = some d → StepFine R (([] : List Step).length + i) d := by
    intro i d hd
    exact (hr i d (Recipe.getElem?_all_eq_some.mpr (.inl hd))).mono (fun _ h => h) (by simp)
  obtain ⟨g₁, hrun, hg₁, hc₁⟩ := addSteps_created (l := []) created_nil h hsteps
  have hfinal := hr _ _ r.getElem?_all_final
  rw [List.nil_append] at hg₁ hrun
  obtain ⟨hg₂, hop, -⟩ := hg₁.addStep hfinal
  refine ⟨_, ?_, hg₂, hc₁.addStep hfinal⟩
  rw [addRecipe]
  have hstart : (g.nextValues ([] : List Step).length) = [] := rfl
  rw [hstart] at hrun
  rw [hrun]
  simp only [Prod.mk.injEq, Edits.mk.injEq, Ending.replace.injEq, true_and]
  exact ⟨by simp [nextOps], hop⟩

end Graph

end SimdLowering
