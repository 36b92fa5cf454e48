/-
New operations in the place of an old one.

A rule that matches creates operations and hands back the graph with these operations in it,
created but not placed. Putting the match in place sets them where the old operation stood and
has the last of them read for it. Here this is described for any rule, whether or not it works
by recipe: `Gains` says what the rule has done, and `Exchanged` what has become of the graph in
the end.

If the new operations give the value that the old one gave, the function returns what it
returned. The two runs go side by side up to the place of the exchange; there the new operations
run instead of the old one; and from then on the runs go side by side again, under the new name.
No more is asked of the function than that its entry block reads values that are there.
-/
import SimdLowering.Proofs.Eval.Lockstep
import SimdLowering.Proofs.Rewrite.SpliceOrder

set_option autoImplicit false

namespace SimdLowering

namespace Graph

/-! ## What a rule may do -/

/-- The graph has gained operations, created one after the other, and nothing else has been
done to it. -/
inductive Gains (g : Graph) : Graph → List OpId → Prop
  | nothing : Gains g g []
  | one {g₁ g₂ : Graph} {news : List OpId} {d : Draft ValueId} {op : OpId} :
      Gains g g₁ news → g₁.createOp d = .ok (g₂, op) → Gains g g₂ (news ++ [op])

/-- Wherever a run gets to the operation and the operation gives a value, the steps run there
and the new operation then gives the same value. -/
def StandsIn (g g' : Graph) (op : OpId) (steps : List OpId) (new : OpId) : Prop :=
  ∀ func entry l₁ l₂ args env x, g.IsEntry func entry → g.opsIn entry = l₁ ++ op :: l₂ →
    (g.argsOf entry).length = args.length →
    g.evalOps l₁ (Env.empty.bindAll ((g.argsOf entry).zip args)) = .ok env →
    g.evalOp env op = .ok x →
    ∃ env', g'.evalOps steps env = .ok env' ∧ g'.evalOp env' new = .ok x

/-- Operations have been created to stand in for one: some steps and a last operation with one
result. -/
structure Offers (g g' : Graph) (op : OpId) (steps : List OpId) (new : OpId) : Prop where
  gains : ∃ news, Gains g g' news ∧ news.Perm (steps ++ [new])
  single : ∃ w, g'.results new = [w]
  standsIn : g.StandsIn g' op steps new

variable {g g₁ g' : Graph} {gone news steps : List OpId} {func o op new : OpId}
  {b entry : BlockId} {v w old : ValueId} {args : List RtValue}

/-! ## Operations that have been created -/

/-- What has been created is new and lies nowhere, and what was there is as it was. -/
structure Grown (g g' : Graph) (gone news : List OpId) : Prop where
  consistent : Consistent g' gone
  op : ∀ o, g.HasOp o → g'.op o = g.op o
  value? : ∀ v, g.HasValue v → g'.value? v = g.value? v
  block : ∀ b, g'.block b = g.block b
  blocksIn : ∀ r, g'.blocksIn r = g.blocksIn r
  sizes : g.ops.size ≤ g'.ops.size ∧ g.values.size ≤ g'.values.size
  fresh : ∀ n ∈ news, ¬ g.HasOp n ∧ g'.HasOp n ∧ g'.blockOf? n = none
  freshResults : ∀ n ∈ news, ∀ v ∈ g'.results n, ¬ g.HasValue v
  nodup : news.Nodup

/-- Creating one more grows the graph by one more. -/
theorem Grown.createOp {d : Draft ValueId} (h : Grown g g₁ gone news)
    (hc : g₁.createOp d = .ok (g', op)) : Grown g g' gone (news ++ [op]) := by
  obtain ⟨rfl, -, -, region, hops, hvalues, -, hblocks, -⟩ := createOp_effect hc
  -- The new operation is the next one, and all others are as they were.
  have hop : ∀ o, g'.op o = if o = g₁.nextOp then g₁.newOperation d else g₁.op o := by
    intro o
    rw [← op_addOp, Graph.op, Graph.op, op?, op?, hops]
  have hne : ∀ o, g₁.HasOp o → o ≠ g₁.nextOp := by
    rintro o ho rfl
    exact Nat.lt_irrefl _ ho
  have hasOp : ∀ o, g'.HasOp o ↔ g₁.HasOp o ∨ o = g₁.nextOp := by
    intro o
    rw [← hasOp_addOp d, HasOp, HasOp, hops]
  have old : ∀ {o}, g.HasOp o → g₁.HasOp o := fun ho => Nat.lt_of_lt_of_le ho h.sizes.1
  have size : g'.values.size = g₁.values.size + d.results.length := by
    rw [hvalues]
    simp only [addOp, addValues, Array.size_append, List.size_toArray, List.length_map,
      List.length_zipIdx, (addUses_arenas (g := g₁) ⟨g₁.ops.size⟩ d.operands).2.1]
  refine ⟨h.consistent.createOp hc, fun o ho => ?_, fun v hv => ?_, fun b => ?_, fun r => ?_,
    ⟨?_, ?_⟩, fun n hn => ?_, fun n hn v hv => ?_, ?_⟩
  · rw [hop, if_neg (hne o (old ho)), h.op o ho]
  · have hv₁ : g₁.HasValue v := Nat.lt_of_lt_of_le hv h.sizes.2
    have h₁ := value?_addOp (g := g₁) d v
    rw [if_pos hv₁] at h₁
    rw [Graph.value?, hvalues]
    exact h₁.trans (h.value? v hv)
  · rw [← h.block, Graph.block, Graph.block, block?, block?, hblocks]
  · rw [← h.blocksIn, Graph.blocksIn, region, Graph.blocksIn]
    split <;> rfl
  · have hlast := (hasOp g₁.nextOp).mpr (Or.inr rfl)
    exact Nat.le_of_lt (Nat.lt_of_le_of_lt h.sizes.1 hlast)
  · rw [size]
    exact Nat.le_add_right_of_le h.sizes.2
  -- What was created before is still free, and so is the one that is created now.
  · rcases List.mem_append.mp hn with hn | hn
    · obtain ⟨hfresh, hhas, hblock⟩ := h.fresh n hn
      refine ⟨hfresh, (hasOp n).mpr (Or.inl hhas), ?_⟩
      rw [blockOf?, hop, if_neg (hne n hhas)]
      exact hblock
    · obtain rfl := List.mem_singleton.mp hn
      refine ⟨fun hn => hne _ (old hn) rfl, (hasOp _).mpr (Or.inr rfl), ?_⟩
      rw [blockOf?, hop, if_pos rfl]
      rfl
  -- Its results are numbered on from the values that were there.
  · rcases List.mem_append.mp hn with hn | hn
    · rw [results, hop, if_neg (hne n (h.fresh n hn).2.1)] at hv
      exact h.freshResults n hn v hv
    · obtain rfl := List.mem_singleton.mp hn
      rw [results, hop, if_pos rfl] at hv
      obtain ⟨i, hi⟩ := List.mem_iff_getElem?.mp hv
      have hi := (getElem?_nextValues (g := g₁) d.results.length i).symm.trans hi
      split at hi
      · cases hi
        intro hv
        have hle := h.sizes.2
        simp only [HasValue] at hv
        omega
      · cases hi
  · apply List.nodup_append.mpr
    refine ⟨h.nodup, List.nodup_singleton _, fun n hn m hm => ?_⟩
    obtain rfl := List.mem_singleton.mp hm
    exact hne n (h.fresh n hn).2.1

/-- What is gained is grown. -/
theorem Gains.grown (hc : Consistent g gone) (h : Gains g g' news) : Grown g g' gone news := by
  induction h with
  | nothing =>
    exact ⟨hc, fun _ _ => rfl, fun _ _ => rfl, fun _ => rfl, fun _ => rfl,
      ⟨Nat.le_refl _, Nat.le_refl _⟩,
      by simp, by simp, List.nodup_nil⟩
  | one _ hcreate ih => exact ih.createOp hcreate

/-- One operation without regions is created. -/
theorem Gains.addOp {d : Draft ValueId} (bare : d.regions = []) :
    Gains g (g.addOp d).1 [g.nextOp] := .one .nothing (createOp_of_bare bare)

/-- The order in which operations were created does not matter. -/
theorem Grown.perm {news' : List OpId} (h : Grown g g' gone news) (hp : news.Perm news') :
    Grown g g' gone news' :=
  ⟨h.consistent, h.op, h.value?, h.block, h.blocksIn, h.sizes,
    fun n hn => h.fresh n (hp.mem_iff.mpr hn), fun n hn => h.freshResults n (hp.mem_iff.mpr hn),
    hp.nodup_iff.mp h.nodup⟩

/-! ## One match, put in place -/

/-- Between `g` and `g₁` operations have been created that stand in for `op`, and in `g'` they
have been put in its place. -/
structure Exchanged (g g₁ g' : Graph) (gone : List OpId) (op : OpId) (b : BlockId)
    (old w : ValueId) (steps : List OpId) (new : OpId) (l₁ l₂ : List OpId) : Prop where
  before : Consistent g gone
  opsIn : g.opsIn b = l₁ ++ op :: l₂
  proceeds : g.kind op ≠ .ret
  single : g.results op = [old]
  grown : Grown g g₁ gone (steps ++ [new])
  result : g₁.results new = [w]
  ty : (g₁.value? w).map Value.ty = (g.value? old).map Value.ty
  standsIn : g.StandsIn g₁ op steps new
  reads : ∀ n ∈ steps ++ [new], ∀ v ∈ g₁.operands n, g₁.HasValue v
  replaced : Replaced g₁ g' gone op b old w (steps ++ [new]) l₁ l₂

namespace Exchanged

variable {l₁ l₂ l : List OpId} {o n : OpId} {u : ValueId} {env e : Env} {x : RtValue}
  {r : List RtValue} (h : Exchanged g g₁ g' gone op b old w steps new l₁ l₂)
include h

theorem hasOp : g.HasOp op := hasOp_of_mem_results
    (by rw [h.single]; exact List.mem_singleton_self _)

/-- The old value was there. -/
theorem hasValue_old : g.HasValue old :=
  h.before.hasValue_of_mem_results (o := op) (by rw [h.single]; exact List.mem_singleton_self _)

/-- The new one was not. -/
theorem not_hasValue : ¬ g.HasValue w :=
  h.grown.freshResults new (by simp) w (by rw [h.result]; exact List.mem_singleton_self _)

/-- What was there still is. -/
theorem hasValue (hv : g.HasValue v) : g₁.HasValue v := Nat.lt_of_lt_of_le hv h.grown.sizes.2

/-- Only the block and the operands of an operation may have changed. -/
theorem op_eq (o : OpId) : ∃ k, g'.op o =
    { (g₁.op o).mapReads fun _ => readAs gone old w o with block := k } := by
  by_cases ho : o = op
  · exact ⟨none, ho ▸ h.replaced.left⟩
  · rw [h.replaced.kept o ho]
    split
    · exact ⟨some b, rfl⟩
    · exact ⟨(g₁.op o).block, rfl⟩

theorem kind (o : OpId) : g'.kind o = g₁.kind o := by
  obtain ⟨k, hk⟩ := h.op_eq o
  rw [Graph.kind, hk]
  rfl

theorem results (o : OpId) : g'.results o = g₁.results o := by
  obtain ⟨k, hk⟩ := h.op_eq o
  rw [Graph.results, hk]
  rfl

theorem regionsOf (o : OpId) : g'.regionsOf o = g₁.regionsOf o := by
  obtain ⟨k, hk⟩ := h.op_eq o
  rw [Graph.regionsOf, hk]
  rfl

/-- Operations read the new value where they read the old one. -/
theorem operands (o : OpId) : g'.operands o = (g₁.operands o).map (readAs gone old w o) := by
  obtain ⟨k, hk⟩ := h.op_eq o
  rw [Graph.operands, hk]
  exact mapIdx_const ..

theorem value? (v : ValueId) : g'.value? v = g₁.value? v := by
  rw [Graph.value?, h.replaced.values]
  rfl

theorem argsOf (c : BlockId) : g'.argsOf c = g.argsOf c := by
  rw [Graph.argsOf, Graph.argsOf, h.replaced.block, ← h.grown.block c]
  split <;> rfl

/-- In the block the new operations stand where the old one stood. -/
theorem opsIn_self : g'.opsIn b = l₁ ++ (steps ++ [new]) ++ l₂ := by
  rw [Graph.opsIn, h.replaced.block, if_pos rfl]

/-- Other blocks are what they were. -/
theorem opsIn_of_ne {c : BlockId} (hc : b ≠ c) : g'.opsIn c = g.opsIn c := by
  rw [Graph.opsIn, h.replaced.block, if_neg hc]
  exact congrArg Block.ops (h.grown.block c)

/-- What stands beside the operation in its block is something else. -/
theorem beside (ho : o ∈ l₁ ∨ o ∈ l₂) : o ∈ g.opsIn b ∧ o ≠ op := by
  have hnodup := h.before.placedOnce b
  rw [h.opsIn, List.nodup_append] at hnodup
  rw [h.opsIn]
  rcases ho with ho | ho
  · exact ⟨List.mem_append_left _ ho, hnodup.2.2 o ho op (List.mem_cons_self ..)⟩
  · refine ⟨List.mem_append_right _ (List.mem_cons_of_mem _ ho), ?_⟩
    rintro rfl
    exact (List.nodup_cons.mp hnodup.2.1).1 ho

/-- What a block holds now is new, or it was there and is not what has gone. -/
theorem mem_opsIn {c : BlockId} (ho : o ∈ g'.opsIn c) :
    o ∈ steps ++ [new] ∨ o ∈ g.opsIn c ∧ o ≠ op := by
  by_cases hb : b = c
  · subst hb
    rw [h.opsIn_self, List.mem_append, List.mem_append] at ho
    rcases ho with (ho | ho) | ho
    · exact Or.inr (h.beside (.inl ho))
    · exact Or.inl ho
    · exact Or.inr (h.beside (.inr ho))
  · rw [h.opsIn_of_ne hb] at ho
    refine Or.inr ⟨ho, ?_⟩
    rintro rfl
    exact hb (h.before.block_unique (by rw [h.opsIn]; simp) ho)

/-- The function has the entry block that it had. -/
theorem isEntry (hf : g.HasOp func) : g'.IsEntry func entry ↔ g.IsEntry func entry := by
  have hblocks : ∀ s, g'.blocksIn s = g.blocksIn s := fun s => by
    rw [← h.grown.blocksIn, Graph.blocksIn, region, region?, h.replaced.regions]
    rfl
  rw [IsEntry, h.kind, h.regionsOf, Graph.kind, Graph.regionsOf, h.grown.op func hf, IsEntry]
  simp only [hblocks]
  rfl

/-- What an operation reads keeps its type under its new name. -/
theorem ty_renamed (v : ValueId) :
    (g'.value? (renamed old w v)).map Value.ty = (g₁.value? v).map Value.ty := by
  rw [h.value?, renamed]
  split
  next e =>
    rw [h.ty, e, h.grown.value? old h.hasValue_old]
  · rfl

/-- The other operations bind nothing that has changed its name. -/
theorem renamed_eq_iff (ho : o ≠ op) (hn : o ≠ new) (hv : v ∈ g₁.results o) :
    renamed old w u = v ↔ u = v := by
  obtain ⟨i, hi⟩ := List.mem_iff_getElem?.mp hv
  have hres : g₁.results op = [old] := by
    rw [Graph.results, h.grown.op op h.hasOp]
    exact h.single
  have hold : v ≠ old := by
    rintro rfl
    exact ho (h.grown.consistent.result_unique hi (j := 0) (by simp [hres])).1
  have hw : v ≠ w := by
    rintro rfl
    exact hn (h.grown.consistent.result_unique hi (j := 0) (by simp [h.result])).1
  rw [renamed]
  split
  next e =>
    subst e
    exact ⟨fun e => absurd e.symm hw, fun e => absurd e.symm hold⟩
  · exact Iff.rfl

/-- An operation that has not been removed reads the same, under the new name. -/
theorem readsAlike_created (ho : ∀ v ∈ g₁.operands o, o ∉ gone) :
    ReadsAlike g₁ g' (renamed old w) o where
  kind := h.kind o
  attrs := by
    obtain ⟨k, hk⟩ := h.op_eq o
    rw [Graph.attrs, hk]
    rfl
  operands := by
    rw [h.operands]
    apply List.map_congr_left
    intro v hv
    exact if_neg (ho v hv)
  results := h.results o
  resultTy := by
    rw [resultTypes, h.results, typesOf, resultTypes, typesOf]
    simp only [value, h.value?]
  types v _ := h.ty_renamed v

/-- So does an operation of the entry block that was there before. -/
theorem readsAlike (ho : g.HasOp o) (hread : ∀ v ∈ g.operands o, g.HasValue v ∧ o ∉ gone) :
    ReadsAlike g g' (renamed old w) o := by
  have hop := h.grown.op o ho
  have hoperands : g₁.operands o = g.operands o := congrArg Operation.operands hop
  have hresults : g₁.results o = g.results o := congrArg Operation.results hop
  have h₁ := h.readsAlike_created (o := o) fun v hv => (hread v (hoperands ▸ hv)).2
  refine ⟨h₁.kind.trans (congrArg Operation.kind hop), h₁.attrs.trans
    (congrArg Operation.attrs hop),
    hoperands ▸ h₁.operands, h₁.results.trans hresults, ?_, fun v hv => ?_⟩
  · rw [h₁.resultTy, resultTypes, resultTypes, hresults, typesOf, typesOf]
    congr 1
    apply List.map_congr_left
    intro v hv
    rw [value, h.grown.value? v (h.before.hasValue_of_mem_results hv)]
    rfl
  · rw [h₁.types v (hoperands ▸ hv), h.grown.value? v (hread v hv).1]

/-- At the start of a run neither the old name is bound nor the new one, and no operation but
these two binds either. -/
theorem get?_renamed (hl : ∀ o ∈ l, o ≠ op ∧ g.HasOp o)
    (he : g.evalOps l (Env.empty.bindAll ((g.argsOf entry).zip args)) = .ok e) (v : ValueId) :
    e.get? (renamed old w v) = e.get? v := by
  -- What no parameter and no operation gives is not bound.
  have unbound : ∀ u, (∀ c, u ∉ g.argsOf c) → (∀ o ∈ l, u ∉ g.results o) → e.get? u = none := by
    intro u hargs hres
    rw [get?_of_evalOps he hres, Env.get?_bindAll_of_not_mem (hargs entry)]
    rfl
  rw [renamed]
  split
  next e =>
    subst e
    -- Neither the old nor the new result is given by the operations before the exchange.
    rw [unbound w, unbound v]
    · intro c hv
      exact h.before.not_mem_results_of_mem_argsOf hv (o := op)
        (by rw [h.single]; exact List.mem_singleton_self _)
    · intro o ho hv
      obtain ⟨i, hi⟩ := List.mem_iff_getElem?.mp hv
      exact (hl o ho).1 (h.before.result_unique hi (j := 0) (by simp [h.single])).1
    · intro c hw
      obtain ⟨i, hi⟩ := List.mem_iff_getElem?.mp hw
      exact h.not_hasValue (hasValue_of_originOf? ((h.before.takes c i w).mp hi))
    · intro o _ hw
      exact h.not_hasValue (h.before.hasValue_of_mem_results hw)
  · rfl

/-- Where the run gets to the operation, the new ones run instead, and what was there before is
bound to the same under its new name. -/
theorem standIn_follows {e' : Env} (hentry : g.IsEntry func b)
    (hlen : (g.argsOf b).length = args.length)
    (he : g.evalOps l₁ (Env.empty.bindAll ((g.argsOf b).zip args)) = .ok e)
    (hagree : ∀ v, e'.get? (renamed old w v) = e.get? v) (hx : g.evalOp e op = .ok x) :
    ∃ ρ, g'.evalOps (steps ++ [new]) e' = .ok ρ ∧
      ∀ v, g.HasValue v → ρ.get? (renamed old w v) = (e.bind old x).get? v := by
  obtain ⟨env, hsteps, hlast⟩ := h.standsIn func b l₁ l₂ args e x hentry h.opsIn hlen he hx
  -- What was created reads the same after the renaming, as it reads nothing of what is gone.
  have hcreated : ∀ n ∈ steps ++ [new], ReadsAlike g₁ g' (renamed old w) n := by
    intro n hn
    apply h.readsAlike_created
    intro _ _ hgone
    exact (h.grown.fresh n hn).1 (h.before.known n hgone)
  have hne : ∀ n ∈ steps, n ≠ op ∧ n ≠ new := by
    intro n hn
    have hnodup := h.grown.nodup
    refine ⟨?_, (List.nodup_append.mp hnodup).2.2 n hn new (List.mem_singleton_self _)⟩
    rintro rfl
    exact (h.grown.fresh n (List.mem_append_left _ hn)).1 h.hasOp
  -- So the steps run there as they do here, and the new operation after them.
  obtain ⟨env', hsteps', hagree'⟩ := evalOps_follows (P := fun _ => True)
    (fun n hn => hcreated n (List.mem_append_left _ hn)) (fun _ _ _ _ => trivial)
    (fun n hn v hv u _ => h.renamed_eq_iff (hne n hn).1 (hne n hn).2 hv) (fun v _ => hagree v)
    hsteps
  have hlast' := (hcreated new (by simp)).evalOp (fun v _ => hagree' v trivial) x hlast
  refine ⟨env'.bind w x, ?_, ?_⟩
  · rw [evalOps_append hsteps']
    exact evalOps_cons_eq_ok.mpr ⟨x, w, [], hlast', (h.results new).trans h.result, rfl⟩
  -- What was bound before is kept, and the old result is the new value now.
  · intro v hv
    have hkept : env.get? v = e.get? v := get?_of_evalOps hsteps fun n hn hv' =>
      h.grown.freshResults n (List.mem_append_left _ hn) v hv' hv
    rw [Env.get?_bind, Env.get?_bind]
    by_cases hold : v = old
    · rw [renamed, if_pos hold, if_pos rfl, if_pos hold]
    · have hw : v ≠ w := by
        rintro rfl
        exact h.not_hasValue hv
      have hsame := hagree' v trivial
      rw [renamed, if_neg hold] at hsame ⊢
      rw [if_neg hw, if_neg hold, hsame, hkept]

/-- What the function returned, it returns with the new operations in place. -/
theorem run (hread : ∀ c, g.IsEntry func c → ∀ o ∈ g.opsIn c, ∀ v ∈ g.operands o,
      g.HasValue v ∧ o ∉ gone) : Follows (g.run func args) (g'.run func args) := by
  intro r hrun
  obtain ⟨entry, hentry, hlen, hrun⟩ := run_eq_ok.mp hrun
  have hfunc : g.HasOp func := by
    obtain ⟨-, s, hs, -⟩ := hentry
    exact hasOp_of_mem_regionsOf (List.mem_of_mem_head? hs)
  refine run_eq_ok.mpr ⟨entry, (h.isEntry hfunc).mpr hentry, h.argsOf entry ▸ hlen, ?_⟩
  rw [h.argsOf]
  have hplaced : ∀ o ∈ g.opsIn entry, g.HasOp o := fun o ho =>
    hasOp_of_blockOf? ((h.before.places o entry).mp ho)
  have hsame : ∀ o ∈ g.opsIn entry, ReadsAlike g g' (renamed old w) o := fun o ho =>
    h.readsAlike (hplaced o ho) (hread entry hentry o ho)
  have hresults : ∀ o ∈ g.opsIn entry, g₁.results o = g.results o := fun o ho =>
    congrArg Operation.results (h.grown.op o (hplaced o ho))
  have hnew : ∀ n ∈ steps ++ [new], ∀ o ∈ g.opsIn entry, o ≠ n := by
    rintro n hn o ho rfl
    exact (h.grown.fresh o hn).1 (hplaced o ho)
  have hfresh : ∀ o ∈ g.opsIn entry, o ≠ op → ∀ v ∈ g.results o, ∀ u,
      (renamed old w u = v ↔ u = v) := fun o ho hop v hv u =>
    h.renamed_eq_iff hop (hnew new (by simp) o ho) (hresults o ho ▸ hv)
  have hstart : ∀ v, (Env.empty.bindAll ((g.argsOf entry).zip args)).get? (renamed old w v) =
      (Env.empty.bindAll ((g.argsOf entry).zip args)).get? v :=
    h.get?_renamed (l := []) (by simp) rfl
  by_cases hb : b = entry
  · subst hb
    have hmem : ∀ o, o ∈ l₁ ∨ o ∈ l₂ → o ∈ g.opsIn b ∧ o ≠ op := fun o => h.beside
    rw [h.opsIn] at hrun
    rw [h.opsIn_self, List.append_assoc]
    rcases runOps_append_follows (P := fun _ => True) (fun o ho => hsame o (hmem o (.inl ho)).1)
      (fun _ _ _ _ => trivial)
      (fun o ho v hv u _ => hfresh o (hmem o (.inl ho)).1 (hmem o (.inl ho)).2 v hv u)
      (fun v _ => hstart v) hrun with ⟨e, e', he, he', hagree, hrest⟩ | hall
    · -- The run gets to the operation; here the new ones run instead.
      rw [runOps_append he']
      obtain ⟨x, v, vs, hx, hv, hrest⟩ := (runOps_cons_eq_ok h.proceeds).mp hrest
      rw [h.single] at hv
      cases hv
      obtain ⟨ρ, hall, hbound⟩ :=
        h.standIn_follows hentry hlen he (fun v => hagree v trivial) hx
      rw [runOps_append hall]
      exact runOps_follows (P := g.HasValue) (fun o ho => hsame o (hmem o (.inr ho)).1)
        (fun o ho v hv => (hread b hentry o (hmem o (.inr ho)).1 v hv).1)
        (fun o ho v hv u _ => hfresh o (hmem o (.inr ho)).1 (hmem o (.inr ho)).2 v hv u)
        hbound r hrest
    · exact hall _
  · -- The entry block reads the values of no other block.
    rw [h.opsIn_of_ne hb]
    have hop : ∀ o ∈ g.opsIn entry, o ≠ op := by
      rintro o ho rfl
      exact hb (h.before.block_unique (by rw [h.opsIn]; simp) ho)
    exact runOps_follows (P := fun _ => True) hsame (fun _ _ _ _ => trivial)
      (fun o ho v hv u _ => hfresh o ho (hop o ho) v hv u) (fun v _ => hstart v) r hrun

/-- The entry block still reads what is there and not removed. -/
theorem reads_entry (hf : g.HasOp func) (hread : ∀ c, g.IsEntry func c → ∀ o ∈ g.opsIn c,
    ∀ v ∈ g.operands o,
      g.HasValue v ∧ o ∉ gone) (hentry : g'.IsEntry func entry) :
    ∀ o ∈ g'.opsIn entry, ∀ v ∈ g'.operands o, g'.HasValue v ∧ o ∉ op :: gone := by
  intro o ho v hv
  have hread := hread entry ((h.isEntry hf).mp hentry)
  have hvalues : ∀ u, g₁.HasValue u → g'.HasValue (renamed old w u) := by
    intro u hu
    rw [HasValue, h.replaced.values, renamed]
    split
    · exact h.grown.consistent.hasValue_of_mem_results
        (by rw [h.result]; exact List.mem_singleton_self _)
    · exact hu
  -- It is enough that the operation was neither removed nor is the one that goes.
  suffices hold : o ∉ op :: gone ∧ ∀ u ∈ g₁.operands o, g₁.HasValue u by
    refine ⟨?_, hold.1⟩
    rw [h.operands] at hv
    obtain ⟨u, hu, rfl⟩ := List.mem_map.mp hv
    rw [readAs, if_neg fun hgone => hold.1 (List.mem_cons_of_mem _ hgone)]
    exact hvalues u (hold.2 u hu)
  rcases h.mem_opsIn ho with hn | ⟨ho, hne⟩
  · have hfresh := (h.grown.fresh o hn).1
    refine ⟨?_, h.reads o hn⟩
    rw [List.mem_cons, not_or]
    refine ⟨?_, fun hgone => hfresh (h.before.known o hgone)⟩
    rintro rfl
    exact hfresh h.hasOp
  · have hop := h.grown.op o (hasOp_of_blockOf? ((h.before.places o entry).mp ho))
    have hoperands : g₁.operands o = g.operands o := congrArg Operation.operands hop
    rw [h.operands, hoperands] at hv
    obtain ⟨u, hu, -⟩ := List.mem_map.mp hv
    rw [hoperands, List.mem_cons, not_or]
    exact ⟨⟨hne, (hread o ho u hu).2⟩, fun u hu => h.hasValue (hread o ho u hu).1⟩

end Exchanged

end Graph

end SimdLowering
