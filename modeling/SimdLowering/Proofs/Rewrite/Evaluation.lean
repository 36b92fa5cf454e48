/-
What a rule computes at an operation that the run gets to.

A rule is judged where an answer is explained and the operation is reached. There everything
that can be read is known, by type and value, and both the operation and whatever defines
what it reads compute from known operands. So a look at the graph that finds the definition
of an operand also finds the equation between the two values.

The traversal says of a rewrite only which operations came of it. That a rule which works by
recipe put just its own recipe there follows from the operations: steps that only read what
exists are determined by what they create.
-/
import SimdLowering.Proofs.Rewrite.Simulation

set_option autoImplicit false

namespace SimdLowering

/-! ## Recipes and what they create -/

section

variable {g : Graph} {gone : List OpId} {r r' : Recipe}

/-- Names of values and of results of steps do not meet. -/
theorem Source.eq_of_valueFrom {n m : Nat} {s s' : Source} (h : s.Fine g.HasValue n)
    (h' : s'.Fine g.HasValue m) (e : s.valueFrom g.values.size = s'.valueFrom g.values.size) :
    s = s' := by
  cases s with
  | value v =>
    cases s' with
    | value w => exact congrArg Source.value e
    | step j =>
      have hv : v.index < g.values.size := h
      have e : v.index = g.values.size + j := congrArg ValueId.index e
      omega
  | step i =>
    cases s' with
    | value w =>
      have hw : w.index < g.values.size := h'
      have e : g.values.size + i = w.index := congrArg ValueId.index e
      omega
    | step j =>
      have e : g.values.size + i = g.values.size + j := congrArg ValueId.index e
      exact congrArg Source.step (by omega)

theorem Step.eq_of_stepOperation {n m i : Nat} {d d' : Step} (h : StepFine g.HasValue n d)
    (h' : StepFine g.HasValue m d') (e : g.stepOperation i d = g.stepOperation i d')
    (ety : d.resultType = d'.resultType) : d = d' := by
  -- Values and steps are numbered apart, so equal values come from equal sources.
  have operands : ∀ l l' : List Source, (∀ s ∈ l, s.Fine g.HasValue n) →
      (∀ s ∈ l', s.Fine g.HasValue m) →
      l.map (Source.valueFrom g.values.size) = l'.map (Source.valueFrom g.values.size) → l =
        l' := by
    intro l
    induction l with
    | nil =>
      intro l' _ _ e
      exact (List.map_eq_nil_iff.mp e.symm).symm
    | cons s l ih =>
      intro l' hl hl' e
      obtain ⟨s', rest, rfl, hs, hrest⟩ := List.map_eq_cons_iff.mp e.symm
      rw [Source.eq_of_valueFrom (hl s (List.mem_cons_self ..)) (hl' s' (List.mem_cons_self ..))
          hs.symm,
        ih rest (fun t ht => hl t (List.mem_cons_of_mem _ ht))
          (fun t ht => hl' t (List.mem_cons_of_mem _ ht)) hrest.symm]
  obtain ⟨k, ops, res, attrs, regions⟩ := d
  obtain ⟨k', ops', res', attrs', regions'⟩ := d'
  simp only [Graph.stepOperation, Operation.mk.injEq] at e
  obtain ⟨rfl, hops, -, rfl, -⟩ := e
  obtain rfl := operands _ _ h.reads h'.reads hops
  have hres : res = res' := by
    rw [show res = _ from h.results_eq, show res' = _ from h'.results_eq, ety]
  have hregions : regions = regions' := h.bare.trans h'.bare.symm
  rw [hres, hregions]

/-- Recipes that only read what exists are the same if they create the same operations. -/
theorem Recipe.eq_of_addRecipe (hc : Graph.Consistent g gone) (h : r.Fine g.HasValue)
    (h' : r'.Fine g.HasValue) (e : g.addRecipe r = g.addRecipe r') : r = r' := by
  obtain ⟨g₁, hrun, hg, -⟩ := Graph.addRecipe_created hc h
  obtain ⟨g₂, hrun', hg', -⟩ := Graph.addRecipe_created hc h'
  obtain rfl : g₁ = g₂ := congrArg Prod.fst (hrun.symm.trans (e.trans hrun'))
  -- What was created tells how many steps there were and what each of them is.
  have hlen : r.all.length = r'.all.length := by
    have := hg.opsSize.symm.trans hg'.opsSize
    omega
  have hall : r.all = r'.all := by
    refine List.ext_getElem hlen fun i hi hi' => ?_
    have hd := List.getElem?_eq_getElem hi
    have hd' := List.getElem?_eq_getElem hi'
    refine Step.eq_of_stepOperation (h i _ hd) (h' i _ hd')
      ((hg.op_new hd).symm.trans (hg'.op_new hd')) ?_
    have hv := (hg.value? ⟨g.values.size + i⟩).symm.trans (hg'.value? ⟨g.values.size + i⟩)
    have hnew : ¬ g.HasValue ⟨g.values.size + i⟩ := Graph.not_hasValue_add i
    simp only [if_neg hnew, Nat.add_sub_cancel_left, hd, hd', Option.map_some, Option.some.injEq,
      Value.mk.injEq] at hv
    exact hv.2
  obtain ⟨hsteps, hfinal⟩ := List.append_inj' hall rfl
  obtain ⟨steps, final⟩ := r
  obtain ⟨steps', final'⟩ := r'
  exact congrArg₂ Recipe.mk hsteps (List.singleton_inj.mp hfinal)

end

/-! ## Where a rule is judged -/

namespace Graph

variable {g : Graph} {gone : List OpId} {func op d : OpId} {entry : BlockId} {v old : ValueId}
  {args ans : List RtValue} {ρ : Env} {Γ : List Known} {k : OpKind}

/-- The run that the environment explains gets to the operation. -/
structure Stage (g : Graph) (gone : List OpId) (func : OpId) (entry : BlockId)
    (args ans : List RtValue) (ρ : Env) (op : OpId) : Prop where
  scene : Scene g gone func
  isEntry : g.IsEntry func entry
  explains : g.Explains entry args ans ρ
  reached : g.Reached entry op

/-- A value with its type and what is bound to it. -/
def known (g : Graph) (ρ : Env) (v : ValueId) : Known :=
  ⟨(g.value v).ty, (ρ.get? v).getD default⟩

/-- The operands of an operation, as far as they are known. -/
def knownOperands (g : Graph) (ρ : Env) (op : OpId) : List Known :=
  (g.operands op).map (g.known ρ)

theorem get?_known (h : (ρ.get? v).isSome = true) : ρ.get? v = some (g.known ρ v).value := by
  obtain ⟨x, hx⟩ := Option.isSome_iff_exists.mp h
  rw [known, hx]
  rfl

theorem holds_known (hv : g.HasValue v) (h : (ρ.get? v).isSome = true) :
    (Source.value v).Holds g ρ Γ (g.known ρ v) :=
  ⟨by rw [value?_eq_some hv]; rfl, get?_known h⟩

/-- What was computed of operands that are bound was computed from what is known of them. -/
theorem Computes.eval_known (h : g.Computes ρ op) (hold : g.results op = [old])
    (hops : ∀ w ∈ g.operands op, (Source.value w).Holds g ρ [] (g.known ρ w)) :
    (Frame.ofKnown (g.kind op) (g.attrs op) (g.knownOperands ρ op) (g.value old).ty).eval =
      .ok (g.known ρ old).value ∧ ρ.get? old = some (g.known ρ old).value := by
  obtain ⟨v, x, hv, heval, hx⟩ := h
  rw [hold, List.head?_cons, Option.some.injEq] at hv
  subst hv
  have hknown : (g.known ρ old).value = x := by rw [known, hx]; rfl
  rw [hknown]
  have halike : (g.frame ρ op).Alike
      (Frame.ofKnown (g.kind op) (g.attrs op) (g.knownOperands ρ op) (g.value old).ty) := by
    refine ⟨rfl, rfl, ?_, ?_⟩
    · change List.Forall₂ Slot.Alike (List.map _ _) (List.map _ (List.map _ _))
      rw [List.map_map, List.forall₂_map_left_iff, List.forall₂_map_right_iff]
      exact List.forall₂_same.mpr hops
    · change (g.resultTypes op).head? = _
      rw [resultTypes, hold]
      rfl
  exact ⟨Frame.eval_follows halike x heval, hx⟩

namespace Stage

variable (h : g.Stage gone func entry args ans ρ op)
include h

theorem inside : g.Inside func op := h.isEntry.holdsBlock.inside h.reached.mem

/-- What defines a value that can be read was reached before. -/
theorem through (hv : g.Visible func op v) (hd : v ∈ g.results d) :
    g.Stage gone func entry args ans ρ d := by
  have hc := h.scene.consistent
  refine ⟨h.scene, h.isEntry, h.explains, ?_⟩
  rcases hv.of_entry hc h.isEntry h.reached.mem with harg | ⟨p, hp, hres⟩
  · exact absurd hd (hc.not_mem_results_of_mem_argsOf harg)
  · obtain ⟨i, hi⟩ := List.mem_iff_getElem?.mp hd
    obtain ⟨j, hj⟩ := List.mem_iff_getElem?.mp hres
    obtain ⟨rfl, -⟩ := hc.result_unique hi hj
    refine ⟨hp.mem_left, h.reached.before _ hp, fun q hq => ?_⟩
    exact h.reached.before q (hq.trans (hc.placedOnce entry) hp)

/-- Whatever can be read is bound. -/
theorem isSome_of_visible (hv : g.Visible func op v) : (ρ.get? v).isSome = true := by
  have hc := h.scene.consistent
  rcases hv.of_entry hc h.isEntry h.reached.mem with harg | ⟨p, hp, hres⟩
  · obtain ⟨i, hi⟩ := List.mem_iff_getElem?.mp harg
    have hparam := congrArg (·[i]?) h.explains.params
    simp only [List.getElem?_map, hi, Option.map_some] at hparam
    obtain ⟨x, -, hx⟩ := Option.map_eq_some_iff.mp hparam.symm
    rw [← hx]
    rfl
  · -- An operation before this one has one result, and that is bound.
    have hstage := h.through hv hres
    obtain ⟨w, x, hw, -, hx⟩ := h.explains.steps p hstage.reached
    have hne : g.kind p ≠ .func := by
      intro hk
      obtain ⟨w', x', -, heval, -⟩ := h.explains.steps p hstage.reached
      rw [evalOp, frame, hk] at heval
      cases heval
    rw [h.scene.results_eq hstage.inside hne hstage.reached.proceeds hres, List.head?_cons,
      Option.some.injEq] at hw
    rw [hw, hx]
    rfl

theorem holds_of_visible (hv : g.Visible func op v) :
    (Source.value v).Holds g ρ Γ (g.known ρ v) :=
  holds_known (hv.hasValue h.scene.consistent) (h.isSome_of_visible hv)

/-- What is at hand can be used in a step. -/
theorem holds (hv : g.AtHand func op v) : (Source.value v).Holds g ρ Γ (g.known ρ v) :=
  h.holds_of_visible hv.visible

/-- The operation computes its value from what is known of its operands. -/
theorem eval (hold : g.results op = [old]) :
    (Frame.ofKnown (g.kind op) (g.attrs op) (g.knownOperands ρ op) (g.value old).ty).eval =
      .ok (g.known ρ old).value ∧ ρ.get? old = some (g.known ρ old).value :=
  Computes.eval_known (h.explains.steps op h.reached) hold fun _ hw =>
    h.holds_of_visible (h.scene.ordered.visible op h.inside _ hw)

end Stage

/-! ## What can be seen from an operation -/

/-- The run has been at all that can be read at the operation: that is bound, and where an
operation defines it, to what this computes. Nothing is asked of the rest of the run. -/
structure Vantage (g : Graph) (gone : List OpId) (func : OpId) (entry : BlockId) (ρ : Env)
    (op : OpId) : Prop where
  scene : Scene g gone func
  isEntry : g.IsEntry func entry
  mem : op ∈ g.opsIn entry
  bound : ∀ v, g.Visible func op v → (ρ.get? v).isSome = true
  computed : ∀ v d, g.Visible func op v → v ∈ g.results d → g.Computes ρ d

/-- A stage of a run that comes to an answer has this view. -/
theorem Stage.vantage (h : g.Stage gone func entry args ans ρ op) :
    g.Vantage gone func entry ρ op where
  scene := h.scene
  isEntry := h.isEntry
  mem := h.reached.mem
  bound _ := h.isSome_of_visible
  computed _ d hv hd := h.explains.steps d (h.through hv hd).reached

namespace Vantage

variable (h : g.Vantage gone func entry ρ op)
include h

theorem inside : g.Inside func op := h.isEntry.holdsBlock.inside h.mem

/-- What is at hand can be used in a step. -/
theorem holds (hv : g.AtHand func op v) : (Source.value v).Holds g ρ Γ (g.known ρ v) :=
  holds_known (hv.visible.hasValue h.scene.consistent) (h.bound v hv.visible)

/-- From where a value is defined that can be read, no more can be seen. -/
theorem through (hv : g.Visible func op v) (hd : v ∈ g.results d) :
    g.Vantage gone func entry ρ d := by
  have hc := h.scene.consistent
  rcases hv.of_entry hc h.isEntry h.mem with harg | ⟨p, hp, hres⟩
  · exact absurd hd (hc.not_mem_results_of_mem_argsOf harg)
  · obtain ⟨i, hi⟩ := List.mem_iff_getElem?.mp hd
    obtain ⟨j, hj⟩ := List.mem_iff_getElem?.mp hres
    obtain ⟨rfl, -⟩ := hc.result_unique hi hj
    exact ⟨h.scene, h.isEntry, hp.mem_left, fun w hw => h.bound w (hw.later hc hp),
      fun w e hw he => h.computed w e (hw.later hc hp) he⟩

/-- What defines a value that can be read has computed it from what is known. -/
theorem eval (hv : g.Visible func op v) (hold : g.results d = [v]) :
    (Frame.ofKnown (g.kind d) (g.attrs d) (g.knownOperands ρ d) (g.value v).ty).eval =
      .ok (g.known ρ v).value := by
  have hd : v ∈ g.results d := by simp [hold]
  have hdef := h.through hv hd
  refine (Computes.eval_known (h.computed v d hv hd) hold fun w hw => ?_).1
  have hvis := h.scene.ordered.visible d hdef.inside w hw
  exact holds_known (hvis.hasValue h.scene.consistent) (hdef.bound w hvis)

end Vantage

/-- An operation whose operands are bound to known values computes from them. -/
theorem evalOp_of_known {ks : List Known} {ty : Ty} {x : RtValue}
    (hops : List.Forall₂ (fun v k => Source.Holds g ρ [] (.value v) k) (g.operands op) ks)
    (hold : g.results op = [old]) (hty : (g.value old).ty = ty)
    (heval : (Frame.ofKnown (g.kind op) (g.attrs op) ks ty).eval = .ok x) :
    g.evalOp ρ op = .ok x := by
  have halike : (Frame.ofKnown (g.kind op) (g.attrs op) ks ty).Alike (g.frame ρ op) := by
    refine ⟨rfl, rfl, ?_, ?_⟩
    · change List.Forall₂ Slot.Alike (List.map _ _) (List.map _ _)
      rw [List.forall₂_map_left_iff, List.forall₂_map_right_iff]
      exact (List.Forall₂.flip hops).imp fun k v hk => ⟨hk.1.symm, hk.2.symm⟩
    · change some ty = (g.resultTypes op).head?
      rw [resultTypes, hold, ← hty]
      rfl
  exact Frame.eval_follows halike x heval

/-- A value that has a type is there, with this type. -/
theorem map_ty_of_valueTy {ty : Ty} (h : g.valueTy v = .ok ty) :
    (g.value? v).map Value.ty = some ty := by
  rw [valueTy, lookup] at h
  cases hx : g.value? v with
  | none =>
    rw [hx] at h
    cases h
  | some x =>
    rw [hx] at h
    exact congrArg some (Except.ok.inj h)

theorem ty_of_map_ty {ty : Ty} (h : (g.value? v).map Value.ty = some ty) :
    (g.value v).ty = ty := by
  obtain ⟨record, hrecord, rfl⟩ := Option.map_eq_some_iff.mp h
  rw [value, hrecord]
  rfl

/-- A run has one explanation: two environments that explain answers to the same arguments
agree on all that was computed on the way. -/
theorem Explains.unique {ρ' : Env} {ans' : List RtValue} (h : Scene g gone func)
    (hentry : g.IsEntry func entry) (hρ : g.Explains entry args ans ρ)
    (hρ' : g.Explains entry args ans' ρ') (n : Nat) : ∀ pre o post, pre.length = n →
      g.opsIn entry = pre ++ o :: post → g.Reached entry o →
      ∀ v ∈ g.results o, ρ.get? v = ρ'.get? v := by
  -- The induction is on how many operations stand before.
  induction n using Nat.strong_induction_on with
  | _ n ih =>
    intro pre o post hlen hl hreached v hv
    have hstage : g.Stage gone func entry args ans ρ o := ⟨h, hentry, hρ, hreached⟩
    have hread : ∀ w ∈ g.operands o, ρ.get? w = ρ'.get? w := by
      intro w hw
      rcases operand_cases h.consistent h.ordered hentry hl hw with harg | ⟨p, hp, hres⟩
      · exact List.map_inj_left.mp (hρ.params.trans hρ'.params.symm) w harg
      · obtain ⟨pre', post', rfl⟩ := List.append_of_mem hp
        have hp' := (hstage.through (h.ordered.visible o hstage.inside w hw) hres).reached
        refine ih pre'.length ?_ pre' p (post' ++ o :: post) rfl (by rw [hl]; simp) hp' w hres
        rw [← hlen, List.length_append, List.length_cons]
        omega
    obtain ⟨u, x, hu, hx, hbind⟩ := hρ.steps o hreached
    obtain ⟨u', x', hu', hx', hbind'⟩ := hρ'.steps o hreached
    obtain rfl := Option.some.inj (hu.symm.trans hu')
    rw [evalOp_congr hread, hx'] at hx
    obtain rfl := Except.ok.inj hx
    have hne : g.kind o ≠ .func := by
      intro hk
      rw [evalOp, frame, hk] at hx'
      cases hx'
    rw [h.results_eq hstage.inside hne hreached.proceeds hv, List.head?_cons,
      Option.some.injEq] at hu
    rw [hu, hbind, hbind']

end Graph

/-! ## Decisions and rules -/

/-- A rewrite that is decided on computes the value; other decisions change nothing. -/
def Decision.Computes (g : Graph) (ρ : Env) (k : Known) : Decision → Prop
  | rewrite r => r.Evaluates g ρ k
  | _ => True

/-- Whatever recipe the rule asks for at the operation computes the value. -/
def Rule.ComputesAt (rule : Rule) (g : Graph) (op : OpId) (ρ : Env) (k : Known) : Prop :=
  ∀ sizes sizes' r, r.Fine g.HasValue →
    rule.run g op sizes = .ok ((g.addRecipe r).1, sizes', .matched (g.addRecipe r).2) →
    r.Evaluates g ρ k

section

variable {g : Graph} {gone : List OpId} {op : OpId} {ρ : Env} {k : Known} {name : String}
  {roots : List OpKind}

theorem Rule.run_ofDecision {look : Graph → OpId → Except Fault Decision} {decision : Decision}
    (hlook : look g op = .ok decision) (sizes : AccessSizes) :
    (Rule.ofDecision name roots look).run g op sizes =
      .ok ((decision.perform g).1, sizes, (decision.perform g).2) := by
  simp only [Rule.ofDecision, Rule.ofSizedDecision, hlook, bind, Except.bind]
  rfl

theorem Rule.run_of_decline {look : Graph → OpId → Except Fault Decision}
    (hlook : look g op = .ok .decline) (sizes : AccessSizes) :
    (Rule.ofDecision name roots look).run g op sizes = .ok (g, sizes, .declined) :=
  Rule.run_ofDecision hlook sizes

/-- The recipe that a rule which works by recipe has put in place is the one it decided on. -/
theorem Rule.recipe_of_run {look : Graph → OpId → Except Fault Decision} {r r' : Recipe}
    {sizes sizes' : AccessSizes} (hc : Graph.Consistent g gone)
    (hlook : look g op = .ok (.rewrite r')) (hr' : r'.Fine g.HasValue) (hr : r.Fine g.HasValue)
    (hrun : (Rule.ofDecision name roots look).run g op sizes =
      .ok ((g.addRecipe r).1, sizes', .matched (g.addRecipe r).2)) : r = r' := by
  rw [Rule.run_ofDecision hlook, Except.ok.injEq, Prod.mk.injEq, Prod.mk.injEq] at hrun
  obtain ⟨hgraph, -, hmatched⟩ := hrun
  have hedits : (g.addRecipe r').2 = (g.addRecipe r).2 := Outcome.matched.inj hmatched
  exact Recipe.eq_of_addRecipe hc hr hr' (Prod.ext hgraph hedits).symm

/-- A rule that works by recipe computes the value if its decisions do. One that overflows
decides on nothing. -/
theorem Rule.ComputesAt.ofDecision {look : Graph → OpId → Except Fault Decision}
    (hc : Graph.Consistent g gone)
    (h : YieldsUnless (fun _ => True) (look g op) (Decision.Computes g ρ k)) :
    (Rule.ofDecision name roots look).ComputesAt g op ρ k := by
  intro sizes sizes' r hr hrun
  rcases h with ⟨decision, hlook, hdec⟩ | ⟨e, -, hlook⟩
  swap
  · simp only [Rule.ofDecision, Rule.ofSizedDecision, hlook, bind, Except.bind] at hrun
    cases hrun
  cases decision with
  | rewrite r' =>
    rw [Rule.recipe_of_run hc hlook hdec.fine hr hrun]
    exact hdec
  | _ =>
    rw [Rule.run_ofDecision hlook] at hrun
    cases (Prod.mk.inj (Prod.mk.inj (Except.ok.inj hrun)).2).2

end

end SimdLowering
