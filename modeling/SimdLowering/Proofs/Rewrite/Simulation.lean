/-
A rewrite that computes the same value does not show in a run.

A recipe is evaluated before it is put anywhere: each of its steps, from values of the graph
and from the values of the steps before it. That is `Evaluates`, and the context it threads
through the steps holds one type and one value for each. If the last step comes out with
the value that the operation had, then an environment that explains an answer can be
extended so that it explains the same answer of the spliced graph: the new values are bound
to what the recipe evaluates to, and all others keep what they are bound to.

An operation that the run does not get to may be replaced by anything. What stands for its
result is then bound to what its result was bound to, which is most often nothing.
-/
import SimdLowering.Proofs.Eval.Instructions
import SimdLowering.Proofs.Eval.Naming
import SimdLowering.Proofs.Eval.Traces
import SimdLowering.Proofs.Rewrite.Lawful

set_option autoImplicit false

namespace SimdLowering

/-! ## Evaluating a recipe -/

/-- What the operand of a step holds, after steps with the given results. -/
def Source.Holds (g : Graph) (ρ : Env) (Γ : List Known) : Source → Known → Prop
  | value v, k => (g.value? v).map Value.ty = some k.ty ∧ ρ.get? v = some k.value
  | step i, k => Γ[i]? = some k

/-- The step evaluates to a value of the type of its result, after steps with the given
results. -/
structure Evaluates (g : Graph) (ρ : Env) (Γ : List Known) (d : Step) (k : Known) : Prop where
  result : d.results = [k.ty]
  bare : d.regions = []
  eval : ∃ ks, List.Forall₂ (Source.Holds g ρ Γ) d.operands ks ∧
    (Frame.ofKnown d.kind d.attrs ks k.ty).eval = .ok k.value

/-- The steps of the recipe evaluate one after the other, to the given values and the last one
to the value after them. -/
def Recipe.EvaluatesBy (g : Graph) (ρ : Env) (r : Recipe) (Γ : List Known) (k : Known) : Prop :=
  Threads (SimdLowering.Evaluates g ρ) [] r.steps Γ ∧ SimdLowering.Evaluates g ρ Γ r.final k

/-- The steps of the recipe evaluate one after the other, and the last one to the given
value. -/
def Recipe.Evaluates (g : Graph) (ρ : Env) (r : Recipe) (k : Known) : Prop :=
  ∃ Γ, r.EvaluatesBy g ρ Γ k

section

variable {g : Graph} {ρ : Env} {Γ Δ : List Known} {d : Step} {s : Source} {k k' : Known}
  {r : Recipe}

/-- What a source holds it holds after one more step. -/
theorem Source.Holds.snoc (h : s.Holds g ρ Γ k) : s.Holds g ρ (Γ ++ [k']) k := by
  cases s with
  | value v => exact h
  | step i =>
    have hi : i < Γ.length := (List.getElem?_eq_some_iff.mp h).1
    change (Γ ++ [k'])[i]? = some k
    rw [List.getElem?_append_left hi]
    exact h

/-- The last step is read by its number. -/
theorem Source.Holds.last : Source.Holds g ρ (Γ ++ [k]) (.step Γ.length) k := by
  change (Γ ++ [k])[Γ.length]? = some k
  simp

/-- A step that evaluates reads what is there. -/
theorem Evaluates.fine (h : Evaluates g ρ Γ d k) : StepFine g.HasValue Γ.length d := by
  obtain ⟨ks, hks, -⟩ := h.eval
  refine ⟨⟨k.ty, h.result⟩, h.bare, fun s hs => ?_⟩
  obtain ⟨i, hi, rfl⟩ := List.mem_iff_getElem.mp hs
  have hlen := hks.length_eq
  have hold := (List.forall₂_iff_get.mp hks).2 i hi (hlen ▸ hi)
  rw [List.get_eq_getElem] at hold
  generalize d.operands[i] = s at hold ⊢
  cases s with
  | value v =>
    refine Graph.value?_isSome_iff.mp ?_
    rw [← Option.isSome_map (f := Value.ty), hold.1]
    rfl
  | step j => exact (List.getElem?_eq_some_iff.mp hold).1

/-- And is no return. -/
theorem Evaluates.kind_ne_ret (h : Evaluates g ρ Γ d k) : d.kind ≠ .ret := by
  obtain ⟨ks, -, heval⟩ := h.eval
  intro hk
  rw [hk] at heval
  cases heval

/-- All steps with their results, the last one included. -/
theorem Recipe.EvaluatesBy.all (h : r.EvaluatesBy g ρ Γ k) :
    Γ.length = r.steps.length ∧ ∀ i d, r.all[i]? = some d →
      ∃ y, (Γ ++ [k])[i]? = some y ∧ SimdLowering.Evaluates g ρ ((Γ ++ [k]).take i) d y := by
  obtain ⟨ht, hfinal⟩ := h
  have hlen : Γ.length = r.steps.length := by simpa using ht.length
  refine ⟨hlen, fun i d hd => ?_⟩
  rcases Recipe.getElem?_all_eq_some.mp hd with hd | ⟨rfl, rfl⟩
  · have hi : i < r.steps.length := (List.getElem?_eq_some_iff.mp hd).1
    obtain ⟨y, hy, he⟩ := ht.getElem? hd
    simp only [List.length_nil, Nat.zero_add] at hy he
    refine ⟨y, ?_, ?_⟩
    · rw [List.getElem?_append_left (by omega)]
      exact hy
    · rw [List.take_append_of_le_length (by omega)]
      exact he
  · rw [← hlen]
    exact ⟨k, by simp, by simpa using hfinal⟩

/-- So does a recipe. -/
theorem Recipe.Evaluates.fine (h : r.Evaluates g ρ k) : r.Fine g.HasValue := by
  obtain ⟨Γ, h⟩ := h
  obtain ⟨hlen, hall⟩ := h.all
  intro i d hd
  obtain ⟨y, hy, he⟩ := hall i d hd
  have hi : i < (Γ ++ [k]).length := (List.getElem?_eq_some_iff.mp hy).1
  have := he.fine
  rwa [List.length_take, Nat.min_eq_left (Nat.le_of_lt hi)] at this

/-- Plans are evaluated step by step. -/
theorem Recipe.Evaluates.of_makes {p : Plan Step}
    (h : p.Makes (SimdLowering.Evaluates g ρ) [] fun Γ d => SimdLowering.Evaluates g ρ Γ d k) :
    p.toRecipe.Evaluates g ρ k := h.toRecipe

end

namespace Graph

variable {g g' : Graph} {gone : List OpId} {func o op : OpId} {entry b : BlockId}
  {v w old : ValueId} {r : Recipe} {ρ ρ' : Env} {args ans : List RtValue} {k : Known}

/-! ## Extending an environment -/

/-- The new values are bound to what the recipe evaluates to, and the one that stands for
the old result to what that was bound to. -/
def extendEnv (g : Graph) (ρ : Env) (old : ValueId) (r : Recipe) (Γ : List Known) : Env :=
  ⟨fun v =>
    if v.index < g.values.size then ρ.get? v
    else if v = g.standIn r then ρ.get? old
    else Γ[v.index - g.values.size]?.map Known.value⟩

/-- What was bound stays bound. -/
theorem extendEnv_of_hasValue (hv : g.HasValue v) (Γ : List Known) :
    (g.extendEnv ρ old r Γ).get? v = ρ.get? v := if_pos hv

/-- The stand-in holds what the old result held. -/
theorem extendEnv_standIn (Γ : List Known) :
    (g.extendEnv ρ old r Γ).get? (g.standIn r) = ρ.get? old := by
  unfold extendEnv
  dsimp only
  rw [if_neg (by simp [standIn]), if_pos rfl]

/-- And what the steps give is bound as well. -/
theorem extendEnv_new {Γ : List Known} {i : Nat} (hi : i < r.steps.length) :
    (g.extendEnv ρ old r Γ).get? ⟨g.values.size + i⟩ = Γ[i]?.map Known.value := by
  unfold extendEnv
  dsimp only
  rw [if_neg (by simp), if_neg, Nat.add_sub_cancel_left]
  intro h
  simp only [standIn, ValueId.mk.injEq] at h
  omega

/-- So by its new name each value is what it was. -/
theorem extendEnv_renamed (hv : g.HasValue v) (Γ : List Known) :
    (g.extendEnv ρ old r Γ).get? (renamed old (g.standIn r) v) = ρ.get? v := by
  unfold renamed
  split
  · next e => rw [e, extendEnv_standIn]
  · exact extendEnv_of_hasValue hv Γ

/-! ## What is kept -/

section

variable (hs : Spliced g g' gone op b old r) (hty : (g'.value (g.standIn r)).ty = (g.value old).ty)
include hs

include hty

/-- And of the type that it was. -/
theorem Spliced.ty_renamed (hv : g.HasValue v) :
    (g'.value? (renamed old (g.standIn r) v)).map Value.ty = (g.value? v).map Value.ty := by
  unfold renamed
  split
  · next e =>
    have hstand : g'.HasValue (g.standIn r) := by
      rw [HasValue, hs.valuesSize, standIn, r.length_all]
      exact Nat.add_lt_add_left (Nat.lt_succ_self _) _
    rw [value?_eq_some hstand, value?_eq_some hv, Option.map_some, Option.map_some, hty, e]
  · rw [hs.value?_of_hasValue hv]

/-- An operation that stays evaluates to what it evaluated to. -/
theorem Spliced.evalOp_kept {x : RtValue} {Γ : List Known} (ho : g.HasOp o)
    (hlive : o ∈ gone → g.operands o = []) (hread : ∀ v ∈ g.operands o, g.HasValue v)
    (he : g.evalOp ρ o = .ok x) : g'.evalOp (g.extendEnv ρ old r Γ) o = .ok x := by
  refine Frame.eval_follows ⟨?_, ?_, ?_, ?_⟩ x he
  · exact (hs.kind_of_hasOp ho).symm
  · exact (hs.attrs_of_hasOp ho).symm
  · change List.Forall₂ Slot.Alike (List.map _ _) (List.map _ _)
    rw [hs.operands_of_hasOp ho, List.map_map, List.forall₂_map_left_iff,
      List.forall₂_map_right_iff]
    refine List.forall₂_same.mpr fun v hv => ?_
    have hname : readAs gone old (g.standIn r) o v = renamed old (g.standIn r) v := by
      refine if_neg fun hgone => ?_
      rw [hlive hgone] at hv
      cases hv
    refine ⟨?_, ?_⟩
    · change _ = (g'.value? (readAs gone old (g.standIn r) o v)).map Value.ty
      rw [hname, hs.ty_renamed hty (hread v hv)]
    · change _ = (g.extendEnv ρ old r Γ).get? (readAs gone old (g.standIn r) o v)
      rw [hname, extendEnv_renamed (hread v hv)]
  · exact congrArg List.head? (hs.resultTypes_of_hasOp ho).symm

/-- A step of the recipe evaluates, in its place, to what it evaluated to before. -/
theorem Spliced.evalOp_made {Γ : List Known} {i : Nat} {d : Step} {y : Known}
    (hΓ : Γ.length = r.steps.length)
    (hall : ∀ i d, r.all[i]? = some d → ∃ y, (Γ ++ [k])[i]? = some y ∧
      SimdLowering.Evaluates g ρ ((Γ ++ [k]).take i) d y)
    (hd : r.all[i]? = some d) (he : SimdLowering.Evaluates g ρ ((Γ ++ [k]).take i) d y) :
    g'.evalOp (g.extendEnv ρ old r Γ) ⟨g.ops.size + i⟩ = .ok y.value := by
  -- The operation computes what the step does, slot by slot.
  obtain ⟨ks, hks, heval⟩ := he.eval
  refine Frame.eval_follows ⟨?_, ?_, ?_, ?_⟩ _ heval
  · exact (hs.kind_made hd).symm
  · exact (hs.attrs_made hd).symm
  · change List.Forall₂ Slot.Alike (List.map _ _) (List.map _ _)
    rw [hs.operands_made hd, List.map_map, List.map_map, List.forall₂_map_left_iff,
      List.forall₂_map_right_iff]
    refine (List.Forall₂.flip hks).imp fun k' s hold => ?_
    cases s with
    -- A value is read by its new name, under which it is bound to what it was.
    | value v =>
      have hv : g.HasValue v := by
        refine value?_isSome_iff.mp ?_
        rw [← Option.isSome_map (f := Value.ty), hold.1]
        rfl
      refine ⟨?_, ?_⟩
      · change some k'.ty = (g'.value? (renamed old (g.standIn r) v)).map Value.ty
        rw [hs.ty_renamed hty hv, hold.1]
      · change some k'.value = (g.extendEnv ρ old r Γ).get? (renamed old (g.standIn r) v)
        rw [extendEnv_renamed hv, hold.2]
    -- The result of an earlier step is a new value, which no renaming touches.
    | step j =>
      have hj : ((Γ ++ [k]).take i)[j]? = some k' := hold
      rw [List.getElem?_take] at hj
      split at hj
      · next hji =>
        have hi : i < r.all.length := (List.getElem?_eq_some_iff.mp hd).1
        rw [r.length_all] at hi
        have hj' : j < r.steps.length := by omega
        obtain ⟨e, he'⟩ : ∃ e, r.all[j]? = some e :=
          ⟨_, List.getElem?_eq_getElem (by rw [r.length_all]; omega)⟩
        obtain ⟨z, hz, hez⟩ := hall j e he'
        obtain rfl : z = k' := Option.some.inj (hz.symm.trans hj)
        have hname : renamed old (g.standIn r) ⟨g.values.size + j⟩ = ⟨g.values.size + j⟩ := by
          refine if_neg fun e => not_hasValue_add (g := g) j ?_
          rw [e]
          exact hs.hasValue_old
        refine ⟨?_, ?_⟩
        · change some z.ty = (g'.value? (renamed old (g.standIn r) ⟨g.values.size + j⟩)).map _
          rw [hname, hs.value?_made he', Option.map_some, Draft.resultType, hez.result]
          rfl
        · change some z.value = (g.extendEnv ρ old r Γ).get?
            (renamed old (g.standIn r) ⟨g.values.size + j⟩)
          rw [hname, extendEnv_new hj']
          rw [List.getElem?_append_left (by omega)] at hz
          rw [hz]
          rfl
      · cases hj
  · change some y.ty = (g'.resultTypes ⟨g.ops.size + i⟩).head?
    rw [resultTypes, hs.results_made hd, typesOf, List.map_singleton, List.head?_singleton, value,
      hs.value?_made hd]
    change some y.ty = some d.resultType
    rw [Draft.resultType, he.result]
    rfl

end

/-! ## The simulation -/

/-- The environment explains the answer, whatever is bound to what one operation gives. -/
structure ExplainsBeside (g : Graph) (op : OpId) (entry : BlockId) (args ans : List RtValue)
    (ρ : Env) : Prop where
  params : (g.argsOf entry).map ρ.get? = args.map some
  steps : ∀ o, g.Reached entry o → o ≠ op → g.Computes ρ o
  answer : ∀ o, g.Exits entry o → (g.operands o).map ρ.get? = ans.map some
  falls : (∀ o ∈ g.opsIn entry, g.kind o ≠ .ret) → ans = []

/-- What explains a whole run explains it beside any operation. -/
theorem Explains.beside (h : g.Explains entry args ans ρ) (op : OpId) :
    g.ExplainsBeside op entry args ans ρ :=
  ⟨h.params, fun o ho _ => h.steps o ho, h.answer, h.falls⟩

/-- What an operation gives may be bound to anything if nobody in the block reads it. -/
theorem Explains.rebind (h : g.Explains entry args ans ρ) (hc : Consistent g gone)
    (hold : g.results op = [old]) (hunread : ∀ o ∈ g.opsIn entry, old ∉ g.operands o)
    (x : RtValue) : g.ExplainsBeside op entry args ans (ρ.bind old x) := by
  have hres : (g.results op)[0]? = some old := by
    rw [hold]
    rfl
  -- Only `old` is bound anew, and nothing that is run reads it.
  have other : ∀ {v}, v ≠ old → (ρ.bind old x).get? v = ρ.get? v := fun hne => by
    rw [Env.get?_bind, if_neg hne]
  have hread : ∀ o ∈ g.opsIn entry, ∀ v ∈ g.operands o, (ρ.bind old x).get? v = ρ.get? v :=
    fun o ho v hv => other fun e => hunread o ho (e ▸ hv)
  refine ⟨?_, fun o ho hne => ?_, fun o ho => ?_, h.falls⟩
  · rw [← h.params]
    refine List.map_congr_left fun v hv => other ?_
    rintro rfl
    exact hc.not_mem_results_of_mem_argsOf hv (List.mem_of_getElem? hres)
  · obtain ⟨v, y, hv, hy, hbind⟩ := h.steps o ho
    refine ⟨v, y, hv, by rw [evalOp_congr (hread o ho.mem)]; exact hy, ?_⟩
    rw [other]
    · exact hbind
    · rintro rfl
      rw [List.head?_eq_getElem?] at hv
      exact hne (hc.result_unique hv hres).1
  · rw [← h.answer o ho]
    exact List.map_congr_left fun v hv => hread o ho.mem v hv

section

variable (hs : Spliced g g' gone op b old r) (h : Scene g gone func)
  (hentry : g.IsEntry func entry) (hret : g.kind op ≠ .ret)
include hs h hentry

/-- What comes before is of the kind that it was. -/
theorem Spliced.kind_of_precedes {p : OpId} (hp : Precedes (g.opsIn entry) p o) :
    g'.kind p = g.kind p :=
  hs.kind_of_hasOp ((hentry.holdsBlock.inside hp.mem_left).hasOp h.consistent.toNestingAgrees)

include hret

/-- If no return comes before an operation that stays, none came before it. -/
theorem Spliced.before_kept (hne : o ≠ op)
    (hbefore : ∀ p, Precedes (g'.opsIn entry) p o → g'.kind p ≠ .ret) :
    ∀ p, Precedes (g.opsIn entry) p o → g.kind p ≠ .ret := by
  intro p hp hk
  have hpne : p ≠ op := by
    rintro rfl
    exact hret hk
  refine hbefore p ((hs.precedes_of_ne hne hp).1 hpne) ?_
  rw [hs.kind_of_precedes h hentry hp, hk]

/-- If no return comes before a new operation, none came before the one it stands for. -/
theorem Spliced.before_made {n : OpId} (hn : n ∈ g.nextOps r.all.length)
    (hb : g.blockOf? op = some entry) (hn' : n ∈ g'.opsIn entry)
    (hbefore : ∀ p, Precedes (g'.opsIn entry) p n → g'.kind p ≠ .ret) : g.Reached entry op := by
  obtain rfl := (hs.mem_opsIn_made hn).mp hn'
  refine ⟨(h.consistent.places op entry).mpr hb, hret, fun p hp hk => ?_⟩
  refine hbefore p (hs.precedes_made hp hn) ?_
  rw [hs.kind_of_precedes h hentry hp, hk]

/-- If what explained an answer beside the operation also evaluates the recipe, its extension to
the new operations explains the same answer of the spliced graph. -/
theorem Spliced.explains_extendEnv {Γ : List Known} (hρ : g.ExplainsBeside op entry args ans ρ)
    (hty : (g'.value (g.standIn r)).ty = (g.value old).ty)
    (hsame : g.Reached entry op → ∃ x, ρ.get? old = some x ∧
      r.EvaluatesBy g ρ Γ ⟨(g.value old).ty, x⟩) :
    g'.Explains entry args ans (g.extendEnv ρ old r Γ) := by
  have hmade : g.Reached entry op → ∀ i d, r.all[i]? = some d →
      d.kind ≠ .ret ∧ ∃ y, g'.evalOp (g.extendEnv ρ old r Γ) ⟨g.ops.size + i⟩ = .ok y ∧
        (g.extendEnv ρ old r Γ).get? ⟨g.values.size + i⟩ = some y := by
    intro hreached i d hd
    obtain ⟨x, hx, heval⟩ := hsame hreached
    obtain ⟨hlen, hall⟩ := heval.all
    obtain ⟨y, hy, he⟩ := hall i d hd
    refine ⟨he.kind_ne_ret, y.value, hs.evalOp_made hty hlen hall hd he, ?_⟩
    have hi : i < r.all.length := (List.getElem?_eq_some_iff.mp hd).1
    rw [r.length_all] at hi
    by_cases hlast : i = r.steps.length
    · subst hlast
      rw [← hlen, List.getElem?_concat_length] at hy
      obtain rfl := Option.some.inj hy
      exact (extendEnv_standIn Γ).trans hx
    · rw [extendEnv_new (by omega)]
      rw [List.getElem?_append_left (by omega)] at hy
      rw [hy]
      rfl
  refine ⟨?_, fun o ho => ?_, fun o ho => ?_, fun hall => ?_⟩
  · rw [hs.argsOf, ← hρ.params]
    refine List.map_congr_left fun v hv => extendEnv_of_hasValue ?_ Γ
    obtain ⟨i, hi⟩ := List.mem_iff_getElem?.mp hv
    exact hasValue_of_originOf? ((h.consistent.takes entry i v).mp hi)
  · rcases hs.mem_opsIn.mp ho.mem with ⟨hmem, hne⟩ | ⟨hn, rfl⟩
    · have hin := hentry.holdsBlock.inside hmem
      have hop := hin.hasOp h.consistent.toNestingAgrees
      have hreached : g.Reached entry o := ⟨hmem, by rw [← hs.kind_of_hasOp hop]; exact ho.proceeds,
        hs.before_kept h hentry hret hne ho.before⟩
      obtain ⟨v, x, hv, hx, hbind⟩ := hρ.steps o hreached hne
      refine ⟨v, x, by rw [hs.results_of_hasOp hop]; exact hv, ?_, ?_⟩
      · exact hs.evalOp_kept hty hop (h.ordered.live o hin)
          (fun w hw => h.ordered.hasValue_of_mem_operands h.consistent hin hw) hx
      · rw [extendEnv_of_hasValue (hs.before.hasValue_of_mem_results (List.mem_of_mem_head? hv))]
        exact hbind
    · have hreached := hs.before_made h hentry hret hn hs.placed ho.mem ho.before
      obtain ⟨i, d, hd, rfl⟩ := mem_nextOps_all.mp hn
      obtain ⟨-, y, he, hbind⟩ := hmade hreached i d hd
      exact ⟨_, y, by rw [hs.results_made hd]; rfl, he, hbind⟩
  · -- The first return is the one it was, and reads the same under new names.
    rcases hs.mem_opsIn.mp ho.mem with ⟨hmem, hne⟩ | ⟨hn, rfl⟩
    · have hin := hentry.holdsBlock.inside hmem
      have hop := hin.hasOp h.consistent.toNestingAgrees
      rw [hs.operands_of_hasOp hop, List.map_map, ← hρ.answer o ⟨hmem,
        by rw [← hs.kind_of_hasOp hop]; exact ho.kind, hs.before_kept h hentry hret hne ho.before⟩]
      refine List.map_congr_left fun v hv => ?_
      have hlive : o ∉ gone := fun hgone => by
        rw [h.ordered.live o hin hgone] at hv
        cases hv
      rw [Function.comp_apply, readAs, if_neg hlive]
      exact extendEnv_renamed (h.ordered.hasValue_of_mem_operands h.consistent hin hv) Γ
    · have hreached := hs.before_made h hentry hret hn hs.placed ho.mem ho.before
      obtain ⟨i, d, hd, rfl⟩ := mem_nextOps_all.mp hn
      exact absurd ((hs.kind_made hd).symm.trans ho.kind) (hmade hreached i d hd).1
  · refine hρ.falls fun o ho hk => ?_
    have hne : o ≠ op := by
      rintro rfl
      exact hret hk
    have hop := (hentry.holdsBlock.inside ho).hasOp h.consistent.toNestingAgrees
    refine hall o ((hs.mem_opsIn_of_ne hop hne).mpr ho) ?_
    rw [hs.kind_of_hasOp hop, hk]

/-- If what explained an answer can be extended to the new operations, it explains the
same answer of the spliced graph. -/
theorem Spliced.explains (hρ : g.Explains entry args ans ρ)
    (hty : (g'.value (g.standIn r)).ty = (g.value old).ty)
    (hsame : g.Reached entry op → ∃ x, ρ.get? old = some x ∧
      r.Evaluates g ρ ⟨(g.value old).ty, x⟩) :
    ∃ ρ', g'.Explains entry args ans ρ' ∧ (∀ v, g.HasValue v → ρ'.get? v = ρ.get? v) ∧
      ρ'.get? (g.standIn r) = ρ.get? old := by
  -- One environment serves both cases; where the operation is not reached, nothing is known.
  obtain ⟨Γ, hΓ⟩ : ∃ Γ : List Known, g.Reached entry op → ∃ x, ρ.get? old = some x ∧
      r.EvaluatesBy g ρ Γ ⟨(g.value old).ty, x⟩ := by
    by_cases hreached : g.Reached entry op
    · obtain ⟨x, hx, Γ, hΓ⟩ := hsame hreached
      exact ⟨Γ, fun _ => ⟨x, hx, hΓ⟩⟩
    · exact ⟨[], fun hr => absurd hr hreached⟩
  exact ⟨_, hs.explains_extendEnv h hentry hret (hρ.beside op) hty hΓ,
    fun v hv => extendEnv_of_hasValue hv Γ, extendEnv_standIn Γ⟩

end

end Graph

end SimdLowering
