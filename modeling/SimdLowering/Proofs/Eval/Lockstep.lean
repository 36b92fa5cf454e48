/-
Two runs side by side.

A pass that changes a function is right when the changed function runs along with the old
one: at each operation that both have, the same values stand in the operand slots, maybe
under other names, so the same value comes out and is bound in both. What differs between
the two runs is then only what happens at the operations that the pass has touched.

The relation between the two graphs is `ReadsAlike`, one operation at a time, and the
relation between the two environments is `Agree`. Neither asks that the function be valid:
a run that returns something has looked at nothing that was not there.

A run is cut at the operation that a pass has touched. What comes before it is a run of its
own, `evalOps`, which ends with an environment and not with an answer.
-/
import SimdLowering.Proofs.Eval.Naming
import SimdLowering.Proofs.Eval.Traces

set_option autoImplicit false

namespace SimdLowering

namespace Graph

variable {g g' : Graph} {func o op : OpId} {entry : BlockId} {v w : ValueId} {l l' m : List OpId}
  {env env' e : Env} {x : RtValue} {args r : List RtValue} {ren : ValueId → ValueId}
  {P : ValueId → Prop}

/-! ## Evaluating a part of a block -/

/-- Evaluate operations in order and bind their results. A return has no value, so it cannot
be among them. -/
def evalOps (g : Graph) : List OpId → Env → Except EvalError Env
  | [], env => .ok env
  | op :: ops, env =>
    match g.evalOp env op with
    | .error e => .error e
    | .ok x =>
      match g.results op with
      | [] => .error .broken
      | v :: _ => g.evalOps ops (env.bind v x)

theorem kind_ne_ret_of_evalOp (h : g.evalOp env o = .ok x) : g.kind o ≠ .ret := by
  intro hk
  have hframe : (g.frame env o).kind = .ret := hk
  rw [evalOp, Frame.eval, hframe] at h
  cases h

/-- What comes first evaluates, and the result is bound. -/
theorem evalOps_cons_eq_ok : g.evalOps (o :: l) env = .ok e ↔
    ∃ x v vs, g.evalOp env o = .ok x ∧ g.results o = v :: vs ∧
      g.evalOps l (env.bind v x) = .ok e := by
  rw [evalOps]
  constructor
  · intro h
    split at h
    · cases h
    next x hx =>
    split at h
    · cases h
    next v vs hv => exact ⟨x, v, vs, hx, hv, h⟩
  · rintro ⟨x, v, vs, hx, hv, h⟩
    rw [hx, hv]
    exact h

/-- The same for a run to the end. -/
theorem runOps_cons_eq_ok (hk : g.kind o ≠ .ret) : (g.runOps (o :: l) env).2 = .ok r ↔
    ∃ x v vs, g.evalOp env o = .ok x ∧ g.results o = v :: vs ∧
      (g.runOps l (env.bind v x)).2 = .ok r := by
  rw [runOps, if_neg hk]
  constructor
  · intro h
    split at h
    · cases h
    next x hx =>
    split at h
    · cases h
    next v vs hv => exact ⟨x, v, vs, hx, hv, h⟩
  · rintro ⟨x, v, vs, hx, hv, h⟩
    rw [hx, hv]
    exact h

/-- After a part that evaluates, the run goes on with the environment the part left. -/
theorem runOps_append (h : g.evalOps l env = .ok e) : g.runOps (l ++ m) env = g.runOps m e := by
  induction l generalizing env with
  | nil =>
    cases h
    rfl
  | cons o l ih =>
    obtain ⟨x, v, vs, hx, hv, h⟩ := evalOps_cons_eq_ok.mp h
    rw [List.cons_append, runOps, if_neg (kind_ne_ret_of_evalOp hx), hx, hv]
    exact ih h

/-- Evaluation binds results, and nothing else. -/
theorem get?_of_evalOps (h : g.evalOps l env = .ok e) (hv : ∀ o ∈ l, v ∉ g.results o) :
    e.get? v = env.get? v := by
  induction l generalizing env with
  | nil =>
    cases h
    rfl
  | cons o l ih =>
    obtain ⟨x, w, ws, -, hw, h⟩ := evalOps_cons_eq_ok.mp h
    rw [ih h fun p hp => hv p (List.mem_cons_of_mem _ hp), Env.get?_bind, if_neg]
    rintro rfl
    exact hv o (List.mem_cons_self ..) (by simp [hw])

/-- Evaluation of one part after another. -/
theorem evalOps_append (h : g.evalOps l env = .ok e) : g.evalOps (l ++ m) env = g.evalOps m e := by
  induction l generalizing env with
  | nil =>
    cases h
    rfl
  | cons o l ih =>
    obtain ⟨x, v, vs, hx, hv, h⟩ := evalOps_cons_eq_ok.mp h
    rw [List.cons_append, evalOps, hx, hv]
    exact ih h

/-- A run returns something when the function has an entry block, gets as many arguments as
that has parameters, and the operations of the block run. -/
theorem run_eq_ok : g.run func args = .ok r ↔ ∃ entry, g.IsEntry func entry ∧
    (g.argsOf entry).length = args.length ∧
      (g.runOps (g.opsIn entry) (Env.empty.bindAll ((g.argsOf entry).zip args))).2 = .ok r := by
  rw [run, runIn]
  constructor
  · intro h
    split at h
    · cases h
    next entry hentry =>
    dsimp only at h
    split at h
    · cases h
    next hlen => exact ⟨entry, entryBlock?_eq_some.mp hentry, not_not.mp hlen, h⟩
  · rintro ⟨entry, hentry, hlen, h⟩
    rw [entryBlock?_eq_some.mpr hentry]
    dsimp only
    rw [if_neg (not_not_intro hlen)]
    exact h

/-! ## Where two runs agree -/

/-- The operation is the same in both graphs, up to the names of what it reads. -/
structure ReadsAlike (g g' : Graph) (ren : ValueId → ValueId) (o : OpId) : Prop where
  kind : g'.kind o = g.kind o
  attrs : g'.attrs o = g.attrs o
  operands : g'.operands o = (g.operands o).map ren
  results : g'.results o = g.results o
  resultTy : (g'.resultTypes o).head? = (g.resultTypes o).head?
  types : ∀ v ∈ g.operands o, (g'.value? (ren v)).map Value.ty = (g.value? v).map Value.ty

/-- What is bound to a value in one environment is bound to its new name in the other. -/
def Agree (ren : ValueId → ValueId) (P : ValueId → Prop) (env env' : Env) : Prop :=
  ∀ v, P v → env'.get? (ren v) = env.get? v

theorem ReadsAlike.evalOp (h : ReadsAlike g g' ren o)
    (henv : ∀ v ∈ g.operands o, env'.get? (ren v) = env.get? v) :
    Follows (g.evalOp env o) (g'.evalOp env' o) := by
  apply Frame.eval_follows
  refine ⟨h.kind.symm, h.attrs.symm, ?_, h.resultTy.symm⟩
  simp only [frame, h.operands, List.map_map, List.forall₂_map_left_iff,
    List.forall₂_map_right_iff]
  apply List.forall₂_same.mpr
  intro v hv
  exact ⟨(h.types v hv).symm, (henv v hv).symm⟩

/-- Binding the same value on both sides keeps the agreement, if nothing else goes by the
name that is bound. -/
theorem Agree.bind (h : Agree ren P env env') (hren : ∀ w, P w → (ren w = v ↔ w = v))
    (x : RtValue) : Agree ren P (env.bind v x) (env'.bind v x) := by
  intro w hw
  simp only [Env.get?_bind, hren w hw]
  split
  · rfl
  · exact h w hw

section

variable (hsame : ∀ o ∈ l, ReadsAlike g g' ren o) (hread : ∀ o ∈ l, ∀ v ∈ g.operands o, P v)
  (hfresh : ∀ o ∈ l, ∀ v ∈ g.results o, ∀ w, P w → (ren w = v ↔ w = v))
include hsame hread hfresh

/-- Parts of a block that are alike evaluate side by side. -/
theorem evalOps_follows (henv : Agree ren P env env') (h : g.evalOps l env = .ok e) :
    ∃ e', g'.evalOps l env' = .ok e' ∧ Agree ren P e e' := by
  induction l generalizing env env' with
  | nil =>
    cases h
    exact ⟨env', rfl, henv⟩
  | cons o l ih =>
    obtain ⟨x, v, vs, hx, hv, h⟩ := evalOps_cons_eq_ok.mp h
    have ho := hsame o (List.mem_cons_self ..)
    have hx' := ho.evalOp (fun w hw => henv w (hread o (List.mem_cons_self ..) w hw)) x hx
    have hbind := henv.bind (hfresh o (List.mem_cons_self ..) v (by simp [hv])) x
    obtain ⟨e', he', hagree⟩ := ih (fun p hp => hsame p (List.mem_cons_of_mem _ hp))
      (fun p hp => hread p (List.mem_cons_of_mem _ hp))
      (fun p hp => hfresh p (List.mem_cons_of_mem _ hp)) hbind h
    exact ⟨e', evalOps_cons_eq_ok.mpr ⟨x, v, vs, hx', ho.results.trans hv, he'⟩, hagree⟩

/-- A run that returns something either gets through the first part of the block, and then both
runs do, or it returns there, and then the other run does so too, whatever comes after. -/
theorem runOps_append_follows (henv : Agree ren P env env')
    (h : (g.runOps (l ++ m) env).2 = .ok r) :
    (∃ e e', g.evalOps l env = .ok e ∧ g'.evalOps l env' = .ok e' ∧ Agree ren P e e' ∧
      (g.runOps m e).2 = .ok r) ∨
    ∀ m', (g'.runOps (l ++ m') env').2 = .ok r := by
  induction l generalizing env env' with
  | nil => exact Or.inl ⟨env, env', rfl, rfl, henv, h⟩
  | cons o l ih =>
    have ho := hsame o (List.mem_cons_self ..)
    have hmem := hread o (List.mem_cons_self ..)
    by_cases hk : g.kind o = .ret
    · -- The run ends here, and both returns read the same values.
      apply Or.inr
      intro m'
      rw [List.cons_append, runOps, if_pos hk, Env.mapM_read_eq_ok] at h
      rw [List.cons_append, runOps, if_pos (ho.kind.trans hk), ho.operands, Env.mapM_read_eq_ok,
        ← h, List.map_map]
      exact List.map_congr_left fun w hw => henv w (hmem w hw)
    · obtain ⟨x, v, vs, hx, hv, h⟩ := (runOps_cons_eq_ok hk).mp h
      have hx' := ho.evalOp (fun w hw => henv w (hmem w hw)) x hx
      have hv' := ho.results.trans hv
      have hbind := henv.bind (hfresh o (List.mem_cons_self ..) v (by simp [hv])) x
      rcases ih (fun p hp => hsame p (List.mem_cons_of_mem _ hp))
        (fun p hp => hread p (List.mem_cons_of_mem _ hp))
        (fun p hp => hfresh p (List.mem_cons_of_mem _ hp)) hbind h with
        ⟨e, e', he, he', hagree, hm⟩ | hall
      · exact Or.inl ⟨e, e', evalOps_cons_eq_ok.mpr ⟨x, v, vs, hx, hv, he⟩,
          evalOps_cons_eq_ok.mpr ⟨x, v, vs, hx', hv', he'⟩, hagree, hm⟩
      · apply Or.inr
        intro m'
        exact (runOps_cons_eq_ok (ho.kind ▸ hk)).mpr ⟨x, v, vs, hx', hv', hall m'⟩

/-- Rests of a block that are alike return the same. -/
theorem runOps_follows (henv : Agree ren P env env') :
    Follows (g.runOps l env).2 (g'.runOps l env').2 := by
  intro r h
  rw [← List.append_nil l] at h ⊢
  rcases runOps_append_follows hsame hread hfresh henv h with ⟨e, e', -, he', -, h⟩ | hall
  · rw [runOps_append he']
    exact h
  · exact hall []

end

end Graph

end SimdLowering
