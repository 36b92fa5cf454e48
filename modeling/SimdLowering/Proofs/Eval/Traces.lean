/-
A run, seen from its end.

A run binds one value after the other, and no value twice. So nothing is lost by looking at
the environment it ends with: in it, every operation that the run got to evaluates to what
is bound to its result. `Explains` says this of an environment, without any order of steps.

Both directions are proved here. A run that returns something leaves an environment that
explains it; and if an environment explains an answer, the run gives this answer, because
every operation reads only what was bound before. The second direction is what a rewrite
uses: it does not have to replay the run, it only has to explain the same answer again.
-/
import SimdLowering.Eval.Function
import SimdLowering.Proofs.Graph.Validity
import SimdLowering.Proofs.Runs
import Mathlib.Data.List.Forall2

set_option autoImplicit false

namespace SimdLowering

namespace Env

variable {env : Env} {params : List ValueId} {args : List RtValue} {v w : ValueId}

theorem get?_bindAll_of_not_mem (h : w ∉ params) :
    (env.bindAll (params.zip args)).get? w = env.get? w := by
  induction params generalizing args env with
  | nil => rfl
  | cons v params ih =>
    cases args with
    | nil => rfl
    | cons x args =>
      obtain ⟨hv, hw⟩ := not_or.mp fun hw => h (List.mem_cons.mpr hw)
      rw [List.zip_cons_cons, bindAll, List.foldl_cons]
      refine (ih hw).trans ?_
      rw [get?_bind, if_neg hv]

/-- Parameters that are bound in pairs hold the arguments. -/
theorem map_get?_bindAll (nodup : params.Nodup) (h : params.length = args.length) :
    params.map (env.bindAll (params.zip args)).get? = args.map some := by
  induction params generalizing args env with
  | nil =>
    obtain rfl := List.length_eq_zero_iff.mp h.symm
    rfl
  | cons v params ih =>
    cases args with
    | nil => cases h
    | cons x args =>
      obtain ⟨hv, hrest⟩ := List.nodup_cons.mp nodup
      rw [List.zip_cons_cons, bindAll, List.foldl_cons, List.map_cons, List.map_cons]
      congr 1
      · refine (get?_bindAll_of_not_mem hv).trans ?_
        rw [get?_bind, if_pos rfl]
      · exact ih hrest (Nat.succ.inj h)

theorem read_eq_ok {x : RtValue} : env.read v = .ok x ↔ env.get? v = some x := by
  unfold read
  cases env.get? v with
  | none =>
    constructor
    · intro h
      cases h
    · intro h
      cases h
  | some y =>
    constructor
    · intro h
      rw [Except.ok.inj h]
    · intro h
      rw [Option.some.inj h]

/-- Reading several values succeeds exactly when all of them are bound. -/
theorem mapM_read_eq_ok {vs : List ValueId} {xs : List RtValue} :
    vs.mapM env.read = .ok xs ↔ vs.map env.get? = xs.map some := by
  induction vs generalizing xs with
  | nil =>
    cases xs with
    | nil => exact ⟨fun _ => rfl, fun _ => rfl⟩
    | cons x xs =>
      constructor
      · intro h
        rw [List.mapM_nil] at h
        cases h
      · intro h
        cases h
  | cons v vs ih =>
    rw [List.mapM_cons]
    -- Both directions take the first value off and go by induction on the others.
    constructor
    · intro h
      obtain ⟨x, hx, h⟩ := bind_eq_ok.mp h
      obtain ⟨rest, hrest, h⟩ := bind_eq_ok.mp h
      cases h
      rw [List.map_cons, List.map_cons, read_eq_ok.mp hx, ih.mp hrest]
    · intro h
      cases xs with
      | nil => cases h
      | cons x xs =>
        rw [List.map_cons, List.map_cons, List.cons.injEq] at h
        rw [read_eq_ok.mpr h.1, ih.mpr h.2]
        rfl

end Env

namespace Graph

variable {g : Graph} {gone : List OpId} {func o : OpId} {entry : BlockId} {v w : ValueId}
  {env ρ : Env} {args r : List RtValue} {x : RtValue} {pre l : List OpId}

/-- The operation evaluates to what is bound to its result. -/
def Computes (g : Graph) (ρ : Env) (o : OpId) : Prop :=
  ∃ v x, (g.results o).head? = some v ∧ g.evalOp ρ o = .ok x ∧ ρ.get? v = some x

/-- No return comes before the operation in the block, and it is none itself. -/
structure Reached (g : Graph) (entry : BlockId) (o : OpId) : Prop where
  mem : o ∈ g.opsIn entry
  proceeds : g.kind o ≠ .ret
  before : ∀ p, Precedes (g.opsIn entry) p o → g.kind p ≠ .ret

/-- The operation is the first return of the block. -/
structure Exits (g : Graph) (entry : BlockId) (o : OpId) : Prop where
  mem : o ∈ g.opsIn entry
  kind : g.kind o = .ret
  before : ∀ p, Precedes (g.opsIn entry) p o → g.kind p ≠ .ret

/-- The environment explains why the block, given the arguments, returns the answer. -/
structure Explains (g : Graph) (entry : BlockId) (args r : List RtValue) (ρ : Env) : Prop where
  params : (g.argsOf entry).map ρ.get? = args.map some
  steps : ∀ o, g.Reached entry o → g.Computes ρ o
  answer : ∀ o, g.Exits entry o → (g.operands o).map ρ.get? = r.map some
  falls : (∀ o ∈ g.opsIn entry, g.kind o ≠ .ret) → r = []

/-- An operation only looks at what is bound to its operands. -/
theorem evalOp_congr (h : ∀ w ∈ g.operands o, env.get? w = ρ.get? w) :
    g.evalOp env o = g.evalOp ρ o := by
  unfold evalOp frame
  congr 2
  refine List.map_congr_left fun w hw => ?_
  rw [h w hw]

/-! ## The entry block -/

/-- The block is the entry of the function. -/
def IsEntry (g : Graph) (func : OpId) (entry : BlockId) : Prop :=
  g.kind func = .func ∧ ∃ r, (g.regionsOf func).head? = some r ∧ (g.blocksIn r).head? = some entry

theorem entryBlock?_eq_some : g.entryBlock? func = some entry ↔ g.IsEntry func entry := by
  unfold entryBlock? IsEntry
  constructor
  · intro h
    split at h
    · next hk =>
      obtain ⟨r, hr, hb⟩ := Option.bind_eq_some_iff.mp h
      exact ⟨hk, r, hr, hb⟩
    · cases h
  · rintro ⟨hk, r, hr, hb⟩
    rw [if_pos hk, hr]
    exact hb

theorem IsEntry.holdsBlock (h : g.IsEntry func entry) : g.HoldsBlock func entry := by
  obtain ⟨-, r, hr, hb⟩ := h
  exact holdsBlock_of_mem_regionsOf (List.mem_of_mem_head? hr) (List.mem_of_mem_head? hb)

theorem nodup_argsOf (hc : Consistent g gone) (b : BlockId) : (g.argsOf b).Nodup := by
  rw [List.nodup_iff_getElem?_ne_getElem?]
  intro i j hij hj he
  have hi := List.getElem?_eq_getElem (l := g.argsOf b) (Nat.lt_trans hij hj)
  have h₁ := (hc.takes b i _).mp hi
  have h₂ := (hc.takes b j _).mp (he ▸ hi)
  rw [h₁] at h₂
  cases h₂
  exact absurd hij (Nat.lt_irrefl _)

/-- What there is once an operation has been passed is its result and what there was before. -/
theorem passed_cases (hv : g.results o = [v])
    (hw : w ∈ g.argsOf entry ∨ ∃ p ∈ pre ++ [o], w ∈ g.results p) :
    w = v ∨ w ∈ g.argsOf entry ∨ ∃ p ∈ pre, w ∈ g.results p := by
  rcases hw with hw | ⟨p, hp, hw⟩
  · exact Or.inr (Or.inl hw)
  · rcases List.mem_append.mp hp with hp | hp
    · exact Or.inr (Or.inr ⟨p, hp, hw⟩)
    · rw [List.mem_singleton.mp hp, hv] at hw
      exact Or.inl (List.mem_singleton.mp hw)

/-- The run is between two parts of the entry block: it has passed no return, what it has passed
is bound, and what lies ahead is not. -/
structure Underway (g : Graph) (entry : BlockId) (pre l : List OpId) (env : Env) : Prop where
  parts : g.opsIn entry = pre ++ l
  proceeds : ∀ p ∈ pre, g.kind p ≠ .ret
  bound : ∀ w, (w ∈ g.argsOf entry ∨ ∃ p ∈ pre, w ∈ g.results p) → (env.get? w).isSome
  fresh : ∀ p ∈ l, ∀ w ∈ g.results p, env.get? w = none

/-- What is bound is not bound again. -/
theorem Underway.kept (h : g.Underway entry pre (o :: l) env) (hv : g.results o = [v])
    {y : RtValue} (hw : env.get? w = some y) : (env.bind v x).get? w = some y := by
  have hnone : env.get? v = none := by
    refine h.fresh o (List.mem_cons_self ..) v ?_
    rw [hv]
    exact List.mem_singleton_self v
  rw [Env.get?_bind, if_neg]
  · exact hw
  · rintro rfl
    rw [hnone] at hw
    cases hw

theorem Underway.bind (hc : Consistent g gone) (h : g.Underway entry pre (o :: l) env)
    (hret : g.kind o ≠ .ret) (hv : g.results o = [v]) (x : RtValue) :
    g.Underway entry (pre ++ [o]) l (env.bind v x) where
  parts := by simpa using h.parts
  proceeds := by
    intro p hp
    rcases List.mem_append.mp hp with hp | hp
    · exact h.proceeds p hp
    · rw [List.mem_singleton.mp hp]
      exact hret
  bound := by
    intro w hw
    rw [Env.get?_bind]
    rcases passed_cases hv hw with rfl | hw
    · rw [if_pos rfl]
      rfl
    · split
      · rfl
      · exact h.bound w hw
  fresh := by
    intro p hp w hw
    rw [Env.get?_bind, if_neg]
    · exact h.fresh p (List.mem_cons_of_mem _ hp) w hw
    · rintro rfl
      -- No other operation has this result, and the block lists each operation once.
      obtain ⟨i, hi⟩ := List.mem_iff_getElem?.mp hw
      have hov : (g.results o)[0]? = some w := by
        rw [hv]
        rfl
      have hpo := (hc.result_unique hi hov).1
      have nodup := hc.placedOnce entry
      rw [h.parts, List.nodup_append] at nodup
      exact (List.nodup_cons.mp nodup.2.1).1 (hpo ▸ hp)

/-- From a return on nothing is reached, and it is the only exit. -/
theorem Underway.last_of_ret (h : g.Underway entry pre (o :: l) env) (hret : g.kind o = .ret) :
    (∀ p ∈ o :: l, ¬ g.Reached entry p) ∧ ∀ p ∈ o :: l, g.Exits entry p → p = o := by
  have behind : ∀ p ∈ l, Precedes (g.opsIn entry) o p := by
    intro p hp
    rw [h.parts]
    exact ((List.singleton_sublist.mpr hp).cons_cons o).trans (List.sublist_append_right ..)
  constructor
  · intro p hp hr
    rcases List.mem_cons.mp hp with rfl | hp
    · exact hr.proceeds hret
    · exact hr.before o (behind p hp) hret
  · intro p hp he
    rcases List.mem_cons.mp hp with rfl | hp
    · rfl
    · exact absurd hret (he.before o (behind p hp))

section

variable (hc : Consistent g gone) (hord : g.Ordered func gone) (hentry : g.IsEntry func entry)
include hc hord hentry

omit hord in
/-- What can be read in the entry block is a parameter or was computed before. -/
theorem Visible.of_entry (ho : o ∈ g.opsIn entry) (h : g.Visible func o v) :
    v ∈ g.argsOf entry ∨ ∃ p, Precedes (g.opsIn entry) p o ∧ v ∈ g.results p := by
  cases h with
  | @argument b _ _ hb hv =>
    obtain rfl := hc.block_unique hb ho
    exact Or.inl hv
  | @earlier b p _ _ hp hv =>
    obtain rfl := hc.block_unique hp.mem_right ho
    exact Or.inr ⟨p, hp, hv⟩
  | @outer q _ s b _ hq hs hb hob _ =>
    -- The region of the entry block belongs to the function, which sees nothing.
    obtain rfl := hc.block_unique hob ho
    obtain ⟨-, r, hr, hbr⟩ := hentry
    obtain rfl := hc.region_unique hb (List.mem_of_mem_head? hbr)
    exact absurd (hc.owner_unique hs (List.mem_of_mem_head? hr)) hq

/-- At a point of the entry block: what is read there is a parameter, or the result of
something left of it. -/
theorem operand_cases (hl : g.opsIn entry = pre ++ o :: l) (hw : w ∈ g.operands o) :
    w ∈ g.argsOf entry ∨ ∃ p ∈ pre, w ∈ g.results p := by
  have ho : o ∈ g.opsIn entry := by simp [hl]
  have hv := hord.visible o (hentry.holdsBlock.inside ho) w hw
  rcases Visible.of_entry hc hentry ho hv with hw | ⟨p, hp, hw⟩
  · exact Or.inl hw
  · right
    have nodup := hc.placedOnce entry
    rw [hl] at hp nodup
    exact ⟨p, (precedes_append_cons nodup).mp hp, hw⟩

omit hord hentry in
theorem reached_iff (hl : g.opsIn entry = pre ++ o :: l) (hpre : ∀ p ∈ pre, g.kind p ≠ .ret) :
    (g.Reached entry o ↔ g.kind o ≠ .ret) ∧ (g.Exits entry o ↔ g.kind o = .ret) := by
  have ho : o ∈ g.opsIn entry := by simp [hl]
  have nodup := hc.placedOnce entry
  rw [hl] at nodup
  have before : ∀ p, Precedes (g.opsIn entry) p o → g.kind p ≠ .ret := by
    intro p hp
    rw [hl] at hp
    exact hpre p ((precedes_append_cons nodup).mp hp)
  exact ⟨⟨fun h => h.proceeds, fun h => ⟨ho, h, before⟩⟩,
    ⟨fun h => h.kind, fun h => ⟨ho, h, before⟩⟩⟩

variable (hsingle : ∀ o, g.Inside func o → g.kind o ≠ .func → g.kind o ≠ .ret →
  ∃ v, g.results o = [v])
include hsingle

omit hc hord in
theorem single_of_evalOp (ho : o ∈ g.opsIn entry) (hret : g.kind o ≠ .ret)
    (he : g.evalOp env o = .ok x) : ∃ v, g.results o = [v] := by
  refine hsingle o (hentry.holdsBlock.inside ho) (fun hk => ?_) hret
  unfold evalOp Frame.eval at he
  rw [show (g.frame env o).kind = .func from hk] at he
  cases he

/-- A run of what is left of the entry block explains itself by the environment it ends
with: where it binds, nothing was bound, so all that was read stays. -/
theorem explains_of_runOps (h : g.Underway entry pre l env) (hrun : g.runOps l env = (ρ, .ok r)) :
    (∀ w x, env.get? w = some x → ρ.get? w = some x) ∧
      (∀ o ∈ l, g.Reached entry o → g.Computes ρ o) ∧
      (∀ o ∈ l, g.Exits entry o → (g.operands o).map ρ.get? = r.map some) ∧
      ((∀ o ∈ l, g.kind o ≠ .ret) → r = []) := by
  -- The induction is on what is still to be run; what has been run is bound already.
  induction l generalizing pre env with
  | nil =>
    cases hrun
    exact ⟨fun _ _ h => h, nofun, nofun, fun _ => rfl⟩
  | cons o l ih =>
    have ho : o ∈ g.opsIn entry := by simp [h.parts]
    rw [runOps] at hrun
    -- A return ends the run, so nothing behind it is reached.
    by_cases hret : g.kind o = .ret
    · rw [if_pos hret] at hrun
      obtain ⟨rfl, hanswer⟩ := Prod.mk.inj hrun
      obtain ⟨hnone, hexit⟩ := h.last_of_ret hret
      refine ⟨fun _ _ h => h, fun p hp hr => absurd hr (hnone p hp), fun p hp he => ?_,
        fun h => absurd hret (h o (List.mem_cons_self ..))⟩
      obtain rfl := hexit p hp he
      exact Env.mapM_read_eq_ok.mp hanswer
    · rw [if_neg hret] at hrun
      split at hrun
      · cases hrun
      next x hx =>
      obtain ⟨v, hv⟩ := single_of_evalOp hentry hsingle ho hret hx
      rw [hv] at hrun
      dsimp only at hrun
      obtain ⟨hext, hreached, hexits, hfalls⟩ := ih (h.bind hc hret hv x) hrun
      have hext' : ∀ w y, env.get? w = some y → ρ.get? w = some y :=
        fun w y hw => hext w y (h.kept hv hw)
      refine ⟨hext', fun p hp hr => ?_, fun p hp he => ?_, fun h => ?_⟩
      · rcases List.mem_cons.mp hp with rfl | hp
        · refine ⟨v, x, by rw [hv]; rfl, ?_, ?_⟩
          · rw [← hx]
            -- Its operands were bound before and are not bound anew.
            refine (evalOp_congr fun w hw => ?_).symm
            have hsome := h.bound w (operand_cases hc hord hentry h.parts hw)
            obtain ⟨y, hy⟩ := Option.isSome_iff_exists.mp hsome
            rw [hy, hext' w y hy]
          · refine hext v x ?_
            rw [Env.get?_bind, if_pos rfl]
        · exact hreached p hp hr
      · rcases List.mem_cons.mp hp with rfl | hp
        · exact absurd he.kind hret
        · exact hexits p hp he
      · exact hfalls fun p hp => h p (List.mem_cons_of_mem _ hp)

/-- A run that returns something ends with an environment that explains it. -/
theorem explains_of_run (hrun : g.run func args = .ok r) :
    ∃ ρ, g.runIn .empty func args = (ρ, .ok r) ∧ g.Explains entry args r ρ := by
  unfold run at hrun
  generalize hin : g.runIn .empty func args = out at hrun
  obtain ⟨ρ, answer⟩ := out
  dsimp only at hrun
  subst hrun
  refine ⟨ρ, rfl, ?_⟩
  rw [runIn, entryBlock?_eq_some.mpr hentry] at hin
  dsimp only at hin
  split at hin
  · cases hin
  next hlen =>
  have hlen : (g.argsOf entry).length = args.length := not_not.mp hlen
  have hparams := @Env.map_get?_bindAll .empty _ args (nodup_argsOf hc entry) hlen
  -- At the start the parameters are bound and nothing else is.
  have hbound : ∀ w, (w ∈ g.argsOf entry ∨ ∃ p ∈ ([] : List OpId), w ∈ g.results p) →
      ((Env.empty.bindAll ((g.argsOf entry).zip args)).get? w).isSome := by
    intro w hw
    rcases hw with hw | ⟨p, hp, -⟩
    · have := List.mem_map_of_mem (f := (Env.empty.bindAll ((g.argsOf entry).zip args)).get?) hw
      rw [hparams] at this
      obtain ⟨y, -, hy⟩ := List.mem_map.mp this
      rw [← hy]
      rfl
    · cases hp
  have hfresh : ∀ p ∈ g.opsIn entry, ∀ w ∈ g.results p,
      (Env.empty.bindAll ((g.argsOf entry).zip args)).get? w = none := by
    intro p _ w hw
    exact Env.get?_bindAll_of_not_mem fun hmem => hc.not_mem_results_of_mem_argsOf hmem hw
  have hstart : g.Underway entry [] (g.opsIn entry)
      (Env.empty.bindAll ((g.argsOf entry).zip args)) :=
    ⟨(List.nil_append _).symm, by simp, hbound, hfresh⟩
  obtain ⟨hext, hsteps, hanswer, hfalls⟩ :=
    explains_of_runOps hc hord hentry hsingle hstart hin
  refine ⟨?_, fun o ho => hsteps o ho.mem ho, fun o ho => hanswer o ho.mem ho, hfalls⟩
  -- What is bound at the start stays bound.
  rw [← hparams]
  refine List.map_congr_left fun w hw => ?_
  obtain ⟨y, hy⟩ := Option.isSome_iff_exists.mp (hbound w (Or.inl hw))
  rw [hy, hext w y hy]

end

/-! ## Running what is explained -/

section

variable (hc : Consistent g gone) (hord : g.Ordered func gone) (hentry : g.IsEntry func entry)
  (hρ : g.Explains entry args r ρ)
include hc hord hentry hρ

/-- What is left of the entry block runs to the answer, as long as the run so far agrees
with what explains the answer. -/
theorem runOps_of_explains (hl : g.opsIn entry = pre ++ l)
    (hpre : ∀ p ∈ pre, g.kind p ≠ .ret ∧ ∃ v, g.results p = [v])
    (hagree : ∀ w, (w ∈ g.argsOf entry ∨ ∃ p ∈ pre, w ∈ g.results p) → env.get? w = ρ.get? w)
    (hsingle : ∀ o, g.Reached entry o → ∃ v, g.results o = [v]) :
    (g.runOps l env).2 = .ok r := by
  -- The induction is on what is still to be run; so far the run has bound what explains it.
  induction l generalizing pre env with
  | nil =>
    rw [List.append_nil] at hl
    rw [runOps, hρ.falls fun o ho => (hpre o (hl ▸ ho)).1]
  | cons o l ih =>
    obtain ⟨hreached, hexits⟩ := reached_iff hc hl fun p hp => (hpre p hp).1
    have hread : ∀ w ∈ g.operands o, env.get? w = ρ.get? w :=
      fun w hw => hagree w (operand_cases hc hord hentry hl hw)
    rw [runOps]
    by_cases hret : g.kind o = .ret
    · rw [if_pos hret]
      refine Env.mapM_read_eq_ok.mpr ?_
      rw [List.map_congr_left hread]
      exact hρ.answer o (hexits.mpr hret)
    -- The operation computes what it is explained by, and this is bound next.
    · rw [if_neg hret, evalOp_congr hread]
      obtain ⟨v, hv⟩ := hsingle o (hreached.mpr hret)
      obtain ⟨v', x, hv', hx, hbind⟩ := hρ.steps o (hreached.mpr hret)
      rw [hv] at hv' ⊢
      obtain rfl := Option.some.inj hv'
      rw [hx]
      dsimp only
      refine ih (show g.opsIn entry = (pre ++ [o]) ++ l by simpa using hl) (fun p hp => ?_)
        fun w hw => ?_
      · rcases List.mem_append.mp hp with hp | hp
        · exact hpre p hp
        · rw [List.mem_singleton.mp hp]
          exact ⟨hret, v, hv⟩
      · rw [Env.get?_bind]
        rcases passed_cases hv hw with rfl | hw
        · rw [if_pos rfl, hbind]
        · split
          · next e => rw [e, hbind]
          · exact hagree w hw

/-- What an environment explains is what the run returns. -/
theorem run_of_explains (hsingle : ∀ o, g.Reached entry o → ∃ v, g.results o = [v]) :
    g.run func args = .ok r := by
  have hlen : (g.argsOf entry).length = args.length := by
    have := congrArg List.length hρ.params
    simpa using this
  rw [run, runIn, entryBlock?_eq_some.mpr hentry]
  dsimp only
  rw [if_neg (not_not_intro hlen)]
  refine runOps_of_explains hc hord hentry hρ (List.nil_append _).symm nofun (fun w hw => ?_)
    hsingle
  rcases hw with hw | ⟨p, hp, -⟩
  · have hparams := @Env.map_get?_bindAll .empty _ args (nodup_argsOf hc entry) hlen
    rw [← hρ.params] at hparams
    exact List.map_inj_left.mp hparams w hw
  · cases hp

end

end Graph

end SimdLowering
