/-
A run on its way.

What an operation computes depends on what the run has bound when it gets there, and not on
what comes after. So an operation is judged at the point of the entry block where it stands: the
operations left of it have been evaluated, and nothing is asked of the rest of the function,
which may fail. No name is bound twice, so whatever was computed left of the operation still
evaluates to what is bound to its result.

A run that fails nowhere on the way gets to the return, and ends there.

A rule leaves operations that have been created and not placed. They are judged at the same
point, by evaluating them in order after what the run has bound so far. That a recipe evaluates
is said of the graph it was planned in; the operations created from it then compute the same.
-/
import SimdLowering.Proofs.Eval.Lockstep
import SimdLowering.Proofs.Eval.Ranges
import SimdLowering.Proofs.Rewrite.Evaluation

set_option autoImplicit false

namespace SimdLowering

namespace Graph

variable {g g₁ : Graph} {gone : List OpId} {func op d p : OpId} {entry : BlockId}
  {v w old : ValueId} {l m pre rest : List OpId} {env e ρ : Env} {args : List RtValue}
  {r : Recipe} {Γ : List Known} {k : Known} {i n : Nat}

/-! ## What was computed before -/

/-- What evaluates in two parts evaluates the first part, and then the second where the first
one ended. -/
theorem evalOps_append_eq_ok : g.evalOps (l ++ m) env = .ok e ↔
    ∃ e', g.evalOps l env = .ok e' ∧ g.evalOps m e' = .ok e := by
  constructor
  · intro h
    induction l generalizing env with
    | nil => exact ⟨env, rfl, h⟩
    | cons o l ih =>
      obtain ⟨x, w, ws, hx, hw, h⟩ := evalOps_cons_eq_ok.mp h
      obtain ⟨e', hl, hm⟩ := ih h
      exact ⟨e', evalOps_cons_eq_ok.mpr ⟨x, w, ws, hx, hw, hl⟩, hm⟩
  · rintro ⟨e', hl, hm⟩
    rw [evalOps_append hl]
    exact hm

/-- One operation evaluates, and its result is bound. -/
theorem evalOps_singleton {x : RtValue} (h : g.evalOp env op = .ok x) (hv : g.results op = [v]) :
    g.evalOps [op] env = .ok (env.bind v x) :=
  evalOps_cons_eq_ok.mpr ⟨x, v, [], h, hv, rfl⟩

/-- The run of the function on the arguments gets to the operation with the environment: all
that stands left of it in the entry block has been evaluated. -/
structure Arrives (g : Graph) (func : OpId) (entry : BlockId) (args : List RtValue) (op : OpId)
    (ρ : Env) : Prop where
  isEntry : g.IsEntry func entry
  count : (g.argsOf entry).length = args.length
  evaluated : ∃ pre rest, g.opsIn entry = pre ++ op :: rest ∧
    g.evalOps pre (Env.empty.bindAll ((g.argsOf entry).zip args)) = .ok ρ

theorem Arrives.mem (h : g.Arrives func entry args op ρ) : op ∈ g.opsIn entry := by
  obtain ⟨pre, rest, hl, -⟩ := h.evaluated
  simp [hl]

theorem Arrives.inside (h : g.Arrives func entry args op ρ) : g.Inside func op :=
  h.isEntry.holdsBlock.inside h.mem

section

variable (hc : Consistent g gone) (hord : g.Ordered func gone) (hentry : g.IsEntry func entry)
include hc

/-- An operation of the block binds what nothing else there binds. -/
theorem Consistent.not_mem_results_of_ne (hv : v ∈ g.results p) (hne : d ≠ p) :
    v ∉ g.results d := by
  intro hd
  obtain ⟨i, hi⟩ := List.mem_iff_getElem?.mp hv
  obtain ⟨j, hj⟩ := List.mem_iff_getElem?.mp hd
  exact hne (hc.result_unique hj hi).1

include hord hentry

/-- What was computed on the way still evaluates to what is bound to its result. -/
theorem computes_of_evalOps (hl : g.opsIn entry = pre ++ rest)
    (he : g.evalOps pre env = .ok ρ) (hp : p ∈ pre) : g.Computes ρ p := by
  obtain ⟨before, after, rfl⟩ := List.append_of_mem hp
  have hnodup : (before ++ p :: (after ++ rest)).Nodup := by
    have := hc.placedOnce entry
    rw [hl] at this
    simpa using this
  obtain ⟨e₁, he₁, he⟩ := evalOps_append_eq_ok.mp he
  obtain ⟨x, v, vs, hx, hv, he₂⟩ := evalOps_cons_eq_ok.mp he
  -- Nothing from the operation on binds what it reads, and nothing after it what it binds.
  have hread : ∀ w ∈ g.operands p, ρ.get? w = e₁.get? w := by
    intro w hw
    refine get?_of_evalOps he fun o ho => ?_
    have hplace : g.opsIn entry = before ++ p :: (after ++ rest) := by simpa using hl
    rcases operand_cases hc hord hentry hplace hw with harg | ⟨q, hq, hres⟩
    · exact hc.not_mem_results_of_mem_argsOf harg
    · refine hc.not_mem_results_of_ne hres ?_
      rintro rfl
      refine (List.nodup_append.mp hnodup).2.2 o hq o ?_ rfl
      rw [← List.cons_append]
      exact List.mem_append_left _ ho
  have hkeep : ρ.get? v = some x := by
    rw [get?_of_evalOps he₂ fun o ho => ?_, Env.get?_bind, if_pos rfl]
    refine hc.not_mem_results_of_ne (p := p) (by simp [hv]) ?_
    rintro rfl
    have htail := (List.nodup_append.mp hnodup).2.1
    exact (List.nodup_cons.mp htail).1 (List.mem_append_left _ ho)
  exact ⟨v, x, by rw [hv]; rfl, (evalOp_congr hread).trans hx, hkeep⟩

end

/-- What defines an operand was computed on the way. -/
theorem Arrives.computes (h : g.Arrives func entry args op ρ) (hc : Consistent g gone)
    (hord : g.Ordered func gone) (hv : v ∈ g.operands op) (hd : v ∈ g.results d) :
    g.Computes ρ d := by
  obtain ⟨pre, rest, hl, he⟩ := h.evaluated
  rcases operand_cases hc hord h.isEntry hl hv with harg | ⟨p, hp, hres⟩
  · exact absurd hd (hc.not_mem_results_of_mem_argsOf harg)
  · obtain rfl : d = p := by
      by_contra hne
      exact hc.not_mem_results_of_ne hres hne hd
    exact computes_of_evalOps hc hord h.isEntry hl he hp

/-! ## The operations of a recipe -/

/-- The operations that a rule has made compute the value: evaluated in order after the
environment, they leave it in the result of the one that takes the place. -/
def MadeToGive (g : Graph) (ρ : Env) (edits : Edits) (x : RtValue) : Prop :=
  ∃ steps new v ρ', edits = ⟨steps, .replace new⟩ ∧ g.results new = [v] ∧
    g.evalOps (steps ++ [new]) ρ = .ok ρ' ∧ ρ'.get? v = some x

/-- What an operand of a step holds, its name in the graph with the steps is bound to, as long
as the results of the steps before it are. -/
theorem Created.holds {all : List Step} {Θ : List Known} {s : Source} (hg : Created g g₁ all)
    (hs : s.Holds g ρ Θ k) (hold : ∀ v, g.HasValue v → e.get? v = ρ.get? v)
    (hΘ : ∀ j y, Θ[j]? = some y → e.get? ⟨g.values.size + j⟩ = some y.value ∧
      ∃ d, all[j]? = some d ∧ d.resultType = y.ty) :
    (Source.value (s.valueFrom g.values.size)).Holds g₁ e [] k := by
  -- A value was there before and is bound as it was; a step is bound by what was computed.
  cases s with
  | value v =>
    have hv : g.HasValue v := by
      refine value?_isSome_iff.mp ?_
      rw [← Option.isSome_map (f := Value.ty), hs.1]
      rfl
    refine ⟨?_, ?_⟩
    · change (g₁.value? v).map Value.ty = _
      rw [hg.value?, if_pos hv, hs.1]
    · exact (hold v hv).trans hs.2
  | step j =>
    obtain ⟨hbind, d, hd, hty⟩ := hΘ j k hs
    refine ⟨?_, hbind⟩
    change (g₁.value? ⟨g.values.size + j⟩).map Value.ty = _
    rw [hg.value?, if_neg (not_hasValue_add j), Nat.add_sub_cancel_left, hd, Option.map_some,
      Option.map_some, hty]

/-- The operations created from a recipe that evaluates do evaluate, one after the other. The
first `n` of them leave what was bound as it was and bind the results of their steps. -/
theorem evalOps_nextOps (hg : Created g g₁ r.all) (h : r.EvaluatesBy g ρ Γ k) (n : Nat)
    (hn : n ≤ r.all.length) : ∃ e, g₁.evalOps (g.nextOps n) ρ = .ok e ∧
      (∀ v, g.HasValue v → e.get? v = ρ.get? v) ∧
      ∀ j y, j < n → (Γ ++ [k])[j]? = some y → e.get? ⟨g.values.size + j⟩ = some y.value := by
  obtain ⟨hlen, hall⟩ := h.all
  induction n with
  | zero => exact ⟨ρ, rfl, fun v _ => rfl, fun j y hj => absurd hj (Nat.not_lt_zero j)⟩
  | succ n ih =>
    obtain ⟨e, he, hold, hnew⟩ := ih (Nat.le_of_succ_le hn)
    obtain ⟨d, hd⟩ : ∃ d, r.all[n]? = some d := ⟨_, List.getElem?_eq_getElem hn⟩
    obtain ⟨y, hy, heval⟩ := hall n d hd
    obtain ⟨ks, hks, hx⟩ := heval.eval
    have hop := hg.op_new hd
    -- The step reads what was bound before, and results of the steps before it.
    have hreads : List.Forall₂ (fun v k => Source.Holds g₁ e [] (.value v) k)
        (g₁.operands ⟨g.ops.size + n⟩) ks := by
      rw [operands, hop]
      refine List.forall₂_map_left_iff.mpr (hks.imp fun s k' hs => hg.holds hs hold ?_)
      intro j z hz
      rw [List.getElem?_take] at hz
      split at hz
      · next hj =>
        obtain ⟨d', hd'⟩ : ∃ d', r.all[j]? = some d' :=
          ⟨_, List.getElem?_eq_getElem (Nat.lt_trans hj hn)⟩
        obtain ⟨z', hz', heval'⟩ := hall j d' hd'
        obtain rfl := Option.some.inj (hz.symm.trans hz')
        refine ⟨hnew j z hj hz, d', hd', ?_⟩
        rw [Draft.resultType, heval'.result]
        rfl
      · cases hz
    have hres : g₁.results ⟨g.ops.size + n⟩ = [⟨g.values.size + n⟩] := by
      rw [results, hop]
      rfl
    have hty : (g₁.value ⟨g.values.size + n⟩).ty = y.ty := by
      rw [value, hg.value?, if_neg (not_hasValue_add n), Nat.add_sub_cancel_left, hd,
        Option.map_some, Option.getD_some, Draft.resultType, heval.result]
      rfl
    have hvalue : g₁.evalOp e ⟨g.ops.size + n⟩ = .ok y.value := by
      refine evalOp_of_known hreads hres hty ?_
      rw [kind, attrs, hop]
      exact hx
    refine ⟨e.bind ⟨g.values.size + n⟩ y.value, ?_, fun v hv => ?_, fun j z hj hz => ?_⟩
    · rw [nextOps_succ]
      exact evalOps_append_eq_ok.mpr ⟨e, he, evalOps_singleton hvalue hres⟩
    · rw [Env.get?_bind, if_neg, hold v hv]
      rintro rfl
      exact not_hasValue_add n hv
    · by_cases hjn : j = n
      · subst hjn
        obtain rfl := Option.some.inj (hz.symm.trans hy)
        rw [Env.get?_bind, if_pos rfl]
      · rw [Env.get?_bind, if_neg, hnew j z (by omega) hz]
        intro heq
        have := congrArg ValueId.index heq
        simp only at this
        omega

/-- The operations made from a recipe that evaluates to a value give that value. -/
theorem madeToGive_of_evaluates (hc : Consistent g gone) (h : r.Evaluates g ρ k) :
    (g.addRecipe r).1.MadeToGive ρ (g.addRecipe r).2 k.value := by
  obtain ⟨g₁, hrun, hg, -⟩ := addRecipe_created hc h.fine
  obtain ⟨Γ, h⟩ := h
  obtain ⟨e, he, -, hnew⟩ := evalOps_nextOps hg h r.all.length (Nat.le_refl _)
  obtain ⟨hlen, -⟩ := h.all
  rw [hrun]
  refine ⟨g.nextOps r.steps.length, ⟨g.ops.size + r.steps.length⟩,
    ⟨g.values.size + r.steps.length⟩, e, rfl, ?_, ?_, ?_⟩
  · change (g₁.op _).results = _
    rw [hg.op_new r.getElem?_all_final]
    rfl
  · rw [← nextOps_all]
    exact he
  · refine hnew r.steps.length k ?_ ?_
    · rw [r.length_all]
      exact Nat.lt_succ_self _
    · rw [← hlen]
      simp

theorem madeToGive_of_addRecipe {g' : Graph} {edits : Edits} (hc : Consistent g gone)
    (h : r.Evaluates g ρ k) (hr : g.addRecipe r = (g', edits)) :
    g'.MadeToGive ρ edits k.value := by
  have hmade := madeToGive_of_evaluates hc h
  rwa [hr] at hmade

/-- What a rule that works by recipe has made gives the value that its decision computes. -/
theorem madeToGive_of_sizedRun
    {look : Graph → OpId → AccessSizes → Except Fault (Decision × AccessSizes)} {name : String}
    {roots : List OpKind} {g' : Graph} {sizes sizes' : AccessSizes} {edits : Edits}
    {F : Fault → Prop} (hc : Consistent g gone)
    (h : YieldsUnless F (look g op sizes) fun d => d.1.Computes g ρ k)
    (hrun : (Rule.ofSizedDecision name roots look).run g op sizes =
      .ok (g', sizes', .matched edits)) : g'.MadeToGive ρ edits k.value := by
  obtain ⟨decision, hlook, hperform⟩ := Rule.run_ofSizedDecision_eq_ok.mp hrun
  have hcomputes := h.of_eq_ok hlook
  cases decision with
  | rewrite r =>
    obtain ⟨hgraph, hedits⟩ := Prod.mk.inj hperform
    exact madeToGive_of_addRecipe hc hcomputes (Prod.ext hgraph (Outcome.matched.inj hedits))
  | _ => cases (Prod.mk.inj hperform).2

theorem madeToGive_of_run {look : Graph → OpId → Except Fault Decision} {name : String}
    {roots : List OpKind} {g' : Graph} {sizes sizes' : AccessSizes} {edits : Edits}
    {F : Fault → Prop} (hc : Consistent g gone)
    (h : YieldsUnless F (look g op) (Decision.Computes g ρ k))
    (hrun : (Rule.ofDecision name roots look).run g op sizes =
      .ok (g', sizes', .matched edits)) : g'.MadeToGive ρ edits k.value := by
  refine madeToGive_of_sizedRun (F := F) hc ?_ hrun
  exact h.bind fun _ hd => .pure hd

/-! ## At an operation -/

/-- The run gets to the operation, and whatever that reads is bound to a value that fits its
type. -/
structure Ready (g : Graph) (func : OpId) (entry : BlockId) (args : List RtValue) (op : OpId)
    (ρ : Env) : Prop where
  arrives : g.Arrives func entry args op ρ
  bound : ∀ v ∈ g.operands op, ∃ x, ρ.get? v = some x ∧ x.Fits (g.value v).ty

namespace Ready

variable (hscene : Scene g gone func) (h : g.Ready func entry args op ρ)
include h

theorem get? (hv : v ∈ g.operands op) : ρ.get? v = some (g.known ρ v).value := by
  obtain ⟨x, hx, -⟩ := h.bound v hv
  exact get?_known (by rw [hx]; rfl)

theorem fits (hv : v ∈ g.operands op) : (g.known ρ v).value.Fits (g.known ρ v).ty := by
  obtain ⟨x, hx, hfit⟩ := h.bound v hv
  obtain rfl := Option.some.inj (hx.symm.trans (h.get? hv))
  exact hfit

include hscene

theorem atHand (hv : v ∈ g.operands op) : g.AtHand func op v :=
  hscene.atHand_of_mem_operands h.arrives.inside hv

theorem holds (hv : v ∈ g.operands op) : (Source.value v).Holds g ρ Γ (g.known ρ v) :=
  ⟨by rw [value?_eq_some ((h.atHand hscene hv).visible.hasValue hscene.consistent)]; rfl,
    h.get? hv⟩

/-- The operation evaluates to what its kind computes of the known operands. -/
theorem evalOp_eq (hold : g.results op = [old]) {x : RtValue}
    (heval : (Frame.ofKnown (g.kind op) (g.attrs op) (g.knownOperands ρ op)
      (g.value old).ty).eval = .ok x) : g.evalOp ρ op = .ok x := by
  refine evalOp_of_known ?_ hold rfl heval
  rw [knownOperands, List.forall₂_map_right_iff, List.forall₂_same]
  exact fun v hv => h.holds hscene hv

end Ready

/-! ## On to the return -/

/-- The run does not fail at the operation: when it gets there, the operation evaluates. -/
def Proceeds (g : Graph) (func : OpId) (entry : BlockId) (args : List RtValue) (op : OpId) : Prop :=
  ∀ ρ, g.Arrives func entry args op ρ → ∃ x, g.evalOp ρ op = .ok x

section

variable (hscene : Scene g gone func)
include hscene

/-- Parameters hold the arguments all along. -/
theorem Arrives.params (h : g.Arrives func entry args op ρ) :
    (g.argsOf entry).map ρ.get? = args.map some := by
  have hc := hscene.consistent
  obtain ⟨pre, rest, -, he⟩ := h.evaluated
  rw [← @Env.map_get?_bindAll .empty _ args (nodup_argsOf hc entry) h.count]
  refine List.map_congr_left fun v hv => get?_of_evalOps he fun o _ => ?_
  exact hc.not_mem_results_of_mem_argsOf hv

/-- Whatever stands left of the operation was computed. -/
theorem Arrives.computes_of_precedes (h : g.Arrives func entry args op ρ)
    (hp : Precedes (g.opsIn entry) p op) : g.Computes ρ p := by
  obtain ⟨pre, rest, hl, he⟩ := h.evaluated
  have hnodup := hscene.consistent.placedOnce entry
  rw [hl] at hp hnodup
  exact computes_of_evalOps hscene.consistent hscene.ordered h.isEntry hl he
    ((precedes_append_cons hnodup).mp hp)

/-- What can be read is a parameter, which is bound to its argument, or the result of what was
computed before. -/
theorem Arrives.bound_cases (h : g.Arrives func entry args op ρ) (hv : g.Visible func op v) :
    (∃ (i : Nat) (x : RtValue), (g.argsOf entry)[i]? = some v ∧ args[i]? = some x ∧
      ρ.get? v = some x) ∨
      ∃ p x, Precedes (g.opsIn entry) p op ∧ g.results p = [v] ∧ g.evalOp ρ p = .ok x ∧
        ρ.get? v = some x := by
  rcases Visible.of_entry hscene.consistent h.isEntry h.mem hv with harg | ⟨p, hp, hres⟩
  · obtain ⟨i, hi⟩ := List.mem_iff_getElem?.mp harg
    have hparam := congrArg (·[i]?) (h.params hscene)
    simp only [List.getElem?_map, hi, Option.map_some] at hparam
    obtain ⟨x, hx, hbound⟩ := Option.map_eq_some_iff.mp hparam.symm
    exact Or.inl ⟨i, x, hi, hx, hbound.symm⟩
  · obtain ⟨w, x, hw, he, hx⟩ := h.computes_of_precedes hscene hp
    obtain ⟨w', hw'⟩ := single_of_evalOp h.isEntry (fun o ho => hscene.single_of_kind ho)
      hp.mem_left (kind_ne_ret_of_evalOp he) he
    rw [hw'] at hres hw
    obtain rfl := List.mem_singleton.mp hres
    obtain rfl := Option.some.inj hw
    exact Or.inr ⟨p, x, hp, hw', he, hx⟩

/-- Whatever can be read is bound. -/
theorem Arrives.isSome_of_visible (h : g.Arrives func entry args op ρ)
    (hv : g.Visible func op v) : (ρ.get? v).isSome = true := by
  rcases h.bound_cases hscene hv with ⟨i, x, -, -, hx⟩ | ⟨p, x, -, -, -, hx⟩ <;>
  · rw [hx]
    rfl

/-- If the arguments are in range, so is whatever can be read. -/
theorem Arrives.normal_of_visible (h : g.Arrives func entry args op ρ)
    (hargs : List.Forall₂ (fun v x => x.Normal (g.value v).ty) (g.argsOf entry) args)
    (hv : g.Visible func op v) {x : RtValue} (hx : ρ.get? v = some x) :
    x.Normal (g.value v).ty := by
  rcases h.bound_cases hscene hv with ⟨i, y, hi, hy, hbound⟩ | ⟨p, y, -, hres, he, hbound⟩ <;>
    obtain rfl := Option.some.inj (hbound.symm.trans hx)
  · obtain ⟨hlt, rfl⟩ := List.getElem?_eq_some_iff.mp hi
    obtain ⟨hlt', rfl⟩ := List.getElem?_eq_some_iff.mp hy
    exact hargs.get hlt hlt'
  · obtain ⟨ty, hty, hrange⟩ := Frame.eval_normal _ y he
    have htypes : (g.resultTypes p).head? = some ty := hty
    rw [resultTypes, hres] at htypes
    obtain rfl := Option.some.inj htypes
    exact hrange

/-- A run on its way has this view, too. -/
theorem Arrives.vantage (h : g.Arrives func entry args op ρ) : g.Vantage gone func entry ρ op where
  scene := hscene
  isEntry := h.isEntry
  mem := h.mem
  bound _ := h.isSome_of_visible hscene
  computed v d hv hd := by
    have hc := hscene.consistent
    rcases Visible.of_entry hc h.isEntry h.mem hv with harg | ⟨p, hp, hres⟩
    · exact absurd hd (hc.not_mem_results_of_mem_argsOf harg)
    · obtain rfl : d = p := by
        by_contra hne
        exact hc.not_mem_results_of_ne hres hne hd
      exact h.computes_of_precedes hscene hp

/-- What was computed on the way was computed from what is known there. -/
theorem Arrives.eval_known (h : g.Arrives func entry args op ρ)
    (hp : Precedes (g.opsIn entry) p op) (hres : g.results p = [v]) :
    (Frame.ofKnown (g.kind p) (g.attrs p) (g.knownOperands ρ p) (g.value v).ty).eval =
      .ok (g.known ρ v).value := by
  refine (Computes.eval_known (h.computes_of_precedes hscene hp) hres fun w hw => ?_).1
  have hvis := (hscene.ordered.visible p (h.isEntry.holdsBlock.inside hp.mem_left) w hw).later
    hscene.consistent hp
  exact holds_known (hvis.hasValue hscene.consistent) (h.isSome_of_visible hscene hvis)

/-- A run that fails nowhere on the way gets to the return. -/
theorem exists_arrives (hentry : g.IsEntry func entry)
    (hcount : (g.argsOf entry).length = args.length) (hret : g.Exits entry op)
    (h : ∀ d, g.Reached entry d → g.Proceeds func entry args d) :
    ∃ ρ, g.Arrives func entry args op ρ := by
  have hc := hscene.consistent
  obtain ⟨pre, rest, hl⟩ := List.append_of_mem hret.mem
  have hnodup := hc.placedOnce entry
  -- By induction on how far the run has come.
  have part : ∀ l m, pre = l ++ m →
      ∃ ρ, g.evalOps l (Env.empty.bindAll ((g.argsOf entry).zip args)) = .ok ρ := by
    intro l
    induction l using List.reverseRecOn with
    | nil => exact fun _ _ => ⟨_, rfl⟩
    | append_singleton l d ih =>
      intro m hm
      obtain ⟨ρ, hρ⟩ := ih (d :: m) (by simpa using hm)
      have hl' : g.opsIn entry = l ++ d :: (m ++ op :: rest) := by simpa [hm] using hl
      have before : ∀ p, p ∈ l ∨ p = d → g.kind p ≠ .ret := by
        intro p hp
        refine hret.before p ?_
        rw [hl] at hnodup ⊢
        refine (precedes_append_cons hnodup).mpr ?_
        rw [hm]
        rcases hp with hp | rfl <;> simp [*]
      have hreached : g.Reached entry d := by
        refine ⟨by simp [hl'], before d (Or.inr rfl), fun p hp => before p (Or.inl ?_)⟩
        rw [hl'] at hp hnodup
        exact (precedes_append_cons hnodup).mp hp
      obtain ⟨x, hx⟩ := h d hreached ρ ⟨hentry, hcount, l, _, hl', hρ⟩
      obtain ⟨v, hv⟩ := single_of_evalOp hentry (fun o ho => hscene.single_of_kind ho)
        hreached.mem hreached.proceeds hx
      exact ⟨_, evalOps_append_eq_ok.mpr ⟨ρ, hρ, evalOps_singleton hx hv⟩⟩
  obtain ⟨ρ, hρ⟩ := part pre [] (List.append_nil _).symm
  exact ⟨ρ, hentry, hcount, pre, rest, hl, hρ⟩

end

/-- At the return the run ends, with what is bound to the operands. -/
theorem Arrives.runIn_eq {ans : List RtValue} (h : g.Arrives func entry args op ρ)
    (hk : g.kind op = .ret) (hread : (g.operands op).map ρ.get? = ans.map some) :
    g.runIn .empty func args = (ρ, .ok ans) := by
  obtain ⟨pre, rest, hl, he⟩ := h.evaluated
  rw [runIn, entryBlock?_eq_some.mpr h.isEntry]
  dsimp only
  rw [if_neg (not_not_intro h.count), hl, runOps_append he, runOps, if_pos hk,
    Env.mapM_read_eq_ok.mpr hread]

end Graph

end SimdLowering
