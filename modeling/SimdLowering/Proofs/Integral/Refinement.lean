/-
Lowering an integer function keeps its answers.

Take a function that validates and consists of integer operations, and any run of it that
gives an answer. The run leaves an environment that explains the answer, and in it every
operand fits its type: the arguments do by assumption, and each operation computes what fits
from operands that fit. Every visit of the lowering keeps an explanation of the same answer,
so whatever the lowering stops with, the run gives the same answer again.

One thing has to be asked of the run. A read at a constant index becomes two loads, and the second
of them goes over the cells up to two vectors from where the read starts. These cells need not be
there, but they need numbers.
-/
import SimdLowering.Proofs.Eval.Lockstep
import SimdLowering.Proofs.Integral.Preservation

set_option autoImplicit false

namespace SimdLowering

open SimdLowering.Graph

/-! ## The lowering -/

section

variable {o : LowerOptions} {func op : OpId} {size : Nat} {entry : BlockId}
  {args ans : List RtValue} {s : Application} {g : Graph} {gone : List OpId}

/-- A visit to an operation under the function keeps the answer. -/
theorem visitOp_keeps_answer
    (h : Answering o.target s.graph gone func size entry args ans)
    (hc : s.sizes.Bounded o.target) (hin : s.graph.Inside func op) :
    YieldsUnless (fun _ => True) (Application.visitOp o.ruleSet o.target.conversionTarget s op)
      (Application.Keeps func (fun s => ∃ gone, Answering o.target s.graph gone func size entry
        args ans ∧ s.sizes.Bounded o.target) s) := by
  have tracks : Application.Tracks o.ruleSet o.target.conversionTarget s.graph op
      fun c c' => c.Bounded o.target → c'.Bounded o.target := by
    refine o.tracks (fun _ => id) (fun h₁ h₂ hc => h₂ (h₁ hc)) ?_
    rintro c c' ⟨hk, n, hn⟩ hc
    exact (hc.query h.loadsFit h.scene.consistent h.valid hin hk hn).2
  refine ((Application.visitOp_yields o.target.conversionTarget_total o.ruleSet_lawful h.scene hin
    tracks).weaken fun _ _ => trivial).mono fun s' hv => ?_
  -- A visit that changes nothing keeps the answer, and the plan of a rule computes what the
  -- operation did.
  cases hv with
  | same hg _ _ hsizes => exact ⟨⟨gone, hg ▸ h, hsizes hc⟩, hg ▸ .refl ..⟩
  | rewritten b old r hrw =>
    obtain ⟨e, he, hk, c, c', touched, hmatch, hsizes, -, hforget⟩ := hrw.rule
    have hs := hrw.spliced
    have hr := hrw.lawful
    have hgeneric := h.generic hin he hk hc hrw.opened
    have hret : s.graph.kind op ≠ .ret := fun e' =>
      (o.ruleSet_lawful e he).computes.2 (e' ▸ hk)
    have hext : s.graph.kind op ≠ .extsi := fun e' => root_ne_extsi he (e' ▸ hk)
    refine ⟨⟨op :: gone, ⟨h.spliced hin hs hr (root_of_isLowered he hk), ?_,
      h.kinds_spliced hs hin hr hgeneric hext, h.loadsFit_spliced hs hin hr hgeneric,
      h.explained_spliced hs hr hgeneric hret fun ρ hstage => ?_⟩, ?_⟩, Upright.sameFrame hs⟩
    · obtain ⟨hkind, reg, hreg, hblock⟩ := h.isEntry
      refine ⟨by rw [hs.kind_of_hasOp h.root, hkind], reg, ?_, ?_⟩
      · rw [hs.regionsOf_of_hasOp h.root]
        exact hreg
      · rw [hs.blocksIn]
        exact hblock
    · exact o.ruleSet_computes he hstage hk ⟨_, hrw.opened⟩ c c' r
        (hr.hasValue h.scene.consistent) hmatch
    · rw [hforget]
      exact (hsizes hc).invalidateAll

/-- An application of the rules of a generation keeps the answer. -/
theorem LowerOptions.apply_keeps_answer (h : Answering o.target g gone func size entry args ans) :
    YieldsUnless (fun _ => True) (o.ruleSet.apply g func o.target.conversionTarget o.maxIterations
      .empty) fun x =>
      ∃ gone', Answering o.target x.1 gone' func size entry args ans := by
  refine YieldsUnless.mono (RuleSet.apply_keeps (I := fun s => ∃ gone,
    Answering o.target s.graph gone func size entry args ans ∧ s.sizes.Bounded o.target)
    (fun s ⟨_, hs, _⟩ => hs.scene.consistent.toNestingAgrees)
    (fun s op ⟨_, hs, hc⟩ hin => visitOp_keeps_answer hs hc hin) ⟨gone, h, ?_⟩) ?_
  · intro e he
    cases he
  · rintro x ⟨⟨gone', hx, -⟩, -⟩
    exact ⟨gone', hx⟩

end

namespace Graph

variable {g : Graph} {gone : List OpId} {func op : OpId} {entry : BlockId} {size : Nat}
  {args ans : List RtValue} {ρ : Env} {gen : Generation}

/-- What answers, runs to the answer. -/
theorem Answering.run (h : Answering gen g gone func size entry args ans) :
    g.run func args = .ok ans := by
  obtain ⟨ρ, hρ, -⟩ := h.explained
  refine run_of_explains h.scene.consistent h.scene.ordered h.isEntry hρ fun o ho => ?_
  have hin := h.isEntry.holdsBlock.inside ho.mem
  refine h.scene.single_of_kind hin (fun hk => ?_) ho.proceeds
  rcases h.kinds o hin with ⟨hl, -⟩ | hi
  · rw [hk] at hl
    cases hl
  · have := hi.types.mem_integralKinds
    rw [hk] at this
    exact absurd this (by decide)

/-- A lowering keeps the answer, also when it stops with an error. -/
theorem lower_keeps_answer {o : LowerOptions}
    (h : Answering o.target g gone func size entry args ans) :
    YieldsUnless (fun _ => True) (g.lower func o) fun x => x.1.run func args = .ok ans := by
  unfold lower
  have hop : (g.op? func).isNone = false := by
    rw [op?_eq_some h.root]
    rfl
  rw [hop, if_neg Bool.false_ne_true, if_neg (not_not_intro h.isEntry.1)]
  refine (o.apply_keeps_answer h).bind fun ⟨g', sizes, result⟩ ⟨gone', hg'⟩ => ?_
  dsimp only
  split
  · exact .pure hg'.run
  refine (YieldsUnless.of_forall fun _ _ => trivial).bind fun ⟨illegal, _⟩ _ => ?_
  dsimp only
  split
  · exact .pure hg'.run
  · rw [(requireValid_eq_ok hg'.scene.consistent hg'.valid.acyclic).mpr hg'.valid]
    exact .pure hg'.run

/-! ## The start -/

/-- The arguments fit the parameters of the function. -/
def Accepts (g : Graph) (func : OpId) (args : List RtValue) : Prop :=
  ∀ entry, g.IsEntry func entry →
    List.Forall₂ (fun v x => x.Fits (g.value v).ty) (g.argsOf entry) args

/-- Where the function is run on the arguments, its index arithmetic has room: each read it gets to
could go over twice as many cells. -/
def IndicesInside (g : Graph) (func : OpId) (args : List RtValue) : Prop :=
  ∀ entry op, g.IsEntry func entry → g.Reached entry op → g.kind op = .transferRead →
    g.RoomToRead (g.runIn .empty func args).1 op

/-- Where the arguments fit, whatever an operation that the run gets to reads fits. -/
theorem fits_of_explains (h : Scene g gone func) (hentry : g.IsEntry func entry)
    (hintegral : ∀ d, g.Inside func d → g.Integral gen d)
    (hargs : List.Forall₂ (fun v x => x.Fits (g.value v).ty) (g.argsOf entry) args)
    (hρ : g.Explains entry args ans ρ) (n : Nat) : ∀ pre o post, pre.length = n →
      g.opsIn entry = pre ++ o :: post → g.Reached entry o →
      ∀ v ∈ g.operands o, (g.known ρ v).Fits := by
  -- The induction is on how many operations stand before.
  induction n using Nat.strong_induction_on with
  | _ n ih =>
    intro pre o post hlen hl hreached v hv
    have hstage : g.Stage gone func entry args ans ρ o := ⟨h, hentry, hρ, hreached⟩
    rcases operand_cases h.consistent h.ordered hentry hl hv with harg | ⟨p, hp, hres⟩
    · obtain ⟨i, hi, rfl⟩ := List.mem_iff_getElem.mp harg
      have hi' : i < args.length := hargs.length_eq ▸ hi
      have hfit := (List.forall₂_iff_get.mp hargs).2 i hi hi'
      have hbound := congrArg (·[i]?) hρ.params
      simp only [List.getElem?_map, List.getElem?_eq_getElem hi, List.getElem?_eq_getElem hi',
        Option.map_some, Option.some.injEq] at hbound
      rw [Known.Fits, known, hbound]
      exact hfit
    · -- What was computed before fits, since what it was computed from does.
      have hbefore := hstage.through (h.ordered.visible o hstage.inside v hv) hres
      obtain ⟨pre', post', rfl⟩ := List.append_of_mem hp
      have hreads := ih pre'.length (by rw [← hlen, List.length_append, List.length_cons]; omega)
        pre' p (post' ++ o :: post) rfl (by rw [hl]; simp) hbefore.reached
      have htypes := (hintegral p hbefore.inside).types
      obtain ⟨t, ht⟩ := htypes.shaped.1 hbefore.reached.proceeds
      obtain ⟨w, hw, -⟩ := List.map_eq_singleton_iff.mp ht
      obtain rfl : v = w := by simpa [hw] using hres
      obtain ⟨heval, -⟩ := hbefore.eval hw
      rw [resultTypes, hw] at htypes
      have hknown : (g.knownOperands ρ p).map Known.ty = g.typesOf (g.operands p) := by
        rw [knownOperands, List.map_map]
        rfl
      rw [← hknown] at htypes
      refine htypes.fits (fun k hk => ?_) heval
      obtain ⟨u, hu, rfl⟩ := List.mem_map.mp hk
      exact hreads u hu

/-- A run that gives an answer is the start of a lowering that keeps it. -/
theorem Answering.of_run {edits : List Edit} (history : Edit.replay edits = .ok (g, gone))
    (hreads : ∀ v, g.uses v ≠ [] → g.HasValue v) (hfunc : g.HasOp func)
    (hvalid : g.Validates func) (hintegral : ∀ d, g.Inside func d → g.Integral gen d)
    (hargs : g.Accepts func args) (hroom : g.IndicesInside func args)
    (hrun : g.run func args = .ok ans) : ∃ entry, Answering gen g gone func g.ops.size entry args
      ans := by
  have hupright := Upright.of_replay history hreads hfunc hvalid
    fun d hd => (hintegral d hd).wellShaped
  obtain ⟨entry, hentry, -⟩ := run_eq_ok.mp hrun
  obtain ⟨ρ, henv, hρ⟩ := explains_of_run hupright.scene.consistent hupright.scene.ordered hentry
    (fun d hd => hupright.scene.single_of_kind hd) hrun
  refine ⟨entry, hupright, hentry, fun d hd => Or.inr (hintegral d hd), fun d hd hk => ?_, ρ, hρ,
    fun d hd _ => ?_, fun d hd hk => ?_⟩
  · -- There are no loads yet.
    have := (hintegral d hd).types.mem_integralKinds
    rw [hk] at this
    exact absurd this (by decide)
  · obtain ⟨pre, post, hl⟩ := List.append_of_mem hd.mem
    exact fits_of_explains hupright.scene hentry hintegral (hargs entry hentry) hρ pre.length pre d
      post rfl hl hd
  · have hread := hroom entry d hentry hd hk
    rwa [henv] at hread

/-- Take any function with a history that validates, reads nothing that is still to come and
consists of integer operations, and any options. If the lowering comes back, with an answer or an
error, the function it comes back with returns whatever the function returned, for all arguments
that fit its parameters and leave room for its index arithmetic. -/
theorem lower_keeps_answers {edits : List Edit} {o : LowerOptions} {g' : Graph}
    {answer : Except LowerError LowerReport} {r : List RtValue}
    (history : Edit.replay edits = .ok (g, gone)) (hreads : ∀ v, g.uses v ≠ [] → g.HasValue v)
    (hfunc : g.HasOp func) (hvalid : g.Validates func)
    (hintegral : ∀ op, g.Inside func op → g.Integral o.target op)
    (hlower : g.lower func o = .ok (g', answer)) (hargs : g.Accepts func args)
    (hroom : g.IndicesInside func args) (hrun : g.run func args = .ok r) :
    g'.run func args = .ok r := by
  obtain ⟨entry, hanswering⟩ :=
    Answering.of_run history hreads hfunc hvalid hintegral hargs hroom hrun
  exact (lower_keeps_answer hanswering).of_eq_ok hlower

/-- Lanes that are all the same fit a vector type if one of them does. -/
theorem fits_replicate {n width : Nat} {sign : Signedness} {a : Lane}
    (ha : a.normalize (.int width sign) = a) :
    RtValue.Fits (.vector (List.replicate n a)) (.vector n (.int width sign)) := by
  refine ⟨fun c hc => ?_, fun shape hs => ?_⟩
  · rw [List.eq_of_mem_replicate hc]
    exact ha
  · obtain rfl := Option.some.inj hs
    exact List.length_replicate

/-- Sixteen ones and twos still add up to sixteen threes after the lowering. -/
theorem lower_keeps_answers_sum : ∃ g' answer,
    sumGraph.lower ⟨2⟩ ⟨.aieml, 0, 10, true⟩ = .ok (g', answer) ∧
      g'.run ⟨2⟩ [.vector (List.replicate 16 (.int 1)), .vector (List.replicate 16 (.int 2))] =
        .ok [.vector (List.replicate 16 (.int 3))] := by
  have hintegral : ∀ op, sumGraph.Inside ⟨2⟩ op → sumGraph.Integral .aieml op := by
    intro op hop
    rcases sumGraph_inside hop with rfl | rfl
    · refine ⟨rfl, .binary (.vector 16 (.i 32)) (by decide), nofun, nofun, fun _ lhs rhs h => ?_⟩
      cases h
      exact iff_of_false (fun ⟨_, h, _⟩ => nomatch h) (fun ⟨_, h, _⟩ => nomatch h)
    · exact ⟨rfl, .ret _, nofun, nofun, nofun⟩
  have haccepts : sumGraph.Accepts ⟨2⟩ [.vector (List.replicate 16 (.int 1)),
      .vector (List.replicate 16 (.int 2))] := by
    rintro entry ⟨-, r, hr, hb⟩
    cases hr
    cases hb
    exact .cons (fits_replicate rfl) (.cons (fits_replicate rfl) .nil)
  have hroom : sumGraph.IndicesInside ⟨2⟩ [.vector (List.replicate 16 (.int 1)),
      .vector (List.replicate 16 (.int 2))] := by
    rintro entry op ⟨-, r, hr, hb⟩ hop hk
    -- Neither of the two operations is a read.
    cases hr
    cases hb
    have hmem : op ∈ [(⟨0⟩ : OpId), ⟨1⟩] := hop.mem
    rcases List.mem_pair.mp hmem with rfl | rfl <;> cases hk
  obtain ⟨g', answer, hlower⟩ := sumGraph_lower ⟨.aieml, 0, 10, true⟩
  exact ⟨g', answer, hlower, lower_keeps_answers sumGraph_history sumGraph_reads (by decide)
    sumGraph_validates hintegral hlower haccepts hroom (by rfl)⟩

/-! ## What is left out -/

/-- The integers that the function returns before and after its lowering, as far as it
returns any. -/
def answersAround (g : Graph) (func : OpId) (gen : Generation) (args : List RtValue) :
    Option (Option (List (List Int)) × Option (List (List Int))) :=
  let ints := fun x : Except EvalError (List RtValue) => x.toOption.map fun r => r.map RtValue.ints
  (g.lower func ⟨gen, 0, 10, true⟩).toOption.map fun (g', _) =>
    (ints (g.run func args), ints (g'.run func args))

/-- The history of a function that reads sixteen lanes that have neither bits nor a sign. -/
def emptyLanesHistory : List Edit :=
  [.createBlock [.memory [16] (.ui 0), .index],
    .createOp (Instr.transferRead (.vector 16 (.ui 0)) ⟨0⟩ [⟨1⟩] (.minorIdentity 1) none),
    .append ⟨0⟩ ⟨0⟩, .createOp (Instr.ret [⟨2⟩]), .append ⟨0⟩ ⟨1⟩, .createRegion [⟨0⟩],
    .createOp (Instr.func "read" ⟨0⟩)]

def emptyLanesGraph : Graph where
  ops := #[⟨.transferRead, [⟨0⟩, ⟨1⟩], [⟨2⟩],
      .ofList [(AttrName.permutationMap, .map (.minorIdentity 1))], [], some ⟨0⟩⟩,
    ⟨.ret, [⟨2⟩], [], .empty, [], some ⟨0⟩⟩,
    ⟨.func, [], [], .ofList [(AttrName.symName, .str "read")], [⟨0⟩], none⟩]
  values := #[⟨.argument ⟨0⟩ 0, .memory [16] (.ui 0)⟩, ⟨.argument ⟨0⟩ 1, .index⟩,
    ⟨.result ⟨0⟩ 0, .vector 16 (.ui 0)⟩]
  blocks := #[⟨[⟨0⟩, ⟨1⟩], [⟨0⟩, ⟨1⟩], some ⟨0⟩⟩]
  regions := #[⟨[⟨0⟩], some ⟨2⟩⟩]
  chains := #[[⟨⟨0⟩, 0⟩], [⟨⟨0⟩, 1⟩], [⟨⟨1⟩, 0⟩]]

/-- The history of a function that selects by a condition with a single lane. -/
def narrowSelectHistory : List Edit :=
  [.createBlock [.vector 1 (.i 1), .vector 16 (.i 32), .vector 16 (.i 32)],
    .createOp (Instr.select ⟨0⟩ ⟨⟨1⟩, .vector 16 (.i 32)⟩ ⟨2⟩), .append ⟨0⟩ ⟨0⟩,
    .createOp (Instr.ret [⟨3⟩]), .append ⟨0⟩ ⟨1⟩, .createRegion [⟨0⟩],
    .createOp (Instr.func "choose" ⟨0⟩)]

def narrowSelectGraph : Graph where
  ops := #[⟨.select, [⟨0⟩, ⟨1⟩, ⟨2⟩], [⟨3⟩], .empty, [], some ⟨0⟩⟩,
    ⟨.ret, [⟨3⟩], [], .empty, [], some ⟨0⟩⟩,
    ⟨.func, [], [], .ofList [(AttrName.symName, .str "choose")], [⟨0⟩], none⟩]
  values := #[⟨.argument ⟨0⟩ 0, .vector 1 (.i 1)⟩, ⟨.argument ⟨0⟩ 1, .vector 16 (.i 32)⟩,
    ⟨.argument ⟨0⟩ 2, .vector 16 (.i 32)⟩, ⟨.result ⟨0⟩ 0, .vector 16 (.i 32)⟩]
  blocks := #[⟨[⟨0⟩, ⟨1⟩, ⟨2⟩], [⟨0⟩, ⟨1⟩], some ⟨0⟩⟩]
  regions := #[⟨[⟨0⟩], some ⟨2⟩⟩]
  chains := #[[⟨⟨0⟩, 0⟩], [⟨⟨0⟩, 1⟩], [⟨⟨0⟩, 2⟩], [⟨⟨1⟩, 0⟩]]

/-- The history of a function that splats a lane of a vector of vectors. -/
def nestedSplatHistory : List Edit :=
  [.createBlock [.vector 4 (.vector 2 (.i 8))],
    .createOp (Instr.extract ⟨⟨0⟩, .vector 4 (.vector 2 (.i 8))⟩ 0), .append ⟨0⟩ ⟨0⟩,
    .createOp (Instr.broadcast ⟨1⟩ (.vector 8 (.i 32))), .append ⟨0⟩ ⟨1⟩,
    .createOp (Instr.ret [⟨2⟩]), .append ⟨0⟩ ⟨2⟩, .createRegion [⟨0⟩],
    .createOp (Instr.func "splat" ⟨0⟩)]

def nestedSplatGraph : Graph where
  ops := #[⟨.extract, [⟨0⟩], [⟨1⟩], .ofList [(AttrName.position, .int 0)], [], some ⟨0⟩⟩,
    ⟨.broadcast, [⟨1⟩], [⟨2⟩], .empty, [], some ⟨0⟩⟩,
    ⟨.ret, [⟨2⟩], [], .empty, [], some ⟨0⟩⟩,
    ⟨.func, [], [], .ofList [(AttrName.symName, .str "splat")], [⟨0⟩], none⟩]
  values := #[⟨.argument ⟨0⟩ 0, .vector 4 (.vector 2 (.i 8))⟩, ⟨.result ⟨0⟩ 0, .vector 2 (.i 8)⟩,
    ⟨.result ⟨1⟩ 0, .vector 8 (.i 32)⟩]
  blocks := #[⟨[⟨0⟩], [⟨0⟩, ⟨1⟩, ⟨2⟩], some ⟨0⟩⟩]
  regions := #[⟨[⟨0⟩], some ⟨3⟩⟩]
  chains := #[[⟨⟨0⟩, 0⟩], [⟨⟨1⟩, 0⟩], [⟨⟨2⟩, 0⟩]]

/-- Answers are not kept where lanes have no bits, where a condition has another number of
lanes than what is selected, and where a lane is a vector itself. -/
theorem lower_changes_answers :
    (Edit.replay emptyLanesHistory = .ok (emptyLanesGraph, []) ∧ emptyLanesGraph.Validates ⟨2⟩ ∧
      emptyLanesGraph.answersAround ⟨2⟩ .aie
        [.memory (List.replicate 16 (.int 0)), .scalar (.int 0)] =
          some (some [List.replicate 16 0], none)) ∧
    (Edit.replay narrowSelectHistory = .ok (narrowSelectGraph, []) ∧
      narrowSelectGraph.Validates ⟨2⟩ ∧
      narrowSelectGraph.answersAround ⟨2⟩ .aieml [.vector [.int 1],
        .vector (List.replicate 16 (.int 1)), .vector (List.replicate 16 (.int 2))] =
          some (some [List.replicate 16 1], some [1 :: List.replicate 15 2])) ∧
    (Edit.replay nestedSplatHistory = .ok (nestedSplatGraph, []) ∧ nestedSplatGraph.Validates ⟨3⟩ ∧
      nestedSplatGraph.answersAround ⟨3⟩ .aieml [.vector (List.replicate 4 (.int 300))] =
          some (some [List.replicate 8 44], some [List.replicate 8 300])) := by
  have hempty : Edit.replay emptyLanesHistory = .ok (emptyLanesGraph, []) := by cbv
  have hnarrow : Edit.replay narrowSelectHistory = .ok (narrowSelectGraph, []) := by cbv
  have hnested : Edit.replay nestedSplatHistory = .ok (nestedSplatGraph, []) := by cbv
  exact ⟨⟨hempty, .of_replay hempty rfl (by cbv), by decide +kernel⟩,
    ⟨hnarrow, .of_replay hnarrow rfl (by cbv), by decide +kernel⟩,
    ⟨hnested, .of_replay hnested rfl (by cbv), by decide +kernel⟩⟩

end Graph

end SimdLowering
