/-
What the two generations report.

A rule that works by recipe decides before it touches the graph, and carrying the decision out
creates operations and nothing else: it records what it changes, on any graph, whether or not the
operations make sense. The size of a load is asked for in two places, by the check of loads and
by the rule that splits them, and both use what they are told for nothing else than the question.

So what an application of either table reports is so, without further conditions.
-/
import SimdLowering.Proofs.Rewrite.Fixpoint
import SimdLowering.Proofs.Target.Queries

set_option autoImplicit false

namespace SimdLowering

open SimdLowering.Graph SimdLowering.Rules SimdLowering.AccessSizes

variable {g g' : Graph} {op : OpId} {r : Recipe} {c c' : AccessSizes} {name : String}
  {roots : List OpKind}

/-! ## Rules that work by recipe -/

/-- Creating the steps of a recipe touches nothing that was there. -/
theorem Graph.untouched_addSteps {steps : List Step} {results : List ValueId} :
    g.Untouched (addSteps steps g results).1 := by
  induction steps generalizing g results with
  | nil => exact .refl g
  | cons d ds ih => exact (untouched_addOp g _).trans ih

/-- A recipe adds to the graph and touches nothing. -/
theorem Graph.untouched_addRecipe : g.Untouched (g.addRecipe r).1 :=
  untouched_addSteps.trans (untouched_addOp ..)

variable {look : Graph → OpId → AccessSizes → Except Fault (Decision × AccessSizes)}

/-- So a rule that decides and performs records what it changes. -/
theorem Rule.recordsAt_ofSizedDecision : (Rule.ofSizedDecision name roots look).RecordsAt g op := by
  refine ⟨fun {_ _ _ outcome} hrun hpass => ?_, fun {_ _ _ edits} hrun _ => ?_⟩
  · obtain ⟨⟨d, c⟩, -, hrun⟩ := bind_eq_ok.mp hrun
    cases d with
    | decline | refuse _ =>
      cases hrun
      rfl
    | rewrite r =>
      -- A recipe has a last step, so there is something to do.
      cases hrun
      have hempty := hpass _ rfl
      simp [Edits.isEmpty] at hempty
  · obtain ⟨⟨d, c⟩, -, hrun⟩ := bind_eq_ok.mp hrun
    cases d with
    | decline | refuse _ => cases hrun
    | rewrite r =>
      cases hrun
      exact untouched_addRecipe

/-- It goes by known sizes if its decision does. -/
theorem Rule.memoized_ofSizedDecision
    (h : Memoized g fun c d c' => look g op c = .ok (d, c')) :
    Memoized g ((Rule.ofSizedDecision name roots look).asks g op) := by
  have hasks : ∀ c x c', (Rule.ofSizedDecision name roots look).asks g op c x c' ↔
      ∃ d, look g op c = .ok (d, c') ∧ d.perform g = x := by
    rintro c ⟨g₁, outcome⟩ c'
    simp only [asks, ofSizedDecision, bind_eq_ok, Prod.exists]
    constructor
    · rintro ⟨d, c₁, hlook, h⟩
      cases h
      exact ⟨d, hlook, rfl⟩
    · rintro ⟨d, hlook, hd⟩
      exact ⟨d, c', hlook, by rw [hd]; rfl⟩
  refine ⟨fun hQ => ?_, fun hQ hext => ?_⟩
  · obtain ⟨d, hlook, -⟩ := (hasks _ _ _).mp hQ
    exact h.learns hlook
  · obtain ⟨d, hlook, hx⟩ := (hasks _ _ _).mp hQ
    obtain ⟨c', hagain⟩ := h.repeats hlook hext
    exact ⟨c', (hasks _ _ _).mpr ⟨d, hagain, hx⟩⟩

/-- And by none if its decision asks for none. -/
theorem Rule.memoized_ofDecision {look : Graph → OpId → Except Fault Decision} :
    Memoized g ((Rule.ofDecision name roots look).asks g op) := by
  refine memoized_ofSizedDecision (memoized_of_silent (x := look g op) fun c d c' => ?_)
  rw [bind_eq_ok]
  constructor
  · rintro ⟨d', hd, h⟩
    cases h
    exact ⟨hd, rfl⟩
  · rintro ⟨hd, rfl⟩
    exact ⟨d, hd, rfl⟩

/-- What the splitting of loads decides at a load of the given size. -/
def splitDecision (bits : Nat) (g : Graph) (op : OpId) (size : Nat) : Except Fault Decision := do
  if size < (← fitU32 (2 * bits)) then return .decline
  else
    match ← g.memAccess? op with
    | none => return .decline
    | some access =>
      return .follow (splitPlan (← g.firstResultType op) (.value access.source)
        (access.indices.map .value) bits)

/-- The splitting of loads asks for one size and goes by the answer. -/
theorem splitUpd_eq (bits : Nat) : splitUpd bits = .ofSizedDecision "SplitUpd" [.upd]
    fun g op c => c.query g op >>= fun x =>
      (fun d => (d, x.2)) <$> splitDecision bits g op x.1 := by
  unfold splitUpd
  congr 1
  funext g op c
  refine congrArg _ (funext fun ⟨n, c'⟩ => ?_)
  unfold splitDecision
  dsimp only
  cases fitU32 (2 * bits) with
  | error e => rfl
  | ok most =>
  by_cases hlt : n < most
  · simp only [bind, Except.bind, if_pos hlt]
    rfl
  · simp only [bind, Except.bind, if_neg hlt]
    cases g.memAccess? op with
    | error e => rfl
    | ok access =>
      cases access with
      | none => rfl
      | some access =>
        cases g.firstResultType op with
        | error e => rfl
        | ok ty => rfl

theorem memoized_splitUpd (bits : Nat) : Memoized g ((splitUpd bits).asks g op) := by
  rw [splitUpd_eq]
  refine Rule.memoized_ofSizedDecision (memoized_of_query op (f := splitDecision bits g op)
    fun c d c' => ?_)
  simp only [bind_eq_ok, map_eq_ok, Prod.exists]
  refine exists_congr fun n => ?_
  constructor
  · rintro ⟨c₁, hquery, d', hd, h⟩
    cases h
    exact ⟨hquery, hd⟩
  · rintro ⟨hquery, hd⟩
    exact ⟨c', hquery, d, hd, rfl⟩

/-- The rule records what it changes and uses known sizes as answers, on every graph. -/
def Rule.Honest (rule : Rule) : Prop :=
  ∀ g op, rule.RecordsAt g op ∧ Memoized g (rule.asks g op)

/-- A rule that asks for no sizes learns nothing wrong. -/
theorem honest_ofDecision (name : String) (roots : List OpKind)
    (look : Graph → OpId → Except Fault Decision) : (Rule.ofDecision name roots look).Honest :=
  fun _ _ => ⟨Rule.recordsAt_ofSizedDecision, Rule.memoized_ofDecision⟩

/-- The one that does learns what it is told. -/
theorem honest_splitUpd (bits : Nat) : (splitUpd bits).Honest :=
  fun _ _ => ⟨Rule.recordsAt_ofSizedDecision, memoized_splitUpd bits⟩

/-- So all rules of both generations are honest. -/
theorem honest_of_mem_tables (shift : Int) : ∀ r ∈ aieRules ++ aiemlRules shift, r.Honest :=
  forall_mem_tables honest_ofDecision honest_splitUpd shift

/-! ## Checks -/

/-- The check that is said to a target, if one is, uses known sizes as answers. -/
def TargetSetting.Honest : TargetSetting → Prop
  | check _ c => ∀ g op, Memoized g fun sizes ok sizes' => c g op sizes = .ok (ok, sizes')
  | _ => True

namespace FinalForm

/-- A check that asks for no sizes is honest. -/
theorem honest_ofTest (k : OpKind) (test : Graph → OpId → Except Fault Bool) :
    TargetSetting.Honest (.check k (.ofTest test)) := by
  refine fun g op => memoized_of_silent (x := test g op) fun c ok c' => ?_
  rw [LegalityCheck.ofTest, bind_eq_ok]
  constructor
  · rintro ⟨ok', hok, h⟩
    cases h
    exact ⟨hok, rfl⟩
  · rintro ⟨hok, rfl⟩
    exact ⟨ok, hok, rfl⟩

theorem honest_ofPredicate (k : OpKind) (p : Graph → OpId → Bool) :
    TargetSetting.Honest (.check k (.ofPredicate p)) := honest_ofTest k fun g op => .ok (p g op)

theorem honest_loadFits (gen : Generation) : TargetSetting.Honest (.check .upd (loadFits gen)) := by
  refine fun g op => memoized_of_query op
    (f := fun n => .ok (decide (n ≤ gen.maxLoadBits))) fun c ok c' => ?_
  rw [loadFits, bind_eq_ok, Prod.exists]
  refine exists_congr fun n => ?_
  constructor
  · rintro ⟨c₁, hquery, h⟩
    cases h
    exact ⟨hquery, rfl⟩
  · rintro ⟨hquery, h⟩
    cases h
    exact ⟨c', hquery, rfl⟩

/-- And so are all that are set. -/
theorem settings_honest (gen : Generation) : ∀ s ∈ gen.settings, s.Honest :=
  forall_mem_settings (fun _ => trivial) (fun _ => trivial) (fun _ => trivial) honest_ofPredicate
    honest_ofTest honest_loadFits gen

end FinalForm

/-! ## What is reported of the tables -/

/-- The target of a generation uses known sizes as answers. -/
theorem Generation.asks_memoized (gen : Generation) (g : Graph) (op : OpId) :
    Memoized g (gen.conversionTarget.asks g op) :=
  ConversionTarget.memoized fun _ hcheck =>
    FinalForm.settings_honest gen _ (ConversionTarget.mem_of_checks hcheck) g op

namespace LowerOptions

variable {root : OpId} {budget : Nat} {sizes sizes' : AccessSizes} {result : ApplyResult}
  {gone : List OpId}

/-- The rules that options ask for record what they change. -/
theorem records (o : LowerOptions) (g : Graph) : o.ruleSet.Records g :=
  RuleSet.records_of_forall fun _ he g op => (honest_of_mem_tables o.shift _
    (o.mem_tables he) g op).1

/-- They and the target use known sizes as answers. -/
theorem memoized (o : LowerOptions) (g : Graph) :
    o.ruleSet.Memoized o.target.conversionTarget g := by
  refine fun _ g₁ _ op _ _ => ⟨o.target.asks_memoized g₁ op, fun e he => ?_⟩
  have hmem := (RuleSet.mem_forKind.mp he).1
  exact (honest_of_mem_tables o.shift _ (o.mem_tables hmem) g₁ op).2

/-- Where the rules of a generation come to rest, whatever function they were applied to, each
operation in it may stay, or has been refused, or is passed by every rule for its kind. -/
theorem settles (o : LowerOptions) {edits : List Edit}
    (history : Edit.replay edits = .ok (g, gone))
    (h : o.ruleSet.apply g root o.target.conversionTarget budget sizes = .ok (g', sizes', result))
    (hfix : result.fixpoint = true) (hin : g'.Inside root op) :
    (∃ c, o.target.conversionTarget.legality g' op sizes' = .ok (.legal, c)) ∨
      op ∈ result.rejected.map Rejection.op ∨
      ∀ e ∈ o.ruleSet.forKind (g'.kind op), ∃ c outcome,
        e.rule.run g' op sizes' = .ok (g', c, outcome) ∧ outcome.Passes := by
  obtain ⟨log, hlog, hplaced, hsettled⟩ := RuleSet.settled_of_fixpoint (K := Extends) course_extends
    (consistent_of_replay history).places (o.records g) (o.memoized g).along h hfix
  obtain ⟨b, hb⟩ := hplaced.blockOf?_of_inside hin
  exact (hsettled op hin).again (o.memoized g log g' hlog op b hb)

/-- One more round there does nothing. -/
theorem idles (o : LowerOptions) {edits : List Edit}
    (history : Edit.replay edits = .ok (g, gone)) (hnest : NestingAgrees g')
    (h : o.ruleSet.apply g root o.target.conversionTarget budget sizes = .ok (g', sizes', result))
    (hfix : result.fixpoint = true) :
    Yields (Application.round o.ruleSet o.target.conversionTarget root
      ⟨g', sizes', result.rejected, result.changes⟩)
      (Application.Idles ⟨g', sizes', result.rejected, result.changes⟩) := by
  obtain ⟨log, hlog, hplaced, hsettled⟩ := RuleSet.settled_of_fixpoint (K := Extends) course_extends
    (consistent_of_replay history).places (o.records g) (o.memoized g).along h hfix
  refine Application.round_again hnest (fun op hin => ?_) hsettled
  obtain ⟨b, hb⟩ := hplaced.blockOf?_of_inside hin
  exact o.memoized g log g' hlog op b hb

end LowerOptions

end SimdLowering
