/-
Functions in final form.

What is remembered of sizes agrees with the graph if it is what the loads contribute, and it goes
on to agree while sizes are asked for. A function is in final form if nothing in it is illegal, by
whatever sizes that agree. Verification then finds nothing, and where something is not legal
outright no rule is tried, so that a lowering, with any budget, makes at most one round and leaves
the function alone.

In the other direction, what verification has found nothing wrong with may stay by sizes that are
remembered from before or agree.
-/
import SimdLowering.Pipeline
import SimdLowering.Proofs.Fixpoint.Loads
import SimdLowering.Proofs.Graph.Sweeps

set_option autoImplicit false

namespace SimdLowering

open SimdLowering.Graph SimdLowering.Application SimdLowering.Rules

variable {gen : Generation} {o : LowerOptions} {g : Graph} {gone : List OpId}
  {func root x op : OpId}
  {c c' c₀ c₁ : AccessSizes} {s s' : Application} {verdict : Legality}

/-! ## Sizes that agree -/

/-- Whatever is remembered of a load is what it contributes. -/
def AccessSizes.Agrees (g : Graph) (c : AccessSizes) : Prop :=
  ∀ d n, c.get? d = some n → g.accessSize d = .ok n

theorem AccessSizes.agrees_empty (g : Graph) : AccessSizes.empty.Agrees g := nofun

/-- Asked for the size of an operation, such sizes answer with what it contributes. -/
theorem AccessSizes.Agrees.exists_query {n : Nat} (h : c.Agrees g) (hn : g.accessSize x = .ok n) :
    ∃ c', c.query g x = .ok (n, c') := by
  cases hget : c.get? x with
  | some m =>
    obtain rfl := Except.ok.inj ((h x m hget).symm.trans hn)
    exact ⟨c, query_eq_ok.mpr (Or.inl ⟨hget, rfl⟩)⟩
  | none => exact ⟨_, query_eq_ok.mpr (Or.inr ⟨hget, hn, rfl⟩)⟩

theorem AsksAtMost.agrees (h : AsksAtMost g op c c') (hc : c.Agrees g) : c'.Agrees g := by
  intro d n hn
  by_cases e : d = op
  · subst e
    exact (h.get?_self hn).elim (hc d n) id
  · exact hc d n (h.get?_of_ne e ▸ hn)

/-- The function is in final form on the generation: nothing in it is illegal by sizes that
agree. -/
def Graph.Final (g : Graph) (gen : Generation) (root : OpId) : Prop :=
  ∀ x, g.Inside root x → ∀ c, c.Agrees g →
    ∃ verdict c', gen.conversionTarget.legality g x c = .ok (verdict, c') ∧ verdict ≠ .illegal

/-! ## Verification -/

/-- Of a function in final form verification reports nothing. -/
theorem Graph.Final.verify (h : g.Final gen root) (hagrees : c.Agrees g) :
    ∃ c', gen.conversionTarget.verify g root c = .ok ([], c') := by
  rw [ConversionTarget.verify_eq_foldlM]
  obtain ⟨⟨ops, c'⟩, hrun, rfl, -⟩ := foldlM_succeeds (f := gen.conversionTarget.note g)
    (fun rest t => t.1 = [] ∧ t.2.Agrees g ∧ ∀ x ∈ rest, g.Inside root x)
    (fun x rest t ⟨hnil, hagrees, hrest⟩ => by
      obtain ⟨verdict, c', hlegal, hstays⟩ := h x (hrest x (List.mem_cons_self ..)) t.2 hagrees
      refine ⟨(t.1, c'), ?_, hnil, (Generation.legality_queries hlegal).agrees hagrees,
        fun y hy => hrest y (List.mem_cons_of_mem _ hy)⟩
      rw [ConversionTarget.note, hlegal]
      exact congrArg Except.ok (Prod.ext (if_neg hstays) rfl))
    (l := g.nested root) (s := ([], c))
    ⟨rfl, hagrees, fun x hx => mem_nested_iff.mp hx⟩
  exact ⟨c', hrun⟩

/-- Where verification reports nothing, all that is nested may stay, by sizes that were remembered
from the start or agree. -/
theorem Generation.stays_of_verify (h : gen.conversionTarget.verify g root c₀ = .ok ([], c₁))
    (hx : x ∈ g.nested root) :
    ∃ c verdict c', gen.conversionTarget.legality g x c = .ok (verdict, c') ∧ verdict ≠ .illegal ∧
      ∀ d n, c.get? d = some n → c₀.get? d = some n ∨ g.accessSize d = .ok n := by
  rw [ConversionTarget.verify_eq_foldlM] at h
  -- Invariant: `x` is still to be looked at, or it was asked about and may stay.
  have hend := foldlM_invariant (I := fun rest (t : List IllegalOp × AccessSizes) =>
      (∀ d n, t.2.get? d = some n → c₀.get? d = some n ∨ g.accessSize d = .ok n) ∧
        (t.1 = [] → x ∈ rest ∨ ∃ c verdict c', gen.conversionTarget.legality g x c =
            .ok (verdict, c') ∧ verdict ≠ .illegal ∧
          ∀ d n, c.get? d = some n → c₀.get? d = some n ∨ g.accessSize d = .ok n))
    (fun y rest t t' ⟨hknown, hall⟩ hnote => ?_) ⟨fun _ _ => Or.inl, fun _ => Or.inl hx⟩ h
  · exact (hend.2 rfl).resolve_left List.not_mem_nil
  obtain ⟨⟨verdict, c⟩, hlegal, hnote⟩ := bind_eq_ok.mp hnote
  cases hnote
  have hasks := Generation.legality_queries hlegal
  refine ⟨fun d n hn => ?_, fun hnil => ?_⟩
  -- An answer that is new was computed on this graph.
  · by_cases e : d = y
    · subst e
      exact (hasks.get?_self hn).elim (hknown d n) Or.inr
    · exact hknown d n (hasks.get?_of_ne e ▸ hn)
  · dsimp only at hnil
    by_cases hv : verdict = .illegal
    · rw [if_pos hv] at hnil
      exact absurd hnil (by simp)
    · rw [if_neg hv] at hnil
      rcases hall hnil with hmem | hstays
      · rcases List.mem_cons.mp hmem with rfl | hmem
        · exact Or.inr ⟨_, _, _, hlegal, hv, hknown⟩
        · exact Or.inl hmem
      · exact Or.inr hstays

/-! ## Lowering again -/

/-- On either generation no rule is tried on an operation about which nothing was said. -/
theorem forKind_of_unknown
    (h : o.target.conversionTarget.legality g x c = .ok (.unknown, c')) :
    o.ruleSet.forKind (g.kind x) = [] := by
  have hnothing : (o.target.conversionTarget.checks (g.kind x)).isSome = false ∧
      (o.target.conversionTarget.kindLegality (g.kind x) != .unknown) = false := by
    cases hcheck : o.target.conversionTarget.checks (g.kind x) with
    | some check =>
      obtain ⟨ok, -, h⟩ := (ConversionTarget.legality_eq_ok_of_check hcheck).mp h
      cases ok <;> cases h
    | none =>
      rw [ConversionTarget.legality_of_kind hcheck, Except.ok.injEq, Prod.mk.injEq] at h
      exact ⟨rfl, by simp only [h.1, bne_self_eq_false]⟩
  -- Every rule is rooted at a kind that the target says something about, as the tables show.
  refine List.eq_nil_iff_forall_not_mem.mpr fun e he => ?_
  obtain ⟨he, hroot⟩ := RuleSet.mem_forKind.mp he
  have said : ((o.target.conversionTarget.checks (g.kind x)).isSome ||
      o.target.conversionTarget.kindLegality (g.kind x) != .unknown) = true := by
    unfold LowerOptions.ruleSet at he
    cases ht : o.target with
    | aie =>
      rw [ht] at he
      have tables : aieRules.all fun r => r.roots.all fun k =>
          (Generation.aie.conversionTarget.checks k).isSome ||
            Generation.aie.conversionTarget.kindLegality k != .unknown := rfl
      exact List.all_eq_true.mp (List.all_eq_true.mp tables e.rule
        (RuleSet.mem_entries_ofList he)) _ hroot
    | aieml =>
      rw [ht] at he
      have tables : (aiemlRules o.shift).all fun r => r.roots.all fun k =>
          (Generation.aieml.conversionTarget.checks k).isSome ||
            Generation.aieml.conversionTarget.kindLegality k != .unknown := rfl
      exact List.all_eq_true.mp (List.all_eq_true.mp tables e.rule
        (RuleSet.mem_entries_ofList he)) _ hroot
  rw [hnothing.1, hnothing.2] at said
  cases said

/-- Only sizes have been asked for, and they agree. -/
structure Untouched (g : Graph) (s : Application) : Prop where
  graph : s.graph = g
  rejected : s.rejected = []
  changes : s.changes = 0
  agrees : s.sizes.Agrees g

/-- A visit to a function in final form leaves it alone. -/
theorem Untouched.visit (hfinal : g.Final o.target root) (h : Untouched g s)
    (hx : g.Inside root x) : ∃ s', s.visitOp o.ruleSet o.target.conversionTarget x = .ok s' ∧
      Untouched g s' := by
  obtain ⟨verdict, c, hlegal, hstays⟩ := hfinal x hx s.sizes h.agrees
  have hsame : Untouched g { s with sizes := c } :=
    ⟨h.graph, h.rejected, h.changes, (Generation.legality_queries hlegal).agrees h.agrees⟩
  refine ⟨_, ?_, hsame⟩
  unfold visitOp
  rw [h.graph, hlegal]
  dsimp only [bind, Except.bind]
  split
  · rfl
  · next hopen =>
    cases verdict with
    | legal => exact absurd rfl hopen
    | illegal => exact absurd rfl hstays
    | unknown =>
      rw [forKind_of_unknown hlegal]
      rfl

section

variable (hfinal : g.Final o.target root) (hc : Consistent g gone) (acyclic : ¬ g.Inside root root)
include hfinal hc acyclic

/-- So does a round. -/
theorem Untouched.round (h : Untouched g s) :
    ∃ s', s.round o.ruleSet o.target.conversionTarget root = .ok s' ∧ Untouched g s' := by
  have hkeep : VisitsKeep o.ruleSet o.target.conversionTarget root (Untouched g) := by
    intro s x s' hs hin hv
    obtain ⟨t, ht, hsame⟩ := hs.visit hfinal (hs.graph ▸ hin)
    obtain rfl := Except.ok.inj (ht.symm.trans hv)
    exact ⟨hsame, Or.inl (hsame.graph.trans hs.graph.symm)⟩
  have hground : ∀ s, Untouched g s → ∃ gone, Consistent s.graph gone ∧
      ¬ s.graph.Inside root root := fun s hs => ⟨gone, hs.graph.symm ▸ ⟨hc, acyclic⟩⟩
  rw [round_eq_foldlM hkeep hground h, h.graph]
  obtain ⟨s', hrun, hend, -⟩ := foldlM_succeeds (fun rest t => Untouched g t ∧
      ∀ x ∈ rest, g.Inside root x) (fun x rest t ⟨ht, hrest⟩ => by
        obtain ⟨t', hrun, ht'⟩ := ht.visit hfinal (hrest x (List.mem_cons_self ..))
        exact ⟨t', hrun, ht', fun y hy => hrest y (List.mem_cons_of_mem _ hy)⟩)
    (l := g.postorder root) ⟨h, fun x hx => (mem_postorder hc acyclic).mp hx⟩
  exact ⟨s', hrun, hend⟩

/-- And so do rounds, however many are allowed, since one is enough. -/
theorem Untouched.rounds (h : Untouched g s) (left done : Nat) :
    ∃ s' n fixpoint, Application.rounds o.ruleSet o.target.conversionTarget root left done s =
      .ok (s', n, fixpoint) ∧ Untouched g s' := by
  cases left with
  | zero => exact ⟨s, done, false, rfl, h⟩
  | succ left =>
    obtain ⟨t, hround, ht⟩ := h.round hfinal hc acyclic
    refine ⟨t, done + 1, true, ?_, ht⟩
    rw [Application.rounds, hround]
    dsimp only [bind, Except.bind]
    rw [if_pos (ht.changes.trans h.changes.symm)]
    rfl

end

/-- A lowering of a function in final form succeeds, with nothing rewritten and nothing left that
may not stay. -/
theorem Graph.Final.lower (hfinal : g.Final o.target func) (hc : Consistent g gone)
    (hvalid : g.Valid func gone) (hop : g.HasOp func) (hfunc : g.kind func = .func) :
    ∃ n, g.lower func o = .ok (g, .ok ⟨o.target, n, 0, []⟩) := by
  obtain ⟨s, n, fixpoint, hrounds, hs⟩ := Untouched.rounds (s := .start g .empty) hfinal hc
    hvalid.acyclic ⟨rfl, rfl, rfl, AccessSizes.agrees_empty g⟩ o.maxIterations 0
  obtain ⟨c', hverify⟩ := hfinal.verify hs.agrees
  have happly : o.ruleSet.apply g func o.target.conversionTarget o.maxIterations .empty =
      .ok (g, s.sizes, ⟨n, 0, fixpoint, []⟩) := by
    refine bind_eq_ok.mpr ⟨_, hrounds, ?_⟩
    dsimp only
    rw [hs.graph, hs.changes, hs.rejected]
    rfl
  refine ⟨n, ?_⟩
  unfold Graph.lower
  rw [op?_eq_some hop, if_neg (by simp), if_neg (not_not_intro hfunc)]
  refine bind_eq_ok.mpr ⟨_, happly, bind_eq_ok.mpr ⟨_, hverify, ?_⟩⟩
  dsimp only
  rw [if_neg (by simp), (requireValid_eq_ok hc hvalid.acyclic).mpr hvalid]
  rfl

/-- The default pipeline leaves a function alone that is in final form and has no dead
operations. -/
theorem Graph.Final.run (hfinal : g.Final o.target func) (hc : Consistent g gone)
    (hvalid : g.Valid func gone) (hop : g.HasOp func) (hfunc : g.kind func = .func)
    (hlive : ∀ x, g.Inside func x → g.isDead x = false) :
    ∃ n, (Pipeline.withDefaultCleanups o).run g func =
      .ok (g, .ok ⟨⟨o.target, n, 0, []⟩, [("dce", 0)]⟩) := by
  obtain ⟨n, hlower⟩ := hfinal.lower hc hvalid hop hfunc
  refine ⟨n, ?_⟩
  simp only [Pipeline.run, Pipeline.withDefaultCleanups, hlower, Pipeline.runCleanups,
    Cleanup.deadCode, eliminateDead_of_live hlive, bind, Except.bind, pure, Except.pure,
    (requireValid_eq_ok hc hvalid.acyclic).mpr hvalid]

end SimdLowering
