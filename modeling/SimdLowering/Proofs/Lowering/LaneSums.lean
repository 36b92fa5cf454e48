/-
Which lanewise sums and differences a lowering creates.

Every rewrite adds the instructions of one recipe, and the types of the lanewise sums among them
are known for each rule. What a rule has to know of the function for this, that extensions give as
many lanes as they read, stays true when other operations are rewritten; and so does that a sum has
no single operand which is extended from sixteen bits, since extensions are never rewritten and
what rules create is neither an extension nor a generic sum. So the list of shapes is kept by whole
lowerings, with the one exception that the rules have.
-/
import SimdLowering.Proofs.Lowering.Rounds
import SimdLowering.Proofs.Integral.Tables
import SimdLowering.Proofs.Rules.LaneSums

set_option autoImplicit false

namespace SimdLowering

namespace Graph

variable {g₀ g g' : Graph} {gone : List OpId} {func op x : OpId} {b : BlockId} {old : ValueId}
  {r : Recipe} {size : Nat}

section

variable (hs : Spliced g g' gone op b old r) (h : Scene g gone func) (hin : g.Inside func op)
  (hr : r.Lawful g func op)
include hs h hr

theorem ExtendsLanes.spliced (hx : g.Inside func x) (he : g.ExtendsLanes x) :
    g'.ExtendsLanes x := by
  have hop := hx.hasOp h.consistent.toNestingAgrees
  have hreads := hs.typesOf_operands hr hop
    fun v hv => h.ordered.hasValue_of_mem_operands h.consistent hx hv
  refine ⟨fun hk => ?_, fun hk => ?_⟩
  · rw [hs.kind_of_hasOp hop] at hk
    rw [hreads, hs.resultTypes_of_hasOp hop]
    exact he.lanes hk
  · rw [hs.kind_of_hasOp hop] at hk
    rw [hreads]
    exact he.floats hk

/-- A sum with one extended operand was one before. -/
theorem OneSided.of_spliced (hext : g.kind op ≠ .extsi) (hx : g.Inside func x)
    (ho : g'.OneSided x) : g.OneSided x := by
  have hop := hx.hasOp h.consistent.toNestingAgrees
  obtain ⟨hkind, hshape, l', r', hleft, hright, hiff⟩ := ho
  rw [hs.kind_of_hasOp hop] at hkind
  rw [hs.resultShape?_of_hasOp hop] at hshape
  rw [hs.operands_of_inside h hx, List.getElem?_map] at hleft hright
  obtain ⟨lhs, hlhs, rfl⟩ := Option.map_eq_some_iff.mp hleft
  obtain ⟨rhs, hrhs, rfl⟩ := Option.map_eq_some_iff.mp hright
  rw [hs.widenedFrom_renamed h hr hext hx (List.mem_of_getElem? hlhs),
    hs.widenedFrom_renamed h hr hext hx (List.mem_of_getElem? hrhs)] at hiff
  exact ⟨hkind, hshape, lhs, rhs, hlhs, hrhs, hiff⟩

end

/-- What is known of a function that is being lowered, which began as `g₀` with `size` operations:
extensions keep the lanes, each sum with one extended operand was there from the start, and of the
lanewise sums among the new operations, those that are not on the list are there for such a sum. -/
structure SumsListed (g₀ : Graph) (func : OpId) (size : Nat) (g : Graph) : Prop where
  extensions : ∀ x, g.Inside func x → g.ExtendsLanes x
  oneSided : ∀ x, g.Inside func x → g.OneSided x → g₀.Inside func x ∧ g₀.OneSided x
  listed : ∀ x, size ≤ x.index → g.HasOp x → (g.kind x).isLaneSum = true →
    ∃ s, g.resultShape? x = some s ∧ (s.isElementwise = true ∨
      (s.pair = (16, 64) ∧ ∃ y, g₀.Inside func y ∧ g₀.OneSided y))

theorem SumsListed.start (hext : ∀ x, g.Inside func x → g.ExtendsLanes x) :
    g.SumsListed func g.ops.size g where
  extensions := hext
  oneSided _ hx ho := ⟨hx, ho⟩
  listed _ hsize hop := absurd hop (Nat.not_lt.mpr hsize)

theorem SumsListed.spliced (hl : g₀.SumsListed func size g) (hs : Spliced g g' gone op b old r)
    (h : Scene g gone func) (hin : g.Inside func op) (hr : r.Lawful g func op)
    (hext : g.kind op ≠ .extsi) (hsums : ∀ d ∈ r.all, SumsIn (g.SumTy op) d) :
    g₀.SumsListed func size g' := by
  refine ⟨fun x hx => ?_, fun x hx ho => ?_, fun x hsize hop hk => ?_⟩
  · rcases (hs.inside_iff hin).mp hx with ⟨hx, -⟩ | hnew
    · exact (hl.extensions x hx).spliced hs h hr hx
    -- What rules create is never an extension, so nothing is asked of it.
    · obtain ⟨i, d, hd, rfl⟩ := mem_nextOps_all.mp hnew
      have hlowered := (hr.steps i d hd).lowered
      rw [← hs.kind_made hd] at hlowered
      exact .of_kind ⟨fun hk => absurd (hk ▸ hlowered) (by decide),
        fun hk => absurd (hk ▸ hlowered) (by decide)⟩
  · rcases (hs.inside_iff hin).mp hx with ⟨hx, -⟩ | hnew
    · exact hl.oneSided x hx (ho.of_spliced hs h hr hext hx)
    -- Nor is it a generic sum.
    · obtain ⟨i, d, hd, rfl⟩ := mem_nextOps_all.mp hnew
      have hlowered := (hr.steps i d hd).lowered
      rw [← hs.kind_made hd] at hlowered
      have hgeneric : ∀ k ∈ [OpKind.addi, .subi, .addf, .subf], k.isLowered = false := by decide
      rw [hgeneric _ ho.kind] at hlowered
      cases hlowered
  · rcases hs.hasOp_iff.mp hop with hop | ⟨i, d, hd, rfl⟩
    · rw [hs.kind_of_hasOp hop] at hk
      rw [hs.resultShape?_of_hasOp hop]
      exact hl.listed x hsize hop hk
    · rw [hs.kind_made hd] at hk
      have hshape : g'.resultShape? ⟨g.ops.size + i⟩ = d.resultType.vectorShape := by
        rw [resultShape?_eq (hs.results_made hd), value, hs.value?_made hd]
        rfl
      rw [hshape]
      rcases hsums d (List.mem_of_getElem? hd) hk with ⟨s, hs', helem⟩ | ⟨ho, s, hs', hpair⟩
      · exact ⟨s, hs', Or.inl helem⟩
      · exact ⟨s, hs', Or.inr ⟨hpair, op, hl.oneSided op hin ho⟩⟩

end Graph

open SimdLowering.Application SimdLowering.Graph

variable {o : LowerOptions} {func op : OpId} {size : Nat} {gone : List OpId}
  {s t t' : Application}

/-- Whatever rule has been tried, it has written lanewise sums of types that they may have. -/
theorem LowerOptions.writesSums (htarget : o.target = .aieml) {e : RuleEntry}
    (he : e ∈ o.ruleSet.entries) : e.rule.WritesSums := by
  unfold LowerOptions.ruleSet at he
  rw [htarget] at he
  exact Rules.aiemlRules_sums o.shift _ (RuleSet.mem_entries_ofList he)

theorem Application.Visited.keeps_sumsListed {g₀ : Graph} {Q : AccessSizes → AccessSizes → Prop}
    {c₀ : AccessSizes} (htarget : o.target = .aieml) (h : Scene t.graph gone func)
    (hin : t.graph.Inside func op)
    (hv : Visited o.ruleSet o.target.conversionTarget Q func gone c₀ t op t')
    (hl : g₀.SumsListed func size t.graph) : g₀.SumsListed func size t'.graph := by
  cases hv with
  | same hg => rwa [hg]
  | rewritten b old r hrw =>
    obtain ⟨e, he, hk, c, c', -, hrun, -⟩ := hrw.rule
    have hext : t.graph.kind op ≠ .extsi := fun e' => root_ne_extsi he (e' ▸ hk)
    exact hl.spliced hrw.spliced h hin hrw.lawful hext
      (LowerOptions.writesSums htarget he _ _ _ _ h hin hk hl.extensions _ _ _ hrw.lawful hrun)

/-- Wherever visits lead, new lanewise sums are on the list but for the exception. -/
theorem sumsListed_of_visits {g₀ : Graph} (htarget : o.target = .aieml) (h : UprightAt func size s)
    (hl : g₀.SumsListed func size s.graph)
    (hv : Relation.ReflTransGen (VisitTo o.ruleSet o.target.conversionTarget func) s t) :
    g₀.SumsListed func size t.graph :=
  h.visits_induction (P := fun t => g₀.SumsListed func size t.graph) hl
    (fun ht hin hv hl => (LowerOptions.visited ht hin (tracks_any ..) hv).keeps_sumsListed htarget
      ht.scene hin hl) hv

namespace Graph

variable {g g' : Graph}

/-- Take any function with a history that validates, reads nothing that is still to come, is made
in the generic vocabulary and extends lane by lane, on the second generation and with any shift.
Whatever the lowering answers, each lanewise sum or difference that it has created, also where it
has been removed again, has a shape that is on the list; unless it has sixteen lanes of sixty-four
bits, and the function has a sum or difference of which one operand alone is extended from sixteen
bits. -/
theorem lower_laneSums {edits : List Edit} {o : LowerOptions} (htarget : o.target = .aieml)
    (history : Edit.replay edits = .ok (g, gone)) (hreads : ∀ v, g.uses v ≠ [] → g.HasValue v)
    (hfunc : g.HasOp func) (hvalid : g.Validates func)
    (hgeneric : ∀ op, g.Inside func op → g.Generic op)
    (hextends : ∀ op, g.Inside func op → g.ExtendsLanes op)
    {answer : Except LowerError LowerReport} (hlower : g.lower func o = .ok (g', answer))
    (hnew : ¬ g.HasOp op) (hop : g'.HasOp op) (hk : (g'.kind op).isLaneSum = true) :
    ∃ s, g'.resultShape? op = some s ∧ (s.isElementwise = true ∨
      (s.pair = (16, 64) ∧ ∃ x, g.Inside func x ∧ g.OneSided x)) := by
  have hg := Upright.of_replay history hreads hfunc hvalid
    fun op hop => (hgeneric op hop).wellShaped
  obtain ⟨s, hvisits, rfl⟩ := lower_visits hg hlower
  have hl := sumsListed_of_visits htarget (s := .start g .empty) ⟨gone, hg⟩
    (SumsListed.start hextends) hvisits
  exact hl.listed op (Nat.not_lt.mp hnew) hop hk

/-- The history of a function that returns the sum of a vector and an extended one. -/
def carryHistory : List Edit :=
  [.createBlock [.vector 16 (.i 32), .vector 16 (.i 16)],
    .createOp (Instr.extsi ⟨1⟩ (.vector 16 (.i 32))), .append ⟨0⟩ ⟨0⟩,
    .createOp (Instr.binary .addi ⟨⟨0⟩, .vector 16 (.i 32)⟩ ⟨2⟩), .append ⟨0⟩ ⟨1⟩,
    .createOp (Instr.ret [⟨3⟩]), .append ⟨0⟩ ⟨2⟩, .createRegion [⟨0⟩],
    .createOp (Instr.func "carry" ⟨0⟩)]

/-- The graph the history ends with. -/
def carryGraph : Graph where
  ops := #[⟨.extsi, [⟨1⟩], [⟨2⟩], .empty, [], some ⟨0⟩⟩,
    ⟨.addi, [⟨0⟩, ⟨2⟩], [⟨3⟩], .empty, [], some ⟨0⟩⟩, ⟨.ret, [⟨3⟩], [], .empty, [], some ⟨0⟩⟩,
    ⟨.func, [], [], .ofList [(AttrName.symName, .str "carry")], [⟨0⟩], none⟩]
  values := #[⟨.argument ⟨0⟩ 0, .vector 16 (.i 32)⟩, ⟨.argument ⟨0⟩ 1, .vector 16 (.i 16)⟩,
    ⟨.result ⟨0⟩ 0, .vector 16 (.i 32)⟩, ⟨.result ⟨1⟩ 0, .vector 16 (.i 32)⟩]
  blocks := #[⟨[⟨0⟩, ⟨1⟩], [⟨0⟩, ⟨1⟩, ⟨2⟩], some ⟨0⟩⟩]
  regions := #[⟨[⟨0⟩], some ⟨3⟩⟩]
  chains := #[[⟨⟨1⟩, 0⟩], [⟨⟨0⟩, 0⟩], [⟨⟨1⟩, 1⟩], [⟨⟨2⟩, 0⟩]]

theorem carryGraph_inside {op : OpId} (hop : carryGraph.Inside ⟨3⟩ op) :
    op ∈ [⟨0⟩, ⟨1⟩, ⟨2⟩] := by
  have hlist : carryGraph.nested ⟨3⟩ = [⟨0⟩, ⟨1⟩, ⟨2⟩] := by decide
  exact hlist ▸ mem_nested_iff.mpr hop

theorem carryGraph_generic {op : OpId} (hop : carryGraph.Inside ⟨3⟩ op) :
    carryGraph.Generic op := by
  have hmem := carryGraph_inside hop
  simp only [List.mem_cons, List.not_mem_nil, or_false] at hmem
  rcases hmem with rfl | rfl | rfl
  · refine ⟨⟨_, .extsi ⟨1⟩ (.vector 16 (.i 32)), rfl, rfl, rfl, rfl, rfl⟩, fun n elem h => ?_⟩
    cases List.mem_singleton.mp h
    decide
  · refine ⟨⟨_, .binary .addi ⟨0⟩ ⟨2⟩ (by decide), rfl, rfl, rfl, rfl, rfl⟩, fun n elem h => ?_⟩
    cases List.mem_singleton.mp h
    decide
  · exact ⟨⟨_, .ret [⟨3⟩], rfl, rfl, rfl, rfl, rfl⟩, fun n elem h => by cases h⟩

theorem carryGraph_extendsLanes {op : OpId} (hop : carryGraph.Inside ⟨3⟩ op) :
    carryGraph.ExtendsLanes op := by
  have hmem := carryGraph_inside hop
  simp only [List.mem_cons, List.not_mem_nil, or_false] at hmem
  rcases hmem with rfl | rfl | rfl
  · refine ⟨fun _ s hs t ht => ?_, nofun⟩
    cases List.mem_singleton.mp hs
    cases List.mem_singleton.mp ht
    rfl
  · exact .of_kind (by decide)
  · exact .of_kind (by decide)

/-- The sum is lowered through an accumulator of sixteen lanes of sixty-four bits, so it must be one
of which one operand alone is extended from sixteen bits. -/
theorem lower_laneSums_carry : ∃ g' answer,
    carryGraph.lower ⟨3⟩ ⟨.aieml, 0, 10, true⟩ = .ok (g', answer) ∧ g'.kind ⟨6⟩ = .addElem ∧
      g'.resultShape? ⟨6⟩ = some ⟨16, .i 64, 64, false⟩ ∧
      ∃ x, carryGraph.Inside ⟨3⟩ x ∧ carryGraph.OneSided x := by
  have history : Edit.replay carryHistory = .ok (carryGraph, []) := by cbv
  have hmade : (carryGraph.lower ⟨3⟩ ⟨.aieml, 0, 10, true⟩).map
      (fun x => (x.1.ops.size, x.1.kind ⟨6⟩, x.1.resultShape? ⟨6⟩)) =
        .ok (8, .addElem, some ⟨16, .i 64, 64, false⟩) := by cbv
  obtain ⟨⟨g', answer⟩, hrun, hmade⟩ := map_eq_ok.mp hmade
  obtain ⟨hsize, hmade⟩ := Prod.mk.inj hmade
  obtain ⟨hkind, hshape⟩ := Prod.mk.inj hmade
  have hop : g'.HasOp ⟨6⟩ := by
    rw [HasOp, hsize]
    decide
  obtain ⟨s, hs, hlisted⟩ := lower_laneSums (o := ⟨.aieml, 0, 10, true⟩) rfl history
    (hasValue_of_uses (Nat.le_refl 4)) (by decide) (.of_replay history rfl (by cbv))
    (fun _ => carryGraph_generic) (fun _ => carryGraph_extendsLanes) hrun
    (by decide) hop (by rw [hkind]; rfl)
  -- The shape is not one of the table, so the general theorem names the sum that it came from.
  obtain rfl := Option.some.inj (hs.symm.trans hshape)
  refine ⟨g', answer, hrun, hkind, hshape, ?_⟩
  exact (hlisted.resolve_left (by decide)).2

end Graph

end SimdLowering
