/-
Lawful rules, and what one visit does.

A rule is lawful if in every scene it answers, and if what it wants built reads only what
the operation it stands at can read, has the type that operation had, and is shaped as the
kinds of its steps demand. Which values a rule goes for is its own affair; being lawful is
all that the machinery asks of it, and with it a visit cannot fail: either the graph stays
as it was, or a lawful recipe is spliced in and there is a scene again.
-/
import SimdLowering.Proofs.Rewrite.Scene
import SimdLowering.Proofs.Rewrite.SpliceOrder
import SimdLowering.Proofs.Rewrite.TrialOrder

set_option autoImplicit false

namespace SimdLowering

/-! ## Lawful recipes -/

/-- What a recipe for an operation has to work with. -/
structure Site where
  /-- The values that may be read. -/
  reads : ValueId → Prop
  /-- The types that loads among the steps may have. -/
  loads : Ty → Prop
  /-- Whether there may be multiply-adds among the steps. -/
  macs : Prop

/-- At an operation, what is at hand may be read, loads come from reads and other loads
only, of which they have the type, and multiply-adds from products or each other. -/
def Graph.site (g : Graph) (root op : OpId) : Site :=
  ⟨g.AtHand root op, fun ty => (g.kind op = .transferRead ∨ g.kind op = .upd) ∧
      ∀ old ∈ g.results op, (g.value old).ty = ty,
    g.kind op = .fma ∨ ∃ d, g.Inside root d ∧ g.kind d = .muli⟩

/-- The step can be created after `n` others, is of a kind that rules create, and has the
operands this kind needs. -/
structure StepOk (R : Site) (n : Nat) (d : Step) : Prop extends StepFine R.reads n d where
  lowered : d.kind.isLowered = true
  arity : d.kind.arity ≤ d.operands.length
  loads : d.kind = .upd → R.loads d.resultType ∧ 0 ≤ d.attrs.intOrZero AttrName.offset
  macs : d.kind = .fma → R.macs

/-- A step that can be created in a context is entered in it by its type. -/
def Builds (R : Site) (Γ : List Ty) (d : Step) (t : Ty) : Prop :=
  StepOk R Γ.length d ∧ t = d.resultType

/-- The last step of a recipe can be created too, has the given type, and is no constant:
rules do not compute results. -/
def EndsAs (R : Site) (ty : Ty) (Γ : List Ty) (d : Step) : Prop :=
  StepOk R Γ.length d ∧ d.resultType = ty ∧ d.kind ≠ .constant

/-- The recipe may take the place of the operation. -/
structure Recipe.Lawful (g : Graph) (root op : OpId) (r : Recipe) : Prop where
  steps : ∀ i d, r.all[i]? = some d → StepOk (g.site root op) i d
  typed : ∀ old ∈ g.results op, r.final.resultType = (g.value old).ty
  ends : r.final.kind ≠ .constant

/-- The decision may be carried out at the operation. -/
def Decision.Lawful (g : Graph) (root op : OpId) : Decision → Prop
  | decline => True
  | refuse _ => True
  | rewrite r => r.Lawful g root op

/-- A lawful recipe reads what is at hand. -/
theorem Recipe.Lawful.fine {g : Graph} {root op : OpId} {r : Recipe} (h : r.Lawful g root op) :
    r.Fine (g.AtHand root op) :=
  fun i d hd => (h.steps i d hd).toStepFine

/-- And so what is visible. -/
theorem Recipe.Lawful.visible {g : Graph} {root op : OpId} {r : Recipe}
    (h : r.Lawful g root op) : r.Fine (g.Visible root op) :=
  fun i d hd => (h.fine i d hd).mono (fun _ hv => hv.visible) (Nat.le_refl i)

/-- And so what is there. -/
theorem Recipe.Lawful.hasValue {g : Graph} {gone : List OpId} {root op : OpId} {r : Recipe}
    (h : r.Lawful g root op) (hc : Graph.Consistent g gone) : r.Fine g.HasValue :=
  fun i d hd => (h.visible i d hd).mono (fun _ hv => hv.hasValue hc) (Nat.le_refl i)

/-- Plans are checked step by step. -/
theorem Recipe.Lawful.of_makes {g : Graph} {root op : OpId} {old : ValueId} {p : Plan Step}
    (hold : g.results op = [old])
    (h : p.Makes (Builds (g.site root op)) [] (EndsAs (g.site root op) (g.value old).ty)) :
    p.toRecipe.Lawful g root op := by
  obtain ⟨Γ, ht, hfinal, hty, hends⟩ := h.toRecipe
  have hlen := ht.length
  simp only [List.length_nil, Nat.zero_add] at hlen
  refine ⟨fun i d hd => ?_, fun v hv => ?_, hends⟩
  · rcases Recipe.getElem?_all_eq_some.mp hd with hd | ⟨rfl, rfl⟩
    · obtain ⟨t, hΓ, hb, -⟩ := ht.getElem? hd
      simp only [List.length_nil, Nat.zero_add, List.length_take] at hb hΓ
      have hi : i < Γ.length := (List.getElem?_eq_some_iff.mp hΓ).1
      rwa [Nat.min_eq_left (Nat.le_of_lt hi)] at hb
    · exact hlen ▸ hfinal
  · rw [hold, List.mem_singleton] at hv
    rw [hv]
    exact hty

/-- With the sizes remembered so far, the target does not stop the rules for the operation
from being tried. -/
def ConversionTarget.OpenAt (target : ConversionTarget) (g : Graph) (op : OpId)
    (sizes : AccessSizes) : Prop :=
  ∃ verdict sizes', target.legality g op sizes = .ok (verdict, sizes') ∧ verdict ≠ .legal

/-- The target need not stop the rules for the operation from being tried. -/
def ConversionTarget.Open (target : ConversionTarget) (g : Graph) (op : OpId) : Prop :=
  ∃ sizes, target.OpenAt g op sizes

/-- The target has a verdict on every operation of a scene, unless a number is too large. -/
def ConversionTarget.Total (target : ConversionTarget) : Prop :=
  ∀ g gone root op sizes, Graph.Scene g gone root → g.Inside root op →
    YieldsUnless (g.Overflows op) (target.legality g op sizes) fun _ => True

/-- The rule works by recipe: it answers in every scene, with something lawful, unless it
stands at a read without lanes or a number is too large, and is tried on operations with results
only. -/
structure Rule.Lawful (target : ConversionTarget) (rule : Rule) : Prop where
  computes : .func ∉ rule.roots ∧ .ret ∉ rule.roots
  answers : ∀ g gone root op sizes, Graph.Scene g gone root → g.Inside root op →
    g.kind op ∈ rule.roots → target.Open g op →
    YieldsUnless (g.Excuses op) (rule.run g op sizes) fun x =>
      ∃ decision : Decision, decision.Lawful g root op ∧
        x = ((decision.perform g).1, x.2.1, (decision.perform g).2)

/-- A rule that works by recipe is lawful if its decisions are. -/
theorem Rule.Lawful.ofSizedDecision {target : ConversionTarget} {name : String}
    {roots : List OpKind}
    {look : Graph → OpId → AccessSizes → Except Fault (Decision × AccessSizes)}
    (hroots : .func ∉ roots ∧ .ret ∉ roots)
    (h : ∀ g gone root op sizes, Graph.Scene g gone root → g.Inside root op → g.kind op ∈ roots →
      target.Open g op →
      YieldsUnless (g.Excuses op) (look g op sizes) fun d => d.1.Lawful g root op) :
    (Rule.ofSizedDecision name roots look).Lawful target where
  computes := hroots
  answers g gone root op sizes hs hin hk ho :=
    (h g gone root op sizes hs hin hk ho).bind fun d hd => .pure ⟨d.1, hd, rfl⟩

/-- Where no lanes are divided by, only a number that is too large can keep it from deciding. -/
theorem Rule.Lawful.ofChecked {target : ConversionTarget} {name : String} {roots : List OpKind}
    {look : Graph → OpId → Except Fault Decision} (hroots : .func ∉ roots ∧ .ret ∉ roots)
    (h : ∀ g gone root op, Graph.Scene g gone root → g.Inside root op → g.kind op ∈ roots →
      target.Open g op → YieldsUnless (g.Overflows op) (look g op) (Decision.Lawful g root op)) :
    (Rule.ofDecision name roots look).Lawful target :=
  .ofSizedDecision hroots fun g gone root op _ hs hin hk ho =>
    (Graph.excused (h g gone root op hs hin hk ho)).bind fun _ hd => .pure hd

/-- A rule is lawful if its decisions are, on open operations of its kinds. -/
theorem Rule.Lawful.ofDecision {target : ConversionTarget} {name : String} {roots : List OpKind}
    {look : Graph → OpId → Except Fault Decision} (hroots : .func ∉ roots ∧ .ret ∉ roots)
    (h : ∀ g gone root op, Graph.Scene g gone root → g.Inside root op → g.kind op ∈ roots →
      target.Open g op → Yields (look g op) (Decision.Lawful g root op)) :
    (Rule.ofDecision name roots look).Lawful target :=
  .ofChecked hroots fun g gone root op hs hin hk ho => (h g gone root op hs hin hk ho).unless

/-- A rule that works by recipe answers with what it has decided. -/
theorem Rule.run_ofSizedDecision_eq_ok {name : String} {roots : List OpKind}
    {look : Graph → OpId → AccessSizes → Except Fault (Decision × AccessSizes)} {g g' : Graph}
    {op : OpId} {c c' : AccessSizes} {outcome : Outcome} :
    (Rule.ofSizedDecision name roots look).run g op c = .ok (g', c', outcome) ↔
      ∃ decision, look g op c = .ok (decision, c') ∧ decision.perform g = (g', outcome) := by
  constructor
  · intro h
    obtain ⟨⟨decision, c₁⟩, hlook, h⟩ := bind_eq_ok.mp h
    cases h
    exact ⟨decision, hlook, rfl⟩
  · rintro ⟨decision, hlook, hperform⟩
    refine bind_eq_ok.mpr ⟨(decision, c'), hlook, ?_⟩
    dsimp only
    rw [hperform]
    rfl

/-- To run such a rule is to decide and to do what was decided. -/
theorem Rule.run_ofDecision_eq_ok {name : String} {roots : List OpKind}
    {look : Graph → OpId → Except Fault Decision} {g g' : Graph} {op : OpId}
    {c c' : AccessSizes} {outcome : Outcome} :
    (Rule.ofDecision name roots look).run g op c = .ok (g', c', outcome) ↔
      c' = c ∧ ∃ decision, look g op = .ok decision ∧ decision.perform g = (g', outcome) := by
  rw [Rule.ofDecision, Rule.run_ofSizedDecision_eq_ok]
  constructor
  · rintro ⟨decision, hlook, hperform⟩
    obtain ⟨d, hd, hlook⟩ := bind_eq_ok.mp hlook
    cases hlook
    exact ⟨rfl, decision, hd, hperform⟩
  · rintro ⟨rfl, decision, hlook, hperform⟩
    exact ⟨decision, bind_eq_ok.mpr ⟨decision, hlook, rfl⟩, hperform⟩

/-- It rewrites exactly if it has decided on a recipe, and that is what it puts in place. -/
theorem Rule.run_ofDecision_eq_matched {name : String} {roots : List OpKind}
    {look : Graph → OpId → Except Fault Decision} {g g' : Graph} {op : OpId}
    {c c' : AccessSizes} {edits : Edits} :
    (Rule.ofDecision name roots look).run g op c = .ok (g', c', .matched edits) ↔
      c' = c ∧ ∃ r, look g op = .ok (.rewrite r) ∧ g.addRecipe r = (g', edits) := by
  rw [Rule.run_ofDecision_eq_ok]
  refine and_congr_right fun _ => ⟨?_, ?_⟩
  · rintro ⟨decision, hlook, hperform⟩
    cases decision with
    | rewrite r =>
      obtain ⟨hgraph, hedits⟩ := Prod.mk.inj hperform
      exact ⟨r, hlook, Prod.ext hgraph (Outcome.matched.inj hedits)⟩
    | _ => cases (Prod.mk.inj hperform).2
  · rintro ⟨r, hlook, hr⟩
    refine ⟨.rewrite r, hlook, ?_⟩
    rw [Decision.perform, hr]

/-- Every rule of the set is lawful. -/
def RuleSet.Lawful (target : ConversionTarget) (rules : RuleSet) : Prop :=
  ∀ e ∈ rules.entries, e.rule.Lawful target

namespace Graph

variable {g g' : Graph} {gone : List OpId} {root o op : OpId} {b : BlockId} {v w old : ValueId}
  {r : Recipe}

/-! ## A splice makes a new scene -/

/-- Values that were there are what they were. -/
theorem Spliced.value_of_hasValue (hs : Spliced g g' gone op b old r) (hv : g.HasValue v) :
    g'.value v = g.value v := by
  rw [value, value, hs.value?_of_hasValue hv]

/-- So operations that were there have the result types they had. -/
theorem Spliced.resultTypes_of_hasOp (hs : Spliced g g' gone op b old r) (ho : g.HasOp o) :
    g'.resultTypes o = g.resultTypes o := by
  rw [resultTypes, resultTypes, typesOf, typesOf, hs.results_of_hasOp ho]
  refine List.map_congr_left fun v hv => ?_
  rw [hs.value_of_hasValue (hs.before.hasValue_of_mem_results hv)]

theorem Spliced.resultShape?_of_hasOp (hs : Spliced g g' gone op b old r) (ho : g.HasOp o) :
    g'.resultShape? o = g.resultShape? o := by
  rw [resultShape?, resultShape?, hs.resultTypes_of_hasOp ho]

/-- The value that stands for the old result has its type. -/
theorem Spliced.value_standIn (hs : Spliced g g' gone op b old r) (hr : r.Lawful g root op) :
    (g'.value (g.standIn r)).ty = (g.value old).ty := by
  rw [value, standIn, hs.value?_made r.getElem?_all_final]
  exact hr.typed old (by simp [hs.single])

/-- What an operation reads keeps its type under its new name. -/
theorem Spliced.ty_readAs (hs : Spliced g g' gone op b old r) (hr : r.Lawful g root op)
    (hv : g.HasValue v) : (g'.value (readAs gone old (g.standIn r) o v)).ty = (g.value v).ty := by
  unfold readAs renamed
  split
  · rw [hs.value_of_hasValue hv]
  · split
    · next e =>
      rw [hs.value_standIn hr, e]
    · rw [hs.value_of_hasValue hv]

/-- They read values of the types they read, since the stand-in has the type of the old result. -/
theorem Spliced.typesOf_operands (hs : Spliced g g' gone op b old r) (hr : r.Lawful g root op)
    (ho : g.HasOp o) (hread : ∀ v ∈ g.operands o, g.HasValue v) :
    g'.typesOf (g'.operands o) = g.typesOf (g.operands o) := by
  rw [hs.operands_of_hasOp ho, typesOf, typesOf, List.map_map]
  exact List.map_congr_left fun v hv => hs.ty_readAs hr (hread v hv)

/-- So what was well shaped is well shaped. -/
theorem WellShaped.spliced (hs : Spliced g g' gone op b old r) (hr : r.Lawful g root op)
    (ho : g.HasOp o) (hread : ∀ v ∈ g.operands o, g.HasValue v) (h : g.WellShaped o) :
    g'.WellShaped o := by
  refine ⟨fun hk => ?_, fun hf hr => ?_, ?_, fun ty hty => ?_⟩
  · rw [hs.kind_of_hasOp ho] at hk
    rw [hs.regionsOf_of_hasOp ho]
    exact h.bare hk
  · rw [hs.kind_of_hasOp ho] at hf hr
    rw [hs.results_of_hasOp ho]
    exact h.single hf hr
  · rw [hs.kind_of_hasOp ho, hs.operands_of_hasOp ho, List.length_map]
    exact h.arity
  · rw [hs.kind_of_hasOp ho, hs.typesOf_operands hr ho hread] at hty
    rw [hs.resultTypes_of_hasOp ho]
    exact h.typed ty hty

/-- And a read that had lanes has them. -/
theorem HasLanes.spliced (hs : Spliced g g' gone op b old r) (ho : g.HasOp o)
    (h : g.HasLanes o) : g'.HasLanes o := by
  intro hk
  rw [hs.kind_of_hasOp ho] at hk
  rw [hs.resultShape?_of_hasOp ho]
  exact h hk

/-- The operands of what rules create decide no type by the generic rules, and rules
create no reads. -/
theorem resultTyOf_of_isLowered {k : OpKind} (hk : k.isLowered = true) (tys : List Ty) :
    k.resultTyOf tys = none ∧ k ≠ .transferRead := by
  cases k <;> first | exact ⟨rfl, by decide⟩ | cases hk

/-- Steps that are in order make operations that are well shaped. -/
theorem WellShaped.made (hs : Spliced g g' gone op b old r) {i : Nat} {d : Step}
    (hd : r.all[i]? = some d) {R : Site} (hok : StepOk R i d) :
    g'.WellShaped ⟨g.ops.size + i⟩ := by
  have hkind := hs.kind_made hd
  refine ⟨fun _ => hs.regionsOf_made hd, fun _ _ => ⟨_, hs.results_made hd⟩, ?_, fun ty hty => ?_⟩
  · rw [hkind, hs.operands_made hd, List.length_map, List.length_map]
    exact hok.arity
  · rw [hkind, (resultTyOf_of_isLowered hok.lowered _).1] at hty
    cases hty

/-- And none of them is a read. -/
theorem HasLanes.made (hs : Spliced g g' gone op b old r) {i : Nat} {d : Step}
    (hd : r.all[i]? = some d) {R : Site} (hok : StepOk R i d) :
    g'.HasLanes ⟨g.ops.size + i⟩ := by
  intro hk
  rw [hs.kind_made hd] at hk
  exact absurd hk (resultTyOf_of_isLowered hok.lowered []).2

/-- What is kept by a splice may overflow after it exactly if it did so before. -/
theorem mayOverflow_spliced (hs : Spliced g g' gone op b old r) (hr : r.Lawful g root op)
    (ho : g.HasOp o) (hread : ∀ v ∈ g.operands o, g.HasValue v) :
    g'.MayOverflow o ↔ g.MayOverflow o := by
  rw [mayOverflow_iff, mayOverflow_iff, hs.kind_of_hasOp ho, hs.resultShape?_of_hasOp ho,
    hs.typesOf_operands hr ho hread]

/-- Of what rules create, only loads may overflow. -/
theorem MayOverflow.kind_of_isLowered (hk : (g.kind o).isLowered = true) (h : g.MayOverflow o) :
    g.kind o = .upd := by
  cases h with
  | access h => exact h.resolve_left (resultTyOf_of_isLowered hk []).2
  | doubled h => rw [h] at hk; cases hk
  | result h =>
    simp only [List.mem_cons, List.not_mem_nil, or_false] at h
    rcases h with h | h | h | h | h <;> rw [h] at hk <;> cases hk
  | operand h =>
    rcases List.mem_pair.mp h with h | h <;> rw [h] at hk <;> cases hk

/-- What may overflow after a splice did so before: rules create no vectors that they count, and
loads only where there was a read or a load. -/
theorem Spliced.mayOverflowUnder (hs : Spliced g g' gone op b old r) (h : Scene g gone root)
    (hin : g.Inside root op) (hr : r.Lawful g root op) (hover : g'.MayOverflowUnder root) :
    g.MayOverflowUnder root := by
  obtain ⟨o, ho, hover⟩ := hover
  rcases (hs.inside_iff hin).mp ho with ⟨ho, -⟩ | hn
  · have hvalues : ∀ v ∈ g.operands o, g.HasValue v := fun v hv =>
      h.ordered.hasValue_of_mem_operands h.consistent ho hv
    have hop := ho.hasOp h.consistent.toNestingAgrees
    exact ⟨o, ho, (mayOverflow_spliced hs hr hop hvalues).mp hover⟩
  · obtain ⟨i, d, hd, rfl⟩ := mem_nextOps_all.mp hn
    have hok := hr.steps i d hd
    have hk := hs.kind_made hd
    have hupd := MayOverflow.kind_of_isLowered (hk ▸ hok.lowered) hover
    exact ⟨op, hin, .access (hok.loads (hk.symm.trans hupd)).1.1⟩

/-- No splice brings in a read without lanes. -/
theorem Spliced.hasLanes (hs : Spliced g g' gone op b old r) (hin : g.Inside root op)
    (hr : r.Lawful g root op) (h : ∀ o, g.Inside root o → g.HasLanes o) :
    ∀ o, g'.Inside root o → g'.HasLanes o := by
  intro o ho
  rcases (hs.inside_iff hin).mp ho with ⟨ho, -⟩ | hn
  · exact (h o ho).spliced hs (ho.hasOp hs.before.toNestingAgrees)
  · obtain ⟨i, d, hd, rfl⟩ := mem_nextOps_all.mp hn
    exact .made hs hd (hr.steps i d hd)

/-- After a rewrite by a lawful recipe the scene is what it was, and the old operation is gone. -/
theorem Scene.spliced (h : Scene g gone root) (hin : g.Inside root op)
    (hs : Spliced g g' gone op b old r) (hr : r.Lawful g root op) :
    Scene g' (op :: gone) root := by
  refine ⟨hs.after, hs.ordered h.ordered hin hr.visible, fun o ho => ?_⟩
  rcases (hs.inside_iff hin).mp ho with ⟨ho, -⟩ | hn
  · exact (h.shaped o ho).spliced hs hr (ho.hasOp h.consistent.toNestingAgrees)
      fun v hv => h.ordered.hasValue_of_mem_operands h.consistent ho hv
  · obtain ⟨i, d, hd, rfl⟩ := mem_nextOps_all.mp hn
    exact .made hs hd (hr.steps i d hd)

/-! ## Putting a match in place -/

/-- The operations that define values can be looked up as long as the values are there. -/
theorem mapM_definingOp?_total {read : List ValueId} (h : ∀ v ∈ read, g.HasValue v) :
    ∃ l, read.mapM g.definingOp? = .ok l := by
  induction read with
  | nil => exact ⟨[], rfl⟩
  | cons v rest ih =>
    obtain ⟨l, hl⟩ := ih fun w hw => h w (List.mem_cons_of_mem _ hw)
    refine ⟨(g.value v).origin.op? :: l, ?_⟩
    rw [List.mapM_cons, definingOp?, lookup, value?_eq_some (h v (List.mem_cons_self ..)), hl]
    rfl

/-- Everything that the steps of a lawful recipe read is there once they are created. -/
theorem producersOf_total (h : Scene g gone root) (hr : r.Fine (g.AtHand root op)) :
    ∃ touched, (g.addRecipe r).1.producersOf (g.addRecipe r).2.newOps = .ok touched := by
  obtain ⟨g₁, hrun, hg₁, -⟩ := addRecipe_created h.consistent hr
  rw [hrun]
  dsimp only
  have hnews : (Edits.mk (g.nextOps r.steps.length)
      (.replace ⟨g.ops.size + r.steps.length⟩)).newOps = g.nextOps r.all.length :=
    (nextOps_all r).symm
  rw [hnews]
  -- Everything that is read was there or comes from an earlier step.
  have hread : ∀ v ∈ (g.nextOps r.all.length).flatMap g₁.operands, g₁.HasValue v := by
    intro v hv
    obtain ⟨n, hn, hv⟩ := List.mem_flatMap.mp hv
    obtain ⟨i, d, hd, rfl⟩ := mem_nextOps_all.mp hn
    rw [operands, hg₁.op_new hd] at hv
    obtain ⟨s, hs, rfl⟩ := List.mem_map.mp hv
    have hfine := (hr i d hd).reads s hs
    have hi : i < r.all.length := (List.getElem?_eq_some_iff.mp hd).1
    rw [HasValue, hg₁.valuesSize]
    cases s with
    | value v =>
      have hv : v.index < g.values.size := Visible.hasValue h.consistent hfine.visible
      exact Nat.lt_of_lt_of_le hv (Nat.le_add_right ..)
    | step j => exact Nat.add_lt_add_left (Nat.lt_trans hfine hi) _
  obtain ⟨l, hl⟩ := mapM_definingOp?_total hread
  exact ⟨l.filterMap id, by rw [producersOf, hl]; rfl⟩

end Graph

namespace Application

variable {rules : RuleSet} {target : ConversionTarget} {s s' : Application} {gone : List OpId}
  {root op : OpId}

/-- Whatever is asked about access sizes during a visit to the operation, by the target or
by a rule, leaves the sizes in relation to what they were. -/
structure Tracks (rules : RuleSet) (target : ConversionTarget) (g : Graph) (op : OpId)
    (Q : AccessSizes → AccessSizes → Prop) : Prop where
  refl : ∀ c, Q c c
  trans : ∀ {c₁ c₂ c₃}, Q c₁ c₂ → Q c₂ c₃ → Q c₁ c₃
  verdict : ∀ c v c', target.legality g op c = .ok (v, c') → Q c c'
  look : ∀ e ∈ rules.entries, g.kind op ∈ e.rule.roots → ∀ c g' c' outcome,
    e.rule.run g op c = .ok (g', c', outcome) → Q c c'

/-- Nothing need be known of how sizes change. -/
theorem tracks_any (rules : RuleSet) (target : ConversionTarget) (g : Graph) (op : OpId) :
    Tracks rules target g op fun _ _ => True :=
  ⟨fun _ => trivial, fun _ _ => trivial, fun _ _ _ _ => trivial,
    fun _ _ _ _ _ _ _ _ => trivial⟩

variable {Q : AccessSizes → AccessSizes → Prop}

/-- Rewriting at an operation which was open to it with the sizes `c₀`: what a rule for the
kind of the operation answered is spliced in, and the sizes that may have changed are
forgotten. -/
structure Rewrites (rules : RuleSet) (target : ConversionTarget)
    (Q : AccessSizes → AccessSizes → Prop) (root : OpId) (gone : List OpId) (c₀ : AccessSizes)
    (s : Application) (op : OpId) (s' : Application) (b : BlockId) (old : ValueId)
    (r : Recipe) : Prop where
  opened : target.OpenAt s.graph op c₀
  rule : ∃ e ∈ rules.entries, s.graph.kind op ∈ e.rule.roots ∧ ∃ c c' touched,
    e.rule.run s.graph op c =
      .ok ((s.graph.addRecipe r).1, c', .matched (s.graph.addRecipe r).2) ∧
    Q s.sizes c' ∧
    (s.graph.addRecipe r).1.producersOf (s.graph.addRecipe r).2.newOps = .ok touched ∧
    s'.sizes = c'.invalidateAll (op :: touched)
  lawful : r.Lawful s.graph root op
  run : (s.graph.addRecipe r).1.splice op (s.graph.addRecipe r).2 = .ok s'.graph
  spliced : Graph.Spliced s.graph s'.graph gone op b old r
  changes : s'.changes = s.changes + 1
  rejected : s'.rejected = s.rejected

/-- What trying rules may come to: none has anything to do, or one refuses, or one rewrites. -/
inductive Tried (rules : RuleSet) (target : ConversionTarget)
    (Q : AccessSizes → AccessSizes → Prop) (root : OpId) (gone : List OpId) (c₀ : AccessSizes)
    (entries : List RuleEntry) (s : Application) (op : OpId) (s' : Application) : Prop
  | declined : s'.graph = s.graph → s'.changes = s.changes → s'.rejected = s.rejected →
      Q s.sizes s'.sizes → (∀ e ∈ entries, ∃ c c', Q s.sizes c ∧
        e.rule.run s.graph op c = .ok (s.graph, c', .declined)) →
      Tried rules target Q root gone c₀ entries s op s'
  | refused (e : RuleEntry) (reason : String) : s'.graph = s.graph → s'.changes = s.changes →
      Q s.sizes s'.sizes → e ∈ entries → (∃ c g' c', Q s.sizes c ∧
        e.rule.run s.graph op c = .ok (g', c', .refused reason)) →
      s'.rejected = s.rejected ++ [⟨op, s.graph.kind op, e.rule.name, reason⟩] →
      Tried rules target Q root gone c₀ entries s op s'
  | rewritten (b : BlockId) (old : ValueId) (r : Recipe) :
      Rewrites rules target Q root gone c₀ s op s' b old r →
      Tried rules target Q root gone c₀ entries s op s'

/-- Why a visit leaves the graph alone: the operation is legal with the sizes `c₀`, or was
refused before, or is refused now, or no rule has anything to do. -/
inductive Idle (rules : RuleSet) (target : ConversionTarget)
    (Q : AccessSizes → AccessSizes → Prop) (c₀ : AccessSizes) (s : Application) (op : OpId)
    (s' : Application) : Prop
  | legal (c : AccessSizes) : target.legality s.graph op c₀ = .ok (.legal, c) →
      s'.rejected = s.rejected → Idle rules target Q c₀ s op s'
  | already : s.isRejected op = true → s'.rejected = s.rejected → Idle rules target Q c₀ s op s'
  | refused (e : RuleEntry) (reason : String) : e ∈ rules.entries →
      s.graph.kind op ∈ e.rule.roots → (∃ c g' c', Q s.sizes c ∧
        e.rule.run s.graph op c = .ok (g', c', .refused reason)) →
      s'.rejected = s.rejected ++ [⟨op, s.graph.kind op, e.rule.name, reason⟩] →
      Idle rules target Q c₀ s op s'
  | declined : (∀ e ∈ rules.entries, s.graph.kind op ∈ e.rule.roots → ∃ c c', Q s.sizes c ∧
        e.rule.run s.graph op c = .ok (s.graph, c', .declined)) →
      s'.rejected = s.rejected → Idle rules target Q c₀ s op s'

/-- What a visit may do: leave the graph alone and at most note a refusal, or rewrite. -/
inductive Visited (rules : RuleSet) (target : ConversionTarget)
    (Q : AccessSizes → AccessSizes → Prop) (root : OpId) (gone : List OpId) (c₀ : AccessSizes)
    (s : Application) (op : OpId) (s' : Application) : Prop
  | same : s'.graph = s.graph → s'.changes = s.changes → s.rejected <+: s'.rejected →
      Q s.sizes s'.sizes → Idle rules target Q c₀ s op s' →
      Visited rules target Q root gone c₀ s op s'
  | rewritten (b : BlockId) (old : ValueId) (r : Recipe) :
      Rewrites rules target Q root gone c₀ s op s' b old r →
      Visited rules target Q root gone c₀ s op s'

variable {c c₀ : AccessSizes} {b : BlockId} {old : ValueId} {r : Recipe} {e : RuleEntry}
  {entries : List RuleEntry}

/-- Sizes asked for before a rewrite are part of what was asked for. -/
theorem Rewrites.after (htrans : ∀ {c₁ c₂ c₃}, Q c₁ c₂ → Q c₂ c₃ → Q c₁ c₃) (hc : Q s.sizes c)
    (h : Rewrites rules target Q root gone c₀ { s with sizes := c } op s' b old r) :
    Rewrites rules target Q root gone c₀ s op s' b old r := by
  obtain ⟨e, he, hk, c₁, c₂, touched, hrun, hs, ht, hsizes⟩ := h.rule
  exact ⟨h.opened, ⟨e, he, hk, c₁, c₂, touched, hrun, htrans hc hs, ht, hsizes⟩, h.lawful, h.run,
    h.spliced, h.changes, h.rejected⟩

/-- A rule that declines leaves the rest to the others. -/
theorem Tried.cons (hQ : Tracks rules target s.graph op Q)
    (he : e.rule.run s.graph op s.sizes = .ok (s.graph, c, .declined)) (hc : Q s.sizes c)
    (h : Tried rules target Q root gone c₀ entries { s with sizes := c } op s') :
    Tried rules target Q root gone c₀ (e :: entries) s op s' := by
  cases h with
  | declined hg hn hj hs hall =>
    refine .declined hg hn hj (hQ.trans hc hs) fun e' he' => ?_
    rcases List.mem_cons.mp he' with rfl | he'
    · exact ⟨s.sizes, c, hQ.refl _, he⟩
    · obtain ⟨c₁, c₂, hs, hrun⟩ := hall e' he'
      exact ⟨c₁, c₂, hQ.trans hc hs, hrun⟩
  | refused e' reason hg hn hs he' hrun hj =>
    obtain ⟨c₁, g', c₂, hs', hrun⟩ := hrun
    exact .refused e' reason hg hn (hQ.trans hc hs) (List.mem_cons_of_mem _ he')
      ⟨c₁, g', c₂, hQ.trans hc hs', hrun⟩ hj
  | rewritten b old r h => exact .rewritten b old r (h.after hQ.trans hc)

/-- A visit to an operation that is open to it is what trying its rules comes to. -/
theorem Tried.visited (hQ : Tracks rules target s.graph op Q) (hc : Q s.sizes c)
    (h : Tried rules target Q root gone c₀ (rules.forKind (s.graph.kind op)) { s with sizes := c }
      op s') : Visited rules target Q root gone c₀ s op s' := by
  cases h with
  | declined hg hn hj hs hall =>
    refine .same hg hn (hj ▸ List.prefix_refl _) (hQ.trans hc hs) (.declined (fun e he hk => ?_) hj)
    obtain ⟨c₁, c₂, hs, hrun⟩ := hall e (RuleSet.mem_forKind.mpr ⟨he, hk⟩)
    exact ⟨c₁, c₂, hQ.trans hc hs, hrun⟩
  | refused e reason hg hn hs he hrun hj =>
    obtain ⟨c₁, g', c₂, hs', hrun⟩ := hrun
    obtain ⟨he, hk⟩ := RuleSet.mem_forKind.mp he
    exact .same hg hn (hj ▸ List.prefix_append ..) (hQ.trans hc hs)
      (.refused e reason he hk ⟨c₁, g', c₂, hQ.trans hc hs', hrun⟩ hj)
  | rewritten b old r h => exact .rewritten b old r (h.after hQ.trans hc)

/-- Putting a lawful recipe in place succeeds. -/
theorem commit_total (h : Graph.Scene s.graph gone root) (hin : s.graph.Inside root op)
    {old : ValueId} (hold : s.graph.results op = [old]) (hbare : s.graph.regionsOf op = [])
    {r : Recipe} (hr : r.Lawful s.graph root op) (sizes : AccessSizes) :
    ∃ b touched s', commit { s with graph := (s.graph.addRecipe r).1, sizes := sizes } op
        (s.graph.addRecipe r).2 = .ok s' ∧
      (s.graph.addRecipe r).1.producersOf (s.graph.addRecipe r).2.newOps = .ok touched ∧
      (s.graph.addRecipe r).1.splice op (s.graph.addRecipe r).2 = .ok s'.graph ∧
      Graph.Spliced s.graph s'.graph gone op b old r ∧ s'.changes = s.changes + 1 ∧
      s'.rejected = s.rejected ∧ s'.sizes = sizes.invalidateAll (op :: touched) := by
  obtain ⟨b, hcb, hob⟩ := hin
  have hblock := (h.consistent.places op b).mp hob
  obtain ⟨g', hsplice, hs⟩ := Graph.splice_total h.consistent hblock hold hbare hr.fine
  obtain ⟨touched, htouched⟩ := Graph.producersOf_total h hr.fine
  refine ⟨b, touched, ⟨g', sizes.invalidateAll (op :: touched), s.rejected, s.changes + 1⟩, ?_,
    htouched, hsplice, hs, rfl, rfl, rfl⟩
  unfold commit
  simp only [htouched, hsplice, bind, Except.bind]
  rfl

/-- A recipe always has something to do. -/
theorem perform_isEmpty (g : Graph) (r : Recipe) : (g.addRecipe r).2.isEmpty = false := by
  unfold Graph.addRecipe Edits.isEmpty
  generalize Graph.addSteps r.steps g [] = made
  obtain ⟨g₁, results, ops⟩ := made
  dsimp only
  generalize g₁.addStep results r.final = final
  obtain ⟨g₂, op⟩ := final
  simp

/-- Trying lawful rules one after the other succeeds, unless at a read without lanes or where a
number is too large. -/
theorem tryRules_yields (hrules : ∀ e ∈ entries, e ∈ rules.entries ∧
      s.graph.kind op ∈ e.rule.roots ∧ e.rule.Lawful target)
    (h : Graph.Scene s.graph gone root) (hin : s.graph.Inside root op)
    (hopen : target.OpenAt s.graph op c₀) (hQ : Tracks rules target s.graph op Q) :
    YieldsUnless (s.graph.Excuses op) (tryRules op (entries.map RuleEntry.rule) s)
      (Tried rules target Q root gone c₀ entries s op) := by
  -- The induction is on the rules that are left to try.
  induction entries generalizing s with
  | nil =>
    exact .ok (.declined rfl rfl rfl (hQ.refl _) fun _ he => absurd he List.not_mem_nil)
  | cons e entries ih =>
    obtain ⟨he, hroot, hlawful⟩ := hrules e (List.mem_cons_self ..)
    rw [List.map_cons, tryRules]
    rcases hlawful.answers s.graph gone root op s.sizes h hin hroot ⟨c₀, hopen⟩ with
      ⟨⟨g', c, outcome⟩, hrun, decision, hdec, hanswer⟩ | ⟨fault, hexcused, hrun⟩
    swap
    · exact Or.inr ⟨fault, hexcused, by rw [hrun]; rfl⟩
    cases hanswer
    have hc : Q s.sizes c := hQ.look e he hroot _ _ _ _ hrun
    rw [hrun]
    simp only [bind, Except.bind]
    cases decision with
    | decline =>
      exact (ih (s := { s with sizes := c })
        (fun e he => hrules e (List.mem_cons_of_mem _ he)) h hin hopen hQ).mono
          fun s' ht => ht.cons hQ hrun hc
    | refuse reason =>
      exact .ok (.refused e reason rfl rfl hc (List.mem_cons_self ..)
        ⟨s.sizes, _, c, hQ.refl _, hrun⟩ rfl)
    -- The first that matches is put in place: the operation has one result and owns nothing.
    | rewrite r =>
      have hf : s.graph.kind op ≠ .func := fun hk => hlawful.computes.1 (hk ▸ hroot)
      have hr' : s.graph.kind op ≠ .ret := fun hk => hlawful.computes.2 (hk ▸ hroot)
      obtain ⟨old, hold⟩ := h.single_of_kind hin hf hr'
      have hbare := (h.shaped op hin).bare hf
      obtain ⟨b, touched, s', hcommit, htouched, hsplice, hs, hn, hj, hsizes⟩ :=
        commit_total h hin hold hbare hdec c
      refine Or.inl ⟨s', ?_, .rewritten b old r ⟨hopen,
        ⟨e, he, hroot, s.sizes, c, touched, hrun, hc, htouched, hsizes⟩, hdec, hsplice, hs, hn, hj⟩⟩
      simp only [Decision.perform]
      rw [if_neg (by rw [perform_isEmpty]; exact Bool.false_ne_true)]
      exact hcommit

/-- A visit to an operation of a scene succeeds, unless it is to a read without lanes or a number is
too large. -/
theorem visitOp_yields (htarget : target.Total) (hrules : rules.Lawful target)
    (h : Graph.Scene s.graph gone root) (hin : s.graph.Inside root op)
    (hQ : Tracks rules target s.graph op Q) :
    YieldsUnless (s.graph.Excuses op) (visitOp rules target s op)
      (Visited rules target Q root gone s.sizes s op) := by
  unfold visitOp
  rcases htarget s.graph gone root op s.sizes h hin with
    ⟨⟨verdict, c⟩, hlegal, -⟩ | ⟨fault, hexcused, hlegal⟩
  swap
  · exact Or.inr ⟨fault, fun _ => hexcused, by rw [hlegal]; rfl⟩
  have hc : Q s.sizes c := hQ.verdict _ _ _ hlegal
  rw [hlegal]
  simp only [bind, Except.bind]
  -- What is legal or was refused before is left alone; only otherwise are rules tried.
  by_cases hv : verdict = .legal
  · rw [if_pos (by simp [hv])]
    subst hv
    exact .ok (.same rfl rfl (List.prefix_refl _) hc (.legal c hlegal rfl))
  by_cases hrejected : s.isRejected op = true
  · rw [if_pos (by simpa [isRejected] using Or.inr hrejected)]
    exact .ok (.same rfl rfl (List.prefix_refl _) hc (.already hrejected rfl))
  · rw [if_neg (by simpa [isRejected, hv] using hrejected)]
    exact (tryRules_yields (s := { s with sizes := c }) (fun e he =>
      ⟨(RuleSet.mem_forKind.mp he).1, (RuleSet.mem_forKind.mp he).2,
        hrules e (RuleSet.mem_forKind.mp he).1⟩) h hin ⟨verdict, c, hlegal, hv⟩ hQ).mono
      fun s' ht => ht.visited hQ hc

end Application

end SimdLowering
