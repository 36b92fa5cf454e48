/-
The kinds of instructions that rules write.

A rule puts a few instructions in the place of an operation, always of the same few kinds. Which
ones is read off its plans, step by step, and it does not matter for this what a rule finds when
it looks around: what is said here holds wherever the rule answers.

Lanewise sums and differences are written by the rules for sums and for adding reductions only.
The rules listed here write none, so whatever is to be known of these instructions is a matter of
those rules alone.
-/
import SimdLowering.Proofs.Graph.Effects
import SimdLowering.Proofs.Rewrite.Lawful
import SimdLowering.Target.RuleTable

set_option autoImplicit false

namespace SimdLowering

variable {g g' : Graph} {op : OpId} {ks : List OpKind} {c c' : AccessSizes} {r r' : Recipe}

namespace Graph

/-- The kinds of all operations, in the order of creation. -/
def kinds (g : Graph) : List OpKind := g.ops.toList.map Operation.kind

/-- A new operation adds its kind. -/
theorem kinds_addOp (d : Draft ValueId) : (g.addOp d).1.kinds = g.kinds ++ [d.kind] := by
  have hops := (addUses_arenas (g := g) g.nextOp d.operands).1
  simp only [kinds, addOp, addValues, Array.toList_push, List.map_append, List.map_cons,
    List.map_nil]
  rw [show (⟨g.ops.size⟩ : OpId) = g.nextOp from rfl, hops]

/-- A list of steps adds theirs. -/
theorem kinds_addSteps (ds : List Step) (results : List ValueId) :
    (addSteps ds g results).1.kinds = g.kinds ++ ds.map Draft.kind := by
  induction ds generalizing g results with
  | nil => exact (List.append_nil _).symm
  | cons d ds ih =>
    rw [addSteps]
    refine (ih _).trans ?_
    rw [addStep, kinds_addOp, List.append_assoc]
    rfl

/-- Creating a recipe creates one operation of the kind of each step. -/
theorem kinds_addRecipe (r : Recipe) :
    (g.addRecipe r).1.kinds = g.kinds ++ r.all.map Draft.kind := by
  rw [addRecipe]
  refine (kinds_addOp _).trans ?_
  rw [kinds_addSteps, List.append_assoc, Recipe.all, List.map_append]
  rfl

end Graph

/-! ## Plans, decisions and rules -/

/-- The step is of one of the kinds, in whatever context. -/
abbrev OfKinds (ks : List OpKind) (_ : List Unit) (d : Step) (_ : Unit) : Prop :=
  ks.contains d.kind = true

/-- The last step is of one of the kinds too. -/
abbrev EndsOfKinds (ks : List OpKind) (_ : List Unit) (d : Step) : Prop :=
  ks.contains d.kind = true

/-- What the decision has created is of these kinds. -/
def Decision.Writes (ks : List OpKind) : Decision → Prop
  | rewrite r => ∀ d ∈ r.all, ks.contains d.kind = true
  | _ => True

/-- A decision writes what its plan makes. -/
theorem Decision.Writes.follow {p : Plan Step} (h : p.Makes (OfKinds ks) [] (EndsOfKinds ks)) :
    (Decision.follow p).Writes ks :=
  Plan.Makes.forall_mem h

/-- What the rule writes is of these kinds. -/
def Rule.Writes (rule : Rule) (ks : List OpKind) : Prop :=
  ∀ g op c c' r, rule.run g op c = .ok ((g.addRecipe r).1, c', .matched (g.addRecipe r).2) →
    ∀ d ∈ r.all, ks.contains d.kind = true

namespace Rule.Writes

variable {name : String} {roots : List OpKind}

/-- A rule that goes by sizes writes what its decisions write. -/
theorem ofSizedDecision
    {look : Graph → OpId → AccessSizes → Except Fault (Decision × AccessSizes)}
    (h : ∀ g op c, Ensures (look g op c) fun x => x.1.Writes ks) :
    (Rule.ofSizedDecision name roots look).Writes ks := by
  intro g op c c' r hrun d hd
  obtain ⟨decision, hlook, hperform⟩ := Rule.run_ofSizedDecision_eq_ok.mp hrun
  cases decision with
  | decline => cases (Prod.mk.inj hperform).2
  | refuse reason => cases (Prod.mk.inj hperform).2
  | rewrite r' =>
    -- The two recipes need not be the same, but they create operations of the same kinds.
    have hkinds : r'.all.map Draft.kind = r.all.map Draft.kind := by
      have e : (g.addRecipe r').1 = (g.addRecipe r).1 := (Prod.mk.inj hperform).1
      have := congrArg Graph.kinds e
      rw [Graph.kinds_addRecipe, Graph.kinds_addRecipe] at this
      exact List.append_cancel_left this
    obtain ⟨d', hd', hk⟩ : ∃ d' ∈ r'.all, d'.kind = d.kind := by
      rw [← List.mem_map, hkinds]
      exact List.mem_map_of_mem hd
    exact hk ▸ h g op c _ hlook d' hd'

/-- So does one that does not. -/
theorem ofDecision {look : Graph → OpId → Except Fault Decision}
    (h : ∀ g op, Ensures (look g op) (Decision.Writes ks)) :
    (Rule.ofDecision name roots look).Writes ks :=
  .ofSizedDecision fun g op _ => (h g op).bind fun _ hd => .pure hd

end Rule.Writes

namespace Rules

variable {ty maskTy indexTy t : Ty} {a b : Source} {o : Operand Source} {shift : Int}
  {first bits : Nat}

/-! ## Reads and loads -/

/-- One load for an aligned read. -/
theorem wholePlan_writes {outer : List Source} {aligned : Int} :
    (wholePlan ty a outer indexTy aligned).Makes
      (OfKinds [.constant, .upd, .shift]) [] (EndsOfKinds [.constant, .upd, .shift]) :=
  .emit_bind (y := ()) rfl (.pure rfl)

/-- Two loads and a shift for any other. -/
theorem windowPlan_writes {outer : List Source} {aligned next bytes : Int} :
    (windowPlan ty a outer indexTy aligned next bytes).Makes
      (OfKinds [.constant, .upd, .shift]) [] (EndsOfKinds [.constant, .upd, .shift]) := by
  refine .emit_bind (y := ()) rfl ?_
  refine .emit_bind (y := ()) rfl ?_
  refine .emit_bind (y := ()) rfl ?_
  refine .emit_bind (y := ()) rfl ?_
  exact .emit_bind (y := ()) rfl (.pure rfl)

/-- Whichever of the two it is, there are no other kinds. -/
theorem alignedPlan_writes {lanes elemBits : Nat} {outer : List Source} {value : Int} :
    Ensures (alignedPlan ty lanes elemBits a outer indexTy value) fun p =>
      p.Makes (OfKinds [.constant, .upd, .shift]) [] (EndsOfKinds [.constant, .upd, .shift]) := by
  refine .any fun bits => ?_
  dsimp only
  split
  · exact .pure wholePlan_writes
  · exact .any fun next => .pure windowPlan_writes

theorem transferReadToUpd_writes : transferReadToUpd.Writes [.constant, .upd, .shift] := by
  refine .ofDecision fun g op => .any fun access? => ?_
  cases access? with
  | none => exact .pure trivial
  | some access =>
    dsimp only
    split
    · exact .pure trivial
    split
    · exact .pure trivial
    split
    · exact .pure trivial
    split
    · refine .any fun ty => .any fun value => ?_
      split
      · exact .pure (Decision.Writes.follow (.pure rfl))
      split
      · exact fun _ h => by cases h
      · exact .any fun indexTy => alignedPlan_writes.bind fun p hp => .pure (.follow hp)
    · exact .pure trivial

theorem splitUpd_writes (bits : Nat) : (splitUpd bits).Writes [.upd] := by
  refine .ofSizedDecision fun g op c => .any fun ⟨size, c'⟩ => .any fun most => ?_
  dsimp only
  split
  · exact .pure trivial
  refine .any fun access? => ?_
  cases access? with
  | none => exact .pure trivial
  | some access =>
    exact .any fun ty => .pure (Decision.Writes.follow (.emit_bind (y := ()) rfl (.pure rfl)))

/-! ## Products -/

/-- A fused sum goes up, multiplies and adds, and comes down. -/
theorem fmaElemPlan_writes : (fmaElemPlan ty a b o shift).Makes
    (OfKinds [.ups, .fmaElem, .srs]) [] (EndsOfKinds [.ups, .fmaElem, .srs]) :=
  .emit_bind (y := ()) rfl (.emit_bind (y := ()) rfl (.pure rfl))

theorem mulAddToFmaElem_writes (shift : Int) :
    (mulAddToFmaElem shift).Writes [.ups, .fmaElem, .srs] := by
  refine .ofDecision fun g op => ?_
  dsimp only
  split
  · exact .pure trivial
  refine .any fun ⟨lhs, rhs⟩ => .any fun mac? => ?_
  cases mac? with
  | none => exact .pure trivial
  | some mac =>
    dsimp only
    split
    · exact .any fun ty => .any fun acc => .pure (.follow fmaElemPlan_writes)
    · exact .pure trivial

/-- The kinds of instructions that make a product. -/
def productKinds : List OpKind :=
  [.constant, .broadcastScalar, .ext, .concat, .mulElem, .srs, .cast]

/-- Products of whole vectors need no padding. -/
theorem plainProduct_writes {Γ : List Unit} :
    (plainProduct a b t).Makes (OfKinds productKinds) Γ fun _ _ => True :=
  .emit (y := ()) rfl trivial

/-- Narrow ones are padded and need more kinds. -/
theorem paddedProduct_writes {Γ : List Unit} :
    (paddedProduct a b t bits).Makes (OfKinds productKinds) Γ fun _ _ => True := by
  refine .emit_bind (y := ()) ?_ ?_
  · unfold Instr.constantZero
    split
    · rfl
    · rfl
  refine .emit_bind (y := ()) rfl ?_
  refine .emit_bind (y := ()) rfl ?_
  refine .emit_bind (y := ()) rfl ?_
  refine .emit_bind (y := ()) rfl ?_
  exact .emit (y := ()) rfl trivial

section

variable {p : Plan (Operand Source)} (hp : p.Makes (OfKinds productKinds) [] fun _ _ => True)
include hp

theorem shiftedDown_writes :
    (shiftedDown ty shift p).Makes (OfKinds productKinds) [] (EndsOfKinds productKinds) :=
  hp.bind fun _ _ _ _ => .pure rfl

theorem movedBack_writes :
    (movedBack ty p).Makes (OfKinds productKinds) [] (EndsOfKinds productKinds) :=
  hp.bind fun _ _ _ _ => .pure rfl

end

theorem intProductPlan_writes {g : Graph} {shape : VectorShape} {lhs rhs : ValueId} :
    Ensures (intProductPlan g shape lhs rhs ty shift) fun p =>
      p.Makes (OfKinds productKinds) [] (EndsOfKinds productKinds) := by
  have full : Ensures (pure (shiftedDown ty shift (plainProduct (.value lhs) (.value rhs) ty)) :
      Except Fault (Plan Step)) fun p =>
        p.Makes (OfKinds productKinds) [] (EndsOfKinds productKinds) :=
    .pure (shiftedDown_writes plainProduct_writes)
  unfold intProductPlan
  dsimp only
  split
  · refine .any fun pair? => ?_
    split
    · exact .any fun t => .pure (movedBack_writes paddedProduct_writes)
    · exact .any fun t => .pure (movedBack_writes plainProduct_writes)
    · exact full
  split
  · exact .pure (shiftedDown_writes paddedProduct_writes)
  · exact full

theorem mulIToMulElem_writes (shift : Int) : (mulIToMulElem shift).Writes productKinds := by
  refine .ofDecision fun g op => ?_
  dsimp only
  split
  · exact .pure trivial
  split
  · exact .pure trivial
  refine .any fun ⟨lhs, rhs⟩ => .any fun ty => ?_
  exact intProductPlan_writes.bind fun p hp => .pure (.follow hp)

theorem mulFToMulElem_writes (shift : Int) : (mulFToMulElem shift).Writes productKinds := by
  refine .ofDecision fun g op => ?_
  dsimp only
  split
  · exact .pure trivial
  split
  · exact .pure trivial
  refine .any fun ⟨lhs, rhs⟩ => .any fun ty => ?_
  dsimp only
  split
  · exact .pure (.follow (shiftedDown_writes paddedProduct_writes))
  refine .any fun pair? => ?_
  split
  · exact .any fun t => .pure (.follow (movedBack_writes paddedProduct_writes))
  · exact .pure trivial

/-! ## Minima, maxima, comparisons, selects and splats -/

theorem minMaxToElem_writes (kind : OpKind) : (minMaxToElem kind).Writes [.min, .max] := by
  refine .ofDecision fun g op => ?_
  dsimp only
  split
  · exact .pure trivial
  refine .any fun full => ?_
  split
  · exact .pure trivial
  refine .any fun ⟨lhs, rhs⟩ => .any fun l => .pure (.follow (.pure ?_))
  dsimp only
  split
  · rfl
  · rfl

theorem cmpToMask_writes (kind : OpKind) :
    (cmpToMask kind).Writes [.cmp, .unrealizedCast] := by
  refine .ofDecision fun g op => .any fun shape? => ?_
  cases shape? with
  | none => exact .pure trivial
  | some shape =>
    refine .any fun full => ?_
    split
    · exact .pure trivial
    split
    · exact .pure trivial
    · exact .pure trivial
    · exact .any fun ⟨lhs, rhs⟩ => .any fun ty =>
        .pure (Decision.Writes.follow (.emit_bind (y := ()) rfl (.pure rfl)))

theorem selectToSel_writes : selectToSel.Writes [.unrealizedCast, .sel] := by
  refine .ofDecision fun g op => ?_
  dsimp only
  split
  · exact .pure trivial
  refine .any fun full => ?_
  split
  · exact .pure trivial
  refine .any fun cond => .any fun onTrue => .any fun onFalse => .any fun source => ?_
  exact .pure (Decision.Writes.follow (.emit_bind (y := ()) rfl (.pure rfl)))

theorem extractBroadcastToLane_writes : extractBroadcastToLane.Writes [.broadcastLane] := by
  refine .ofDecision fun g op => .any fun scalar => .any fun extract? => ?_
  cases extract? with
  | none => exact .pure trivial
  | some extract =>
    dsimp only
    split
    · exact .pure trivial
    · exact .any fun v => .any fun ty => .pure (Decision.Writes.follow (.pure rfl))

/-! ## Reductions -/

/-- A tree is written with the kinds that combine and with what shifts and reads lanes. -/
theorem treeLevels_writes {isAcc : Bool} {Γ : List Unit} {amounts : List Nat}
    {combine : Operand Source → Operand Source → Plan (Operand Source)}
    (hconstant : ks.contains .constant = true) (hshift : ks.contains .shift = true)
    (hc : ∀ Γ a b, (combine a b).Makes (OfKinds ks) Γ fun _ _ => True) :
    (treeLevels ty isAcc combine amounts o).Makes (OfKinds ks) Γ fun _ _ => True := by
  refine Plan.Makes.foldlM (I := fun _ _ _ => True) (fun amount rest Γ a _ => ?_) trivial
  refine .emit_bind (y := ()) hconstant ?_
  exact .emit_bind (y := ()) hshift (hc _ _ _)

/-- The kinds of instructions in a tree that combines with the given one. -/
def treeKinds (k : OpKind) : List OpKind := [.constant, .shift, .extElem, k]

/-- The kind that combines is among those of its tree. -/
theorem contains_treeKinds (k : OpKind) : (treeKinds k).contains k = true := by
  simp [treeKinds]

/-- A rule for reductions writes what its decisions write. -/
theorem reductionRule_writes {name : String}
    {look : CombiningKind → VectorShape → Operand Source → Except Fault Decision}
    (h : ∀ kind shape v, Ensures (look kind shape v) (Decision.Writes ks)) :
    (reductionRule name look).Writes ks := by
  refine .ofDecision fun g op => .any fun input? => ?_
  cases input? with
  | none => exact .pure trivial
  | some input => exact h _ _ _

/-- A tree consists of amounts, shifts and the instruction that combines. -/
theorem treePlan_writes {combine : Operand Source → Source → Step} {k : OpKind}
    {amounts : List Nat} (hk : ∀ a b, (combine a b).kind = k) :
    (treePlan combine amounts o).Makes (OfKinds (treeKinds k)) [] (EndsOfKinds (treeKinds k)) := by
  refine (treeLevels_writes rfl rfl fun Γ a b => .emit (y := ()) ?_ trivial).bind
    fun Δ last _ _ => .emit_bind (y := ()) rfl (.pure rfl)
  rw [OfKinds, hk]
  exact contains_treeKinds k

theorem registerTree_writes {suits : Bool} {combine : Operand Source → Source → Step} {k : OpKind}
    {shape : VectorShape} (hk : ∀ a b, (combine a b).kind = k) :
    Ensures (registerTree suits combine shape o) (Decision.Writes (treeKinds k)) := by
  unfold registerTree
  split
  swap
  · exact .pure trivial
  refine .any fun bits => ?_
  split
  · unfold reductionTree
    split
    · exact Ensures.bind (.any fun amounts => .pure (treePlan_writes hk)) fun p hp =>
        .pure (Decision.Writes.follow hp)
    · exact fun _ h => by cases h
  · exact .pure trivial

theorem minReduction_writes : minReduction.Writes (treeKinds .min) :=
  reductionRule_writes fun _ _ _ => registerTree_writes fun _ _ => rfl

theorem maxReduction_writes : maxReduction.Writes (treeKinds .max) :=
  reductionRule_writes fun _ _ _ => registerTree_writes fun _ _ => rfl

end Rules

end SimdLowering
