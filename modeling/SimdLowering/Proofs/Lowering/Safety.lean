/-
A lowering never fails half way, and leaves a valid function.

Every visit either leaves the graph alone or splices a lawful recipe in, and a splice keeps
a valid function valid. So nothing the lowering insists on can be missing: no value is still
read when its operation is removed, no replacement has too many results, and the validation
at the end finds nothing. This holds wherever the lowering stops, also when it stops with an
error.
-/
import SimdLowering.Lowering
import SimdLowering.Proofs.Graph.Closed
import SimdLowering.Proofs.Lowering.Vocabulary
import SimdLowering.Proofs.Rewrite.Traversal
import SimdLowering.Proofs.Rewrite.Verification
import SimdLowering.Proofs.Target.Lawful

set_option autoImplicit false

namespace SimdLowering

namespace Graph

variable {g g' : Graph} {gone : List OpId} {root func op : OpId} {b : BlockId} {old : ValueId}
  {r : Recipe}

/-- The operation has been removed: it lies in no block and is on no chain, although it
has operands. -/
def Retired (g : Graph) (op : OpId) : Prop :=
  g.blockOf? op = none ∧ g.operands op ≠ [] ∧ ∀ v, ∀ u ∈ g.uses v, u.user ≠ op

/-- After a splice, no operation waits for a value that is still to come, if none did
before. -/
theorem Spliced.hasValue_of_reads (hs : Spliced g g' gone op b old r)
    (hord : g'.Ordered root (op :: gone)) (hin : g.Inside root op)
    (hreads : ∀ o, o ∉ gone → ∀ v ∈ g.operands o, g.HasValue v) :
    ∀ o, o ∉ op :: gone → ∀ v ∈ g'.operands o, g'.HasValue v := by
  intro o ho v hv
  rcases hs.hasOp_iff.mp (hasOp_of_mem_operands hv) with hop | ⟨i, d, hd, rfl⟩
  · rw [hs.operands_of_hasOp hop, List.mem_map] at hv
    obtain ⟨w, hw, rfl⟩ := hv
    have hlive : o ∉ gone := fun h => ho (List.mem_cons_of_mem _ h)
    rw [readAs, if_neg hlive, renamed]
    split
    · rw [HasValue, hs.valuesSize, standIn, r.length_all]
      exact Nat.add_lt_add_left (Nat.lt_succ_self _) _
    · exact hs.hasValue (hreads o hlive w hw)
  · have hmade := (hs.inside_iff hin (o := ⟨g.ops.size + i⟩)).mpr
      (Or.inr (mem_nextOps_all.mpr ⟨i, d, hd, rfl⟩))
    exact hord.hasValue_of_mem_operands hs.after hmade hv

/-- What is kept while a function is rewritten, of which `size` operations were there at
the start: it stays a valid scene, and the operations that rules create are in place, or
have been removed again. -/
structure Upright (g : Graph) (gone : List OpId) (func : OpId) (size : Nat) : Prop where
  scene : Scene g gone func
  valid : g.Valid func gone
  root : g.HasOp func
  reads : ∀ o, o ∉ gone → ∀ v ∈ g.operands o, g.HasValue v
  lowered : ∀ o, size ≤ o.index → g.HasOp o → (g.kind o).isLowered = true
  settled : ∀ o, size ≤ o.index → g.HasOp o →
    g.Inside func o ∨ (o ∈ gone ∧ g.blockOf? o = none ∧ g.operands o ≠ [])

/-- The root of an upright function is never what is rewritten. -/
theorem Upright.spliced {size : Nat} (h : Upright g gone func size) (hin : g.Inside func op)
    (hs : Spliced g g' gone op b old r) (hr : r.Lawful g func op)
    (hroot : (g.kind op).isLowered = true → g.kind op = .upd ∨ g.kind op = .fma) :
    Upright g' (op :: gone) func size := by
  have hscene := h.scene.spliced hin hs hr
  refine ⟨hscene, hs.valid h.valid hin hr.visible h.reads, hs.hasOp_iff.mpr (Or.inl h.root),
    hs.hasValue_of_reads hscene.ordered hin h.reads, fun o ho hop => ?_, fun o ho hop => ?_⟩
  · rcases hs.hasOp_iff.mp hop with hop | ⟨i, d, hd, rfl⟩
    · rw [hs.kind_of_hasOp hop]
      exact h.lowered o ho hop
    · rw [hs.kind_made hd]
      exact (hr.steps i d hd).lowered
  · rcases hs.hasOp_iff.mp hop with hop | ⟨i, d, hd, rfl⟩
    · by_cases e : o = op
      · -- Only loads and multiply-adds are removed again, and both have operands.
        subst e
        have harity := (h.scene.shaped o hin).arity
        refine Or.inr ⟨List.mem_cons_self .., hs.blockOf?_left, fun hnil => ?_⟩
        rw [hs.operands_of_hasOp hop, List.map_eq_nil_iff] at hnil
        rw [hnil] at harity
        rcases hroot (h.lowered o ho hop) with hk | hk <;> rw [hk] at harity <;> cases harity
      · rcases h.settled o ho hop with hi | ⟨hg, hb, hne⟩
        · exact Or.inl ((hs.inside_iff hin).mpr (Or.inl ⟨hi, e⟩))
        · refine Or.inr ⟨List.mem_cons_of_mem _ hg, ?_, ?_⟩
          · rw [hs.blockOf?_of_ne hop e]
            exact hb
          · rw [hs.operands_of_hasOp hop]
            simpa using hne
    · exact Or.inl ((hs.inside_iff hin).mpr (Or.inr (mem_nextOps_all.mpr ⟨i, d, hd, rfl⟩)))

theorem Upright.sameFrame (hs : Spliced g g' gone op b old r) : SameFrame root g g' :=
  ⟨fun _ _ hu => hs.under_iff.mpr hu, fun _ _ hb => by rw [hs.blocksIn]; exact hb⟩

end Graph

open SimdLowering.Graph

/-- An application of the rules of a generation comes back with an upright function, if no
read is without lanes, unless a number is too large; and then it may be so from the start. -/
theorem LowerOptions.apply_upright {o : LowerOptions} {g : Graph} {gone : List OpId}
    {func : OpId} (h : Upright g gone func g.ops.size)
    (hlanes : ∀ op, g.Inside func op → g.HasLanes op) (sizes : AccessSizes) :
    YieldsUnless (g.OverflowsUnder func)
      (o.ruleSet.apply g func o.target.conversionTarget o.maxIterations sizes) fun x =>
        (∃ gone', Upright x.1 gone' func g.ops.size) ∧
          (x.1.MayOverflowUnder func → g.MayOverflowUnder func) := by
  refine (RuleSet.apply_keeps (I := fun s =>
      ((∃ gone', Upright s.graph gone' func g.ops.size) ∧
        (s.graph.MayOverflowUnder func → g.MayOverflowUnder func)) ∧
      ∀ op, s.graph.Inside func op → s.graph.HasLanes op)
    (fun s ⟨⟨⟨_, hs⟩, _⟩, _⟩ => hs.scene.consistent.toNestingAgrees) ?_
    ⟨⟨⟨gone, h⟩, id⟩, hlanes⟩).mono fun x hx => hx.1.1
  -- One visit goes through or has an excuse, and an overflow afterwards has one before.
  intro s op ⟨⟨⟨gone', hs⟩, hover⟩, hlanes⟩ hin
  have hvisit := Application.visitOp_yields o.target.conversionTarget_total o.ruleSet_lawful
    hs.scene hin (Application.tracks_any ..)
  refine (hvisit.weaken fun e he => ?_).mono fun s' hv => ?_
  · have he := (he (hlanes op hin)).under hin
    exact ⟨he.1, hover he.2⟩
  cases hv with
  | same hg => exact ⟨⟨⟨⟨gone', hg ▸ hs⟩, hg ▸ hover⟩, hg ▸ hlanes⟩, hg ▸ .refl ..⟩
  | rewritten b old r h =>
    obtain ⟨e, he, hk, -⟩ := h.rule
    exact ⟨⟨⟨⟨_, hs.spliced hin h.spliced h.lawful (root_of_isLowered he hk)⟩,
      fun hunder => hover (h.spliced.mayOverflowUnder hs.scene hin h.lawful hunder)⟩,
      h.spliced.hasLanes hin h.lawful hlanes⟩, Upright.sameFrame h.spliced⟩

namespace Graph

variable {g : Graph} {gone : List OpId} {func : OpId}

/-- A lowering of an upright function without reads of nothing comes back, with an upright
function, unless a number is too large. -/
theorem lower_upright (h : Upright g gone func g.ops.size)
    (hlanes : ∀ op, g.Inside func op → g.HasLanes op) (o : LowerOptions) :
    YieldsUnless (g.OverflowsUnder func) (g.lower func o) fun x =>
      ∃ gone', Upright x.1 gone' func g.ops.size := by
  unfold lower
  have hop : (g.op? func).isNone = false := by
    rw [op?_eq_some h.root]
    rfl
  rw [hop, if_neg Bool.false_ne_true]
  -- The rounds, the verification and the last validation, each of which goes through or overflows.
  by_cases hk : g.kind func = .func
  · rw [if_neg (not_not_intro hk)]
    refine (LowerOptions.apply_upright h hlanes .empty).bind
      fun ⟨g', sizes, result⟩ ⟨⟨gone', hg'⟩, hover⟩ => ?_
    dsimp only
    split
    · exact .pure ⟨gone', hg'⟩
    have hverify := ConversionTarget.verify_total o.target.conversionTarget_total hg'.scene sizes
    refine (hverify.weaken fun e he => ⟨he.1, hover he.2⟩).bind fun ⟨illegal, _⟩ _ => ?_
    dsimp only
    split
    · exact .pure ⟨gone', hg'⟩
    · rw [(requireValid_eq_ok hg'.scene.consistent hg'.valid.acyclic).mpr hg'.valid]
      exact .pure ⟨gone', hg'⟩
  · rw [if_pos hk]
    exact .pure ⟨gone, h⟩

/-- A function with a history that validates and is well shaped is upright. -/
theorem Upright.of_replay {edits : List Edit} (history : Edit.replay edits = .ok (g, gone))
    (hreads : ∀ v, g.uses v ≠ [] → g.HasValue v) (hfunc : g.HasOp func)
    (hvalid : g.Validates func) (hshaped : ∀ op, g.Inside func op → g.WellShaped op) :
    Upright g gone func g.ops.size := by
  have hc := consistent_of_replay history
  have hv := (validates_iff hc).mp hvalid
  refine ⟨⟨hc, hv.toOrdered, hshaped⟩, hv, hfunc, fun op hop v hmem => hreads v fun hnil => ?_,
    fun op hsize hop => ?_, fun op hsize hop => ?_⟩
  · obtain ⟨i, hi⟩ := List.mem_iff_getElem?.mp hmem
    have := (hc.reads v ⟨op, i⟩).mpr ⟨hop, hi⟩
    rw [hnil] at this
    cases this
  · exact absurd hop (Nat.not_lt.mpr hsize)
  · exact absurd hop (Nat.not_lt.mpr hsize)

/-- Take any function with a history that validates, reads nothing that is still to come and
is made in the generic vocabulary, and any options. Then the lowering comes back, with an
answer or an error, and with a function that validates again; and of the operations it has
created, each lies under the function or has been removed again. It cannot come back where one
of the numbers it computes is too large for its machine word, which takes a read, or a vector of
`2 ^ 31` lanes or `2 ^ 32` bits. -/
theorem lower_keeps_valid {edits : List Edit} {o : LowerOptions}
    (history : Edit.replay edits = .ok (g, gone)) (hreads : ∀ v, g.uses v ≠ [] → g.HasValue v)
    (hfunc : g.HasOp func) (hvalid : g.Validates func)
    (hgeneric : ∀ op, g.Inside func op → g.Generic op) :
    (g.lower func o = .error .overflow ∧ g.MayOverflowUnder func) ∨
    ∃ g' answer, g.lower func o = .ok (g', answer) ∧ g'.Validates func ∧
      ∀ op, ¬ g.HasOp op → g'.HasOp op → g'.Inside func op ∨ g'.Retired op := by
  have hupright := Upright.of_replay history hreads hfunc hvalid
    fun op hop => (hgeneric op hop).wellShaped
  rcases lower_upright hupright (fun op hop => (hgeneric op hop).hasLanes) o with
    ⟨⟨g', answer⟩, hrun, gone', hg'⟩ | ⟨e, ⟨rfl, hover⟩, hrun⟩
  swap
  · exact Or.inl ⟨hrun, hover⟩
  refine Or.inr ⟨g', answer, hrun, (validates_iff hg'.scene.consistent).mpr hg'.valid,
    fun op hnew hop => ?_⟩
  rcases hg'.settled op (Nat.not_lt.mp hnew) hop with hin | ⟨hgone, hblock, hne⟩
  · exact Or.inl hin
  · refine Or.inr ⟨hblock, hne, fun v u hu e => ?_⟩
    exact ((hg'.scene.consistent.reads v u).mp hu).1 (e ▸ hgone)

/-- The history of a function that returns the sum of its two arguments. -/
def sumHistory : List Edit :=
  [.createBlock [.vector 16 (.i 32), .vector 16 (.i 32)],
    .createOp (Instr.binary .addi ⟨⟨0⟩, .vector 16 (.i 32)⟩ ⟨1⟩), .append ⟨0⟩ ⟨0⟩,
    .createOp (Instr.ret [⟨2⟩]), .append ⟨0⟩ ⟨1⟩, .createRegion [⟨0⟩],
    .createOp (Instr.func "sum" ⟨0⟩)]

/-- The graph the history ends with. -/
def sumGraph : Graph where
  ops := #[⟨.addi, [⟨0⟩, ⟨1⟩], [⟨2⟩], .empty, [], some ⟨0⟩⟩,
    ⟨.ret, [⟨2⟩], [], .empty, [], some ⟨0⟩⟩,
    ⟨.func, [], [], .ofList [(AttrName.symName, .str "sum")], [⟨0⟩], none⟩]
  values := #[⟨.argument ⟨0⟩ 0, .vector 16 (.i 32)⟩, ⟨.argument ⟨0⟩ 1, .vector 16 (.i 32)⟩,
    ⟨.result ⟨0⟩ 0, .vector 16 (.i 32)⟩]
  blocks := #[⟨[⟨0⟩, ⟨1⟩], [⟨0⟩, ⟨1⟩], some ⟨0⟩⟩]
  regions := #[⟨[⟨0⟩], some ⟨2⟩⟩]
  chains := #[[⟨⟨0⟩, 0⟩], [⟨⟨0⟩, 1⟩], [⟨⟨1⟩, 0⟩]]

theorem sumGraph_history : Edit.replay sumHistory = .ok (sumGraph, []) := by cbv

theorem sumGraph_validates : sumGraph.Validates ⟨2⟩ :=
  .of_replay sumGraph_history rfl (by cbv)

theorem sumGraph_reads : ∀ v, sumGraph.uses v ≠ [] → sumGraph.HasValue v :=
  hasValue_of_uses (Nat.le_refl 3)

theorem sumGraph_inside {op : OpId} (hop : sumGraph.Inside ⟨2⟩ op) : op = ⟨0⟩ ∨ op = ⟨1⟩ := by
  have hlist : sumGraph.nested ⟨2⟩ = [⟨0⟩, ⟨1⟩] := by decide
  have hmem := mem_nested_iff.mpr hop
  rw [hlist] at hmem
  exact List.mem_pair.mp hmem

theorem sumGraph_generic {op : OpId} (hop : sumGraph.Inside ⟨2⟩ op) : sumGraph.Generic op := by
  rcases sumGraph_inside hop with rfl | rfl
  · refine ⟨⟨_, .binary .addi ⟨0⟩ ⟨1⟩ (by decide), rfl, rfl, rfl, rfl, rfl⟩, ?_⟩
    intro n elem h
    cases List.mem_singleton.mp h
    decide
  · refine ⟨⟨_, .ret [⟨2⟩], rfl, rfl, rfl, rfl, rfl⟩, ?_⟩
    intro n elem h
    cases h

/-- The lowering of the sum comes back, for nothing in it is too large. -/
theorem sumGraph_lower (o : LowerOptions) :
    ∃ g' answer, sumGraph.lower ⟨2⟩ o = .ok (g', answer) := by
  have hupright := Upright.of_replay sumGraph_history sumGraph_reads (by decide)
    sumGraph_validates fun _ hop => (sumGraph_generic hop).wellShaped
  have hshort : ¬ sumGraph.MayOverflowUnder ⟨2⟩ := by decide
  obtain ⟨⟨g', answer⟩, h, -⟩ := (lower_upright hupright
    (fun _ hop => (sumGraph_generic hop).hasLanes) o).yields fun _ he => hshort he.2
  exact ⟨g', answer, h⟩

/-- And what it comes back with validates. -/
theorem lower_keeps_valid_sum : ∃ g' answer,
    sumGraph.lower ⟨2⟩ ⟨.aieml, 0, 10, true⟩ = .ok (g', answer) ∧ g'.Validates ⟨2⟩ := by
  have hshort : ¬ sumGraph.MayOverflowUnder ⟨2⟩ := by decide
  obtain ⟨-, hover⟩ | ⟨g', answer, hrun, hvalid, -⟩ :=
    lower_keeps_valid (o := ⟨.aieml, 0, 10, true⟩) sumGraph_history sumGraph_reads (by decide)
      sumGraph_validates fun _ => sumGraph_generic
  · exact absurd hover hshort
  · exact ⟨g', answer, hrun, hvalid⟩

end Graph

end SimdLowering
