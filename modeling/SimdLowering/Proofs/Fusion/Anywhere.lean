/-
Sums that are fused wherever they stand.

Whatever else is in the function, the first round gets to the sum while its product is still a
product, and fuses it. What comes before in the round leaves the sum waiting; what comes after,
in this round and in the next, leaves the three operations in its place as they are, but for names,
since the target has nothing against them. So it does not matter in which order the operations
around the sum are visited, how deep they are nested, or whether the lowering succeeds.
-/
import SimdLowering.Proofs.Fusion.Lowering
import SimdLowering.Proofs.Fusion.Waiting

set_option autoImplicit false

namespace SimdLowering

open SimdLowering.Graph SimdLowering.Application SimdLowering.Rules

/-! ## What is known between visits -/

/-- Visits have led here from the function as it was, the sum waits, and nothing that is to come
has been refused. -/
structure FusionAwaits (o : LowerOptions) (g₀ : Graph) (func mul add : OpId) (c product : ValueId)
    (rest : List OpId) (ren : ValueId → ValueId) (s : Application) : Prop where
  replaces : Replaces o.ruleSet o.target.conversionTarget func (.start g₀ .empty) s ren
  waits : SumAwaits g₀ s.graph func mul add c product ren rest
  isToCome : add ∈ rest
  accepted : ∀ x ∈ rest, s.isRejected x = false

/-- Visits have led here from the function as it was, and the sum is fused. -/
structure FusionDone (o : LowerOptions) (g₀ : Graph) (func : OpId) (blk : BlockId) (add : OpId)
    (a b c sum : ValueId) (ren : ValueId → ValueId) (m : FusedMac) (s : Application) : Prop where
  replaces : Replaces o.ruleSet o.target.conversionTarget func (.start g₀ .empty) s ren
  renames : g₀.Renames s.graph func ren
  holdsBlock : s.graph.HoldsBlock func blk
  gone : ¬ s.graph.Inside func add
  fuses : s.graph.FusesIn blk (ren a) (ren b) (ren c) (ren sum) (g₀.value sum).ty (g₀.value c).ty
    o.shift m

section

variable {g₀ : Graph} {gone gone₀ : List OpId} {func mul add op d : OpId} {blk : BlockId}
  {a b c product sum : ValueId} {ren : ValueId → ValueId} {m : FusedMac} {o : LowerOptions}
  {s s' : Application} {rest : List OpId}
  (h : g₀.AddsProduct func blk mul add a b c product sum) (hscene₀ : Scene g₀ gone₀ func)
  (htarget : o.target = .aieml)
include h hscene₀ htarget

/-! ## Visits -/

/-- A visit to a summand that is a product, and that somebody else reads too, lowers it. -/
theorem rewritten_of_visit_summand (hup : Upright s.graph gone func g₀.ops.size)
    (hR : g₀.Renames s.graph func ren) (hadd : s.graph.Inside func add)
    (hd : c ∈ g₀.results d) (hk : g₀.kind d = .muli) (hin : s.graph.Inside func d)
    (hother : ∃ u ∈ s.graph.uses c, u.user ≠ add) (hopen : s.isRejected d = false)
    (hv : s.visitOp o.ruleSet o.target.conversionTarget d = .ok s') : s'.graph ≠ s.graph := by
  obtain ⟨hres, hkind, hfuses, hread⟩ :=
    h.summand_lowers hscene₀ hR hup hd hk hadd hin hother
  obtain ⟨⟨x, y⟩, hops, -, -, hx, hy⟩ := hup.scene.binaryOperands hin (by
    have harity := (hup.scene.shaped d hin).arity
    rwa [hkind] at harity)
  obtain ⟨e, he, hrule⟩ := exists_entry_of_mem (r := mulIToMulElem o.shift) htarget
    (by simp [aiemlRules])
  obtain ⟨⟨blk', hs⟩, -⟩ := spliced_of_visit hup hin hopen
    (by rw [htarget]; exact legality_of_shared hres hfuses hkind hread) he
    (by rw [hrule, hkind]; exact List.mem_singleton_self _)
    (fun c => by rw [hrule]; exact mulIToMulElem_takes hres hfuses hops hread)
    (fine_loneProduct fun v hv => by
      rcases List.mem_pair.mp hv with rfl | rfl
      · exact hx.visible.hasValue hup.scene.consistent
      · exact hy.visible.hasValue hup.scene.consistent)
    hres (fun e' he' hk' hne => by
      rw [hkind] at hk'
      exact absurd ((rule_of_muli htarget he' hk').trans hrule.symm) hne) hv
  -- What has been rewritten is in no block any more.
  intro hsame
  have hleft := hs.blockOf?_left
  rw [hsame, hs.placed] at hleft
  cases hleft

/-- As long as the sum waits, a visit to anything else leaves it waiting. -/
theorem waits_of_visit_other (hup : Upright s.graph gone func g₀.ops.size)
    (hpending : Pending g₀ s.graph func (op :: rest))
    (hW : FusionAwaits o g₀ func mul add c product (op :: rest) ren s) (hne : op ≠ add)
    (hv : s.visitOp o.ruleSet o.target.conversionTarget op = .ok s') :
    ∃ ren', FusionAwaits o g₀ func mul add c product rest ren' s' := by
  obtain ⟨hreplaces, hwaits, hadd, haccepted⟩ := hW
  have hin := hpending.inside op (List.mem_cons_self ..)
  have hvisited := LowerOptions.visited hup hin (tracks_any ..) hv
  have hadd := (List.mem_cons.mp hadd).resolve_left (Ne.symm hne)
  have haccepted' : ∀ x ∈ rest, s'.isRejected x = false := by
    intro x hx
    refine hvisited.isRejected_of_ne ?_ (haccepted x (List.mem_cons_of_mem _ hx))
    rintro rfl
    exact hpending.head_not_mem hx
  cases hvisited with
  | same hgraph =>
    refine ⟨ren, hreplaces.same hin hv hgraph, ?_, hadd, haccepted'⟩
    obtain ⟨hrenames, hinAdd, hinMul, honly, hsummand⟩ := hwaits
    refine ⟨hgraph ▸ hrenames, hgraph ▸ hinAdd, hgraph ▸ hinMul, hgraph ▸ honly, ?_⟩
    intro d hd hk
    rcases hsummand d hd hk with hnew | ⟨hmem, hother⟩
    · exact Or.inl hnew
    rcases List.mem_cons.mp hmem with rfl | hlater
    · -- The summand would not have been left as it was.
      exact absurd hgraph (rewritten_of_visit_summand h hscene₀ htarget hup hrenames hinAdd hd hk
        hin hother (haccepted d (List.mem_cons_self ..)) hv)
    · exact Or.inr ⟨hlater, hgraph ▸ hother⟩
  | rewritten blk' old r hrw =>
    have hmul : op ≠ mul := by
      rintro rfl
      exact hrw.not_legal fun c => by rw [htarget]; exact hwaits.legality_product h hscene₀ hup
    exact ⟨_, hreplaces.rewritten hin hv hrw.spliced, hwaits.spliced h hscene₀ hup.scene hin
      hrw.spliced hrw.lawful hpending hne hmul, hadd, haccepted'⟩

/-- A visit to the sum fuses it. -/
theorem done_of_visit_sum (hup : Upright s.graph gone func g₀.ops.size)
    (hpending : Pending g₀ s.graph func (add :: rest))
    (hW : FusionAwaits o g₀ func mul add c product (add :: rest) ren s)
    (hv : s.visitOp o.ruleSet o.target.conversionTarget add = .ok s') :
    ∃ ren' m, FusionDone o g₀ func blk add a b c sum ren' m s' := by
  obtain ⟨hreplaces, hwaits, -, haccepted⟩ := hW
  have hin := hwaits.inside_add
  have hkind := hwaits.addKind h hscene₀
  have hvalue : ∀ v ∈ [a, b, c], s.graph.HasValue (ren v) := fun v hv =>
    hwaits.renames.hasValue (h.hasValue hscene₀ hv)
  obtain ⟨hres, -, hty⟩ := hwaits.result h hscene₀
  have htyc : (s.graph.value (ren c)).ty = (g₀.value c).ty :=
    hwaits.renames.ty_eq (h.hasValue hscene₀ (by simp))
  have hfuses : (s.graph.value sum).ty.Fuses := hty ▸ h.shape
  -- One operand of the sum is still the product, and nobody else reads it.
  obtain ⟨lhs, rhs, hops, hmac⟩ := hwaits.macOperands h hscene₀ hpending hup
  obtain ⟨e, he, hrule⟩ := exists_entry_of_mem (r := mulAddToFmaElem o.shift) htarget
    (by simp [aiemlRules])
  -- So the rule that fuses takes the sum, and the lanewise one leaves it to that.
  obtain ⟨⟨blk', hs⟩, hr, -⟩ := spliced_of_visit hup hin (haccepted add (List.mem_cons_self ..))
    (by rw [htarget]; exact legality_of_sum hres hfuses hkind) he
    (by rw [hrule, hkind]; exact List.mem_singleton_self _)
    (fun _ => by
      rw [hrule]
      exact mulAddToFmaElem_takes hres hfuses hops hmac (hvalue c (by simp)))
    (fine_mixedSum fun v hv => by
      obtain ⟨w, hw, rfl⟩ := List.mem_map.mp (show v ∈ [a, b, c].map ren from hv)
      exact hvalue w hw)
    hres (fun e' he' hk' hne _ => by
      rw [hkind] at hk'
      rcases rule_of_addi htarget he' hk' with heq | heq
      · exact absurd (heq.trans hrule.symm) hne
      · rw [heq]
        exact addSubToElem_leaves hup.scene hin hops hmac) hv
  rw [hty, htyc] at hs hr
  -- What is spliced in has the shape asked for, and the sum has left its block.
  obtain ⟨m, hm⟩ := hwaits.fuses h hscene₀ (hpending.placed add (List.mem_cons_self ..)) hs
  have hrenames := hwaits.renames.spliced hup.scene hin hs hr
  have hblk : s.graph.blockOf? add = some blk :=
    (hpending.placed add (List.mem_cons_self ..)).trans
      ((hscene₀.consistent.places add blk).mp h.placed)
  have hholds := hin.holdsBlock_of_blockOf? hup.scene.consistent.toNestingAgrees hblk
  refine ⟨_, m, hreplaces.rewritten hin hv hs, hrenames, hs.holdsBlock_iff.mpr hholds, ?_, hm⟩
  exact not_inside_of_blockOf? hs.after.toNestingAgrees hs.blockOf?_left

omit htarget in
/-- After that, a visit to anything leaves it fused. -/
theorem done_of_later_visit (hup : Upright s.graph gone func g₀.ops.size)
    (hD : FusionDone o g₀ func blk add a b c sum ren m s) (hin : s.graph.Inside func op)
    (hv : s.visitOp o.ruleSet o.target.conversionTarget op = .ok s') :
    ∃ ren', FusionDone o g₀ func blk add a b c sum ren' m s' := by
  obtain ⟨hreplaces, hrenames, hholds, hgone, hfuses⟩ := hD
  cases LowerOptions.visited hup hin (tracks_any ..) hv with
  | same hgraph =>
    exact ⟨ren, hreplaces.same hin hv hgraph, hgraph ▸ hrenames, hgraph ▸ hholds, hgraph ▸ hgone,
      hgraph ▸ hfuses⟩
  | rewritten blk' old r hrw =>
    have hs := hrw.spliced
    have hop : op ∉ m.ops := fun hop => hrw.not_legal fun _ => hfuses.legality hop
    refine ⟨_, hreplaces.rewritten hin hv hs, hrenames.spliced hup.scene hin hs hrw.lawful,
      hs.holdsBlock_iff.mpr hholds, ?_, hfuses.spliced hup.scene hholds hs hop⟩
    rw [hs.inside_iff hin, not_or]
    refine ⟨fun hkept => hgone hkept.1, fun hnew => ?_⟩
    exact nextOps_fresh hnew (hrenames.hasOp (h.hasOp hscene₀).1)

/-! ## Rounds -/

/-- The first round fuses the sum. -/
theorem fusion_of_round (hup : Upright g₀ gone₀ func g₀.ops.size)
    (hround : (Application.start g₀ .empty).round o.ruleSet o.target.conversionTarget func =
      .ok s') :
    (∃ ren m, FusionDone o g₀ func blk add a b c sum ren m s') ∧
      UprightAt func g₀.ops.size s' := by
  have hstart : add ∈ g₀.postorder func :=
    (mem_postorder hscene₀.consistent hscene₀.ordered.acyclic).mpr h.inside
  -- The sum waits and is still to be visited, or it is fused.
  obtain ⟨hend, hI⟩ := round_induction
    (J := fun rest t => (∃ ren, FusionAwaits o g₀ func mul add c product rest ren t) ∨
      ∃ ren m, FusionDone o g₀ func blk add a b c sum ren m t)
    (o.visitsKeep func g₀.ops.size)
    (fun _ ht => ht.ground) ⟨gone₀, hup⟩
    (Or.inl ⟨id, .start, .start h hscene₀, hstart, fun _ _ => rfl⟩) (by
      rintro op rest t t' ⟨gone, ht⟩ hpending hJ hv
      have hin := hpending.inside op (List.mem_cons_self ..)
      rcases hJ with ⟨ren, hW⟩ | ⟨ren, m, hD⟩
      · by_cases hne : op = add
        · subst hne
          exact Or.inr (done_of_visit_sum h hscene₀ htarget ht hpending hW hv)
        · exact Or.inl (waits_of_visit_other h hscene₀ htarget ht hpending hW hne hv)
      · obtain ⟨ren', hD'⟩ := done_of_later_visit h hscene₀ ht hD hin hv
        exact Or.inr ⟨ren', m, hD'⟩)
    hround
  rcases hend with ⟨ren, hW⟩ | hdone
  · exact absurd hW.isToCome List.not_mem_nil
  · exact ⟨hdone, hI⟩

omit htarget in
/-- However many visits follow, it stays fused. -/
theorem fusion_of_visits (hup : UprightAt func g₀.ops.size s)
    (hD : ∃ ren m, FusionDone o g₀ func blk add a b c sum ren m s)
    (hv : Relation.ReflTransGen (VisitTo o.ruleSet o.target.conversionTarget func) s s') :
    ∃ ren m, FusionDone o g₀ func blk add a b c sum ren m s' := by
  refine hup.visits_induction (P := fun t => ∃ ren m, FusionDone o g₀ func blk add a b c sum
    ren m t)
    hD (fun ht hin hvisit ⟨ren, m, hD⟩ => ?_) hv
  obtain ⟨ren', hD'⟩ := done_of_later_visit h hscene₀ ht hD hin hvisit
  exact ⟨ren', m, hD'⟩

/-- So after any number of rounds but none the sum is fused. -/
theorem fusion_of_rounds (hup : Upright g₀ gone₀ func g₀.ops.size) {left done k : Nat}
    {fixpoint : Bool} (hleft : left ≠ 0)
    (hrounds : rounds o.ruleSet o.target.conversionTarget func left done (.start g₀ .empty) =
      .ok (s, k, fixpoint)) :
    (∃ ren m, FusionDone o g₀ func blk add a b c sum ren m s) ∧ UprightAt func g₀.ops.size s := by
  obtain ⟨left, rfl⟩ := Nat.exists_eq_succ_of_ne_zero hleft
  obtain ⟨t, ht, hrounds⟩ := bind_eq_ok.mp hrounds
  obtain ⟨hdone, htI⟩ := fusion_of_round h hscene₀ htarget hup ht
  have hrest := visits_of_remaining_rounds htI hrounds
  exact ⟨fusion_of_visits h hscene₀ htI hdone hrest, htI.visits hrest⟩

end

/-! ## The lowering -/

/-- Take any function with a history that validates, reads nothing that is still to come and is
well shaped, with anything in it and at any depth, and any sum in it of a fused shape that adds
something to a product that nobody else reads. If the summand is a product too, let it have the
type of the sum and another reader. Let the function be lowered for the second generation, in at
least one round. If no read is without lanes, the lowering comes back unless a number is too large
for its machine word. And whenever it comes back, with whatever answer, the sum has gone; in its
block the summand goes up, the product of the factors is added to it and the total comes down, by
the names that visits have put in the place of theirs, and that is what is read where the sum was.
Neither a lanewise product nor a lanewise sum gives any of the three results. -/
theorem lower_fusesAnywhere {g : Graph} {gone : List OpId} {func mul add : OpId} {blk : BlockId}
    {a b c product sum : ValueId} {o : LowerOptions} {edits : List Edit}
    (history : Edit.replay edits = .ok (g, gone))
    (hreads : ∀ v, g.uses v ≠ [] → g.HasValue v) (hfunc : g.HasOp func)
    (hkind : g.kind func = .func) (hvalid : g.Validates func)
    (hshaped : ∀ op, g.Inside func op → g.WellShaped op)
    (h : g.AddsProduct func blk mul add a b c product sum) (htarget : o.target = .aieml)
    (hbudget : o.maxIterations ≠ 0) :
    ((∀ op, g.Inside func op → g.HasLanes op) →
        (g.lower func o = .error .overflow ∧ g.MayOverflowUnder func) ∨
          ∃ x, g.lower func o = .ok x) ∧
      ∀ g' answer, g.lower func o = .ok (g', answer) → ∃ s ren m, s.graph = g' ∧
        Replaces o.ruleSet o.target.conversionTarget func (.start g .empty) s ren ∧
        g.Renames g' func ren ∧ ¬ g'.Inside func add ∧
        g'.FusesIn blk (ren a) (ren b) (ren c) (ren sum) (g.value sum).ty (g.value c).ty
          o.shift m ∧
        ∀ v ∈ [m.up, m.total, ren sum], ∀ d, v ∈ g'.results d →
          g'.kind d ≠ .mulElem ∧ g'.kind d ≠ .addElem := by
  have hup := Upright.of_replay history hreads hfunc hvalid hshaped
  -- Where every read has lanes, the rounds come to their end or a number overflows.
  constructor
  · intro hlanes
    rcases lower_upright hup hlanes o with ⟨x, hx, -⟩ | ⟨e, ⟨rfl, hover⟩, hfails⟩
    · exact Or.inr ⟨x, hx⟩
    · exact Or.inl ⟨hfails, hover⟩
  · intro g' answer hlower
    obtain ⟨-, ⟨hk, -⟩ | ⟨-, s, k, fixpoint, hrounds, rfl, -⟩⟩ := lower_eq_ok hlower
    · exact absurd hkind hk
    obtain ⟨⟨ren, m, hD⟩, gone', hup'⟩ := fusion_of_rounds h hup.scene htarget hup hbudget hrounds
    exact ⟨s, ren, m, rfl, hD.replaces, hD.renames, hD.gone, hD.fuses,
      fun v hv d hd => hD.fuses.kind_ne hup'.scene.consistent hv hd⟩

/-- The history of a function with two products, of which the second is added to the first and to
that sum again. -/
def sharedProductHistory : List Edit :=
  [.createBlock [.vector 16 (.i 32), .vector 16 (.i 32), .vector 16 (.i 32)],
    .createOp (Instr.binary .muli ⟨⟨0⟩, .vector 16 (.i 32)⟩ ⟨1⟩), .append ⟨0⟩ ⟨0⟩,
    .createOp (Instr.binary .muli ⟨⟨1⟩, .vector 16 (.i 32)⟩ ⟨2⟩), .append ⟨0⟩ ⟨1⟩,
    .createOp (Instr.binary .addi ⟨⟨4⟩, .vector 16 (.i 32)⟩ ⟨3⟩), .append ⟨0⟩ ⟨2⟩,
    .createOp (Instr.binary .addi ⟨⟨5⟩, .vector 16 (.i 32)⟩ ⟨4⟩), .append ⟨0⟩ ⟨3⟩,
    .createOp (Instr.ret [⟨6⟩]), .append ⟨0⟩ ⟨4⟩, .createRegion [⟨0⟩],
    .createOp (Instr.func "shared_product" ⟨0⟩)]

/-- The graph the history ends with. -/
def sharedProductGraph : Graph where
  ops := #[⟨.muli, [⟨0⟩, ⟨1⟩], [⟨3⟩], .empty, [], some ⟨0⟩⟩,
    ⟨.muli, [⟨1⟩, ⟨2⟩], [⟨4⟩], .empty, [], some ⟨0⟩⟩,
    ⟨.addi, [⟨4⟩, ⟨3⟩], [⟨5⟩], .empty, [], some ⟨0⟩⟩,
    ⟨.addi, [⟨5⟩, ⟨4⟩], [⟨6⟩], .empty, [], some ⟨0⟩⟩, ⟨.ret, [⟨6⟩], [], .empty, [], some ⟨0⟩⟩,
    ⟨.func, [], [], .ofList [(AttrName.symName, .str "shared_product")], [⟨0⟩], none⟩]
  values := #[⟨.argument ⟨0⟩ 0, .vector 16 (.i 32)⟩, ⟨.argument ⟨0⟩ 1, .vector 16 (.i 32)⟩,
    ⟨.argument ⟨0⟩ 2, .vector 16 (.i 32)⟩, ⟨.result ⟨0⟩ 0, .vector 16 (.i 32)⟩,
    ⟨.result ⟨1⟩ 0, .vector 16 (.i 32)⟩, ⟨.result ⟨2⟩ 0, .vector 16 (.i 32)⟩,
    ⟨.result ⟨3⟩ 0, .vector 16 (.i 32)⟩]
  blocks := #[⟨[⟨0⟩, ⟨1⟩, ⟨2⟩], [⟨0⟩, ⟨1⟩, ⟨2⟩, ⟨3⟩, ⟨4⟩], some ⟨0⟩⟩]
  regions := #[⟨[⟨0⟩], some ⟨5⟩⟩]
  chains := #[[⟨⟨0⟩, 0⟩], [⟨⟨0⟩, 1⟩, ⟨⟨1⟩, 0⟩], [⟨⟨1⟩, 1⟩], [⟨⟨2⟩, 1⟩], [⟨⟨2⟩, 0⟩, ⟨⟨3⟩, 1⟩],
    [⟨⟨3⟩, 0⟩], [⟨⟨4⟩, 0⟩]]

theorem sharedProductGraph_history :
    Edit.replay sharedProductHistory = .ok (sharedProductGraph, []) := by
  cbv

theorem sharedProductGraph_validates : sharedProductGraph.Validates ⟨5⟩ :=
  .of_replay sharedProductGraph_history rfl (by cbv)

theorem sharedProductGraph_inside {op : OpId} (hop : sharedProductGraph.Inside ⟨5⟩ op) :
    op ∈ [⟨0⟩, ⟨1⟩, ⟨2⟩, ⟨3⟩, ⟨4⟩] := by
  have hlist : sharedProductGraph.nested ⟨5⟩ = [⟨0⟩, ⟨1⟩, ⟨2⟩, ⟨3⟩, ⟨4⟩] := by decide
  exact hlist ▸ mem_nested_iff.mpr hop

theorem sharedProductGraph_generic {op : OpId} (hop : sharedProductGraph.Inside ⟨5⟩ op) :
    sharedProductGraph.Generic op := by
  have hmem := sharedProductGraph_inside hop
  simp only [List.mem_cons, List.not_mem_nil, or_false] at hmem
  rcases hmem with rfl | rfl | rfl | rfl | rfl
  · refine ⟨⟨_, .binary .muli ⟨0⟩ ⟨1⟩ (by decide), rfl, rfl, rfl, rfl, rfl⟩, fun m elem h => ?_⟩
    cases List.mem_singleton.mp h
    decide
  · refine ⟨⟨_, .binary .muli ⟨1⟩ ⟨2⟩ (by decide), rfl, rfl, rfl, rfl, rfl⟩, fun m elem h => ?_⟩
    cases List.mem_singleton.mp h
    decide
  · refine ⟨⟨_, .binary .addi ⟨4⟩ ⟨3⟩ (by decide), rfl, rfl, rfl, rfl, rfl⟩, fun m elem h => ?_⟩
    cases List.mem_singleton.mp h
    decide
  · refine ⟨⟨_, .binary .addi ⟨5⟩ ⟨4⟩ (by decide), rfl, rfl, rfl, rfl, rfl⟩, fun m elem h => ?_⟩
    cases List.mem_singleton.mp h
    decide
  · exact ⟨⟨_, .ret [⟨6⟩], rfl, rfl, rfl, rfl, rfl⟩, fun m elem h => nomatch h⟩

/-- The first sum adds both products; the second product has another reader. -/
theorem sharedProductGraph_addsProduct : sharedProductGraph.AddsProduct ⟨5⟩ ⟨0⟩ ⟨0⟩ ⟨2⟩ ⟨0⟩ ⟨1⟩
    ⟨4⟩ ⟨3⟩ ⟨5⟩ where
  inside := by
    have hentry : sharedProductGraph.IsEntry ⟨5⟩ ⟨0⟩ := ⟨rfl, ⟨0⟩, rfl, rfl⟩
    exact hentry.holdsBlock.inside (by decide)
  placed := by decide
  addKind := rfl
  addOperands := Or.inr rfl
  addResults := rfl
  mulKind := rfl
  mulOperands := rfl
  mulResults := rfl
  onlyRead := by decide
  summand _ _ _ := ⟨rfl, by decide⟩
  shape := FusedShape.wide.fuses

/-- The first sum is fused although it adds two products. -/
theorem lower_fusesAnywhere_sharedProduct : ∃ (g' : Graph)
    (answer : Except LowerError LowerReport) (ren : ValueId → ValueId) (m : FusedMac),
    sharedProductGraph.lower ⟨5⟩ ⟨.aieml, 11, 10, true⟩ = .ok (g', answer) ∧
      ¬ g'.Inside ⟨5⟩ ⟨2⟩ ∧
      g'.FusesIn ⟨0⟩ (ren ⟨0⟩) (ren ⟨1⟩) (ren ⟨4⟩) (ren ⟨5⟩) (.vector 16 (.i 32))
        (.vector 16 (.i 32)) 11 m := by
  obtain ⟨hreturns, hfused⟩ :=
    lower_fusesAnywhere (o := ⟨.aieml, 11, 10, true⟩) sharedProductGraph_history
      (hasValue_of_uses (Nat.le_refl 7)) (by decide) rfl sharedProductGraph_validates
      (fun _ hop => (sharedProductGraph_generic hop).wellShaped) sharedProductGraph_addsProduct rfl
      (by decide)
  have hshort : ¬ sharedProductGraph.MayOverflowUnder ⟨5⟩ := by decide
  obtain ⟨-, hover⟩ | ⟨⟨g', answer⟩, hlower⟩ :=
    hreturns fun _ hop => (sharedProductGraph_generic hop).hasLanes
  · exact absurd hover hshort
  obtain ⟨s, ren, m, -, -, -, hgone, hfuses, -⟩ := hfused g' answer hlower
  exact ⟨g', answer, ren, m, hlower, hgone, hfuses⟩

/-! ## Products of different types -/

/-- The history of a function that adds a product to another one with fewer lanes, which it
returns beside the sum. -/
def mixedProductsHistory : List Edit :=
  [.createBlock [.vector 16 (.i 32), .vector 16 (.i 32), .vector 8 (.i 32), .vector 8 (.i 32)],
    .createOp (Instr.binary .muli ⟨⟨0⟩, .vector 16 (.i 32)⟩ ⟨1⟩), .append ⟨0⟩ ⟨0⟩,
    .createOp (Instr.binary .muli ⟨⟨2⟩, .vector 8 (.i 32)⟩ ⟨3⟩), .append ⟨0⟩ ⟨1⟩,
    .createOp (Instr.binary .addi ⟨⟨4⟩, .vector 16 (.i 32)⟩ ⟨5⟩), .append ⟨0⟩ ⟨2⟩,
    .createOp (Instr.ret [⟨6⟩, ⟨5⟩]), .append ⟨0⟩ ⟨3⟩, .createRegion [⟨0⟩],
    .createOp (Instr.func "mixed_products" ⟨0⟩)]

/-- The graph the history ends with. -/
def mixedProductsGraph : Graph where
  ops := #[⟨.muli, [⟨0⟩, ⟨1⟩], [⟨4⟩], .empty, [], some ⟨0⟩⟩,
    ⟨.muli, [⟨2⟩, ⟨3⟩], [⟨5⟩], .empty, [], some ⟨0⟩⟩,
    ⟨.addi, [⟨4⟩, ⟨5⟩], [⟨6⟩], .empty, [], some ⟨0⟩⟩,
    ⟨.ret, [⟨6⟩, ⟨5⟩], [], .empty, [], some ⟨0⟩⟩,
    ⟨.func, [], [], .ofList [(AttrName.symName, .str "mixed_products")], [⟨0⟩], none⟩]
  values := #[⟨.argument ⟨0⟩ 0, .vector 16 (.i 32)⟩, ⟨.argument ⟨0⟩ 1, .vector 16 (.i 32)⟩,
    ⟨.argument ⟨0⟩ 2, .vector 8 (.i 32)⟩, ⟨.argument ⟨0⟩ 3, .vector 8 (.i 32)⟩,
    ⟨.result ⟨0⟩ 0, .vector 16 (.i 32)⟩, ⟨.result ⟨1⟩ 0, .vector 8 (.i 32)⟩,
    ⟨.result ⟨2⟩ 0, .vector 16 (.i 32)⟩]
  blocks := #[⟨[⟨0⟩, ⟨1⟩, ⟨2⟩, ⟨3⟩], [⟨0⟩, ⟨1⟩, ⟨2⟩, ⟨3⟩], some ⟨0⟩⟩]
  regions := #[⟨[⟨0⟩], some ⟨4⟩⟩]
  chains := #[[⟨⟨0⟩, 0⟩], [⟨⟨0⟩, 1⟩], [⟨⟨1⟩, 0⟩], [⟨⟨1⟩, 1⟩], [⟨⟨2⟩, 0⟩], [⟨⟨2⟩, 1⟩, ⟨⟨3⟩, 1⟩],
    [⟨⟨3⟩, 0⟩]]

/-- The kinds of the operations of a block after a lowering with the default options, if it comes
back. -/
def loweredKinds (g : Graph) (func : OpId) (gen : Generation) (b : BlockId) :
    Option (List OpKind) :=
  (g.lower func ⟨gen, 0, 10, true⟩).toOption.map fun (g', _) => (g'.opsIn b).map g'.kind

/-- The sum adds two products when its turn comes, since no rule takes the shorter one, and so it
is not fused, although nobody else reads the longer one and the shorter one has another reader. -/
theorem lower_mixedProducts :
    Edit.replay mixedProductsHistory = .ok (mixedProductsGraph, []) ∧
      mixedProductsGraph.Validates ⟨4⟩ ∧
      (∀ op, mixedProductsGraph.Inside ⟨4⟩ op → mixedProductsGraph.Generic op) ∧
      (mixedProductsGraph.value ⟨6⟩).ty.Fuses ∧
      (∀ u ∈ mixedProductsGraph.uses ⟨4⟩, u.user = ⟨2⟩) ∧
      (∃ u ∈ mixedProductsGraph.uses ⟨5⟩, u.user ≠ ⟨2⟩) ∧
      loweredKinds mixedProductsGraph ⟨4⟩ .aieml ⟨0⟩ =
        some [.mulElem, .srs, .muli, .addElem, .ret] := by
  have history : Edit.replay mixedProductsHistory = .ok (mixedProductsGraph, []) := by cbv
  refine ⟨history, .of_replay history rfl (by cbv), fun op hop => ?_, FusedShape.wide.fuses,
    by decide, by decide, by cbv⟩
  have hlist : mixedProductsGraph.nested ⟨4⟩ = [⟨0⟩, ⟨1⟩, ⟨2⟩, ⟨3⟩] := by decide
  have hmem := hlist ▸ mem_nested_iff.mpr hop
  simp only [List.mem_cons, List.not_mem_nil, or_false] at hmem
  rcases hmem with rfl | rfl | rfl | rfl
  · refine ⟨⟨_, .binary .muli ⟨0⟩ ⟨1⟩ (by decide), rfl, rfl, rfl, rfl, rfl⟩, fun m elem h => ?_⟩
    cases List.mem_singleton.mp h
    decide
  · refine ⟨⟨_, .binary .muli ⟨2⟩ ⟨3⟩ (by decide), rfl, rfl, rfl, rfl, rfl⟩, fun m elem h => ?_⟩
    cases List.mem_singleton.mp h
    decide
  · refine ⟨⟨_, .binary .addi ⟨4⟩ ⟨5⟩ (by decide), rfl, rfl, rfl, rfl, rfl⟩, fun m elem h => ?_⟩
    cases List.mem_singleton.mp h
    decide
  · exact ⟨⟨_, .ret [⟨6⟩, ⟨5⟩], rfl, rfl, rfl, rfl, rfl⟩,
      fun m elem h => absurd h List.not_mem_nil⟩

end SimdLowering
