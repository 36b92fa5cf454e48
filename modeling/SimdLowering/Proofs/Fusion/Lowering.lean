/-
A multiply-add, lowered.

The first round leaves the product alone, since the sum still reads it, and fuses the sum; the
next one lowers the product, which is dead by then. From the first splice on the function
computes the fused lanes, and no later visit changes what it computes. After two rounds nothing
is left that may not stay, and so the lowering succeeds.
-/
import SimdLowering.Proofs.Fusion.Splices
import SimdLowering.Proofs.Lowering.Visits

set_option autoImplicit false

namespace SimdLowering

open SimdLowering.Graph SimdLowering.Application SimdLowering.Rules

variable {g : Graph} {gone : List OpId} {func mul add ret op : OpId} {entry : BlockId}
  {a b c product sum : ValueId} {n width shift size : Nat} {sign : Signedness}
  {o : LowerOptions} {s s' t : Application} {rest : List OpId}

/-! ## The multiply-add -/

/-- The sum of `g₀` has been fused, by whatever steps. -/
def FusedFrom (g₀ : Graph) (func mul : OpId) (entry : BlockId) (a b c product : ValueId)
    (n width shift : Nat) (sign : Signedness) (g : Graph) : Prop :=
  ∃ up total out, Fused g₀ g func mul entry a b c product n width shift sign up total out

/-- Within the round that fuses: until the sum has been visited all is as it was. -/
def FusingRound (g : Graph) (func mul add : OpId) (entry : BlockId) (a b c product : ValueId)
    (n width shift : Nat) (sign : Signedness) (rest : List OpId) (t : Application) : Prop :=
  t.rejected = [] ∧
    ((t.graph = g ∧ t.changes = 0 ∧ add ∈ rest) ∨
      (FusedFrom g func mul entry a b c product n width shift sign t.graph ∧ 0 < t.changes))

/-- Within the round after that: as long as the product is there, it is still to be visited. -/
def ClearingRound (g : Graph) (func mul : OpId) (entry : BlockId) (a b c product : ValueId)
    (n width shift : Nat) (sign : Signedness) (rest : List OpId) (t : Application) : Prop :=
  FusedFrom g func mul entry a b c product n width shift sign t.graph ∧ t.rejected = [] ∧
    (t.graph.Inside func mul → mul ∈ rest)

section

variable (h : g.MultipliesAndAdds func entry mul add ret a b c product sum
    (.vector n (.int width sign)))
  (hshape : FusedShape n width) (hsign : sign ≠ .unsigned) (htarget : o.target = .aieml)
  (hshift : o.shift = shift) (hlt : shift < width)
include h hshape htarget hshift

include hsign hlt in
/-- A visit to the sum fuses it. -/
theorem fused_of_visit (hup : Upright g gone func size) (hs : s.graph = g)
    (hrejected : s.rejected = [])
    (hv : s.visitOp o.ruleSet o.target.conversionTarget add = .ok s') :
    FusedFrom g func mul entry a b c product n width shift sign s'.graph ∧ s'.rejected = [] ∧
      s'.changes = s.changes + 1 := by
  subst hs
  obtain ⟨e, he, hrule⟩ := exists_entry_of_mem (r := mulAddToFmaElem o.shift) htarget
    (by simp [aiemlRules])
  have hfine : ∀ v ∈ [a, b, c], s.graph.HasValue v := by
    intro v hv
    obtain ⟨i, hi⟩ := List.mem_iff_getElem?.mp (h.params v hv).1
    exact hasValue_of_originOf? ((hup.scene.consistent.takes entry i v).mp hi)
  -- Only two rules are rooted at sums, and the one for lanewise sums leaves this sum alone.
  obtain ⟨⟨blk, hs⟩, hr, hrej, hch⟩ := spliced_of_visit hup h.inside_add
    (isRejected_of_nil hrejected)
    (by rw [htarget]; exact legality_sum h hup.scene hshape) he
    (by rw [hrule, h.addKind]; exact List.mem_singleton_self _)
    (fun c => by rw [hrule, hshift]; exact mulAddToFmaElem_fuses h hup.scene hshape)
    (fine_fusedSum hfine) h.addResults (fun e' he' hk' hne c => by
      rw [h.addKind] at hk'
      rcases rule_of_addi htarget he' hk' with heq | heq
      · exact absurd (heq.trans hrule.symm) hne
      · rw [heq]
        exact addSubToElem_declines h hup.scene) hv
  exact ⟨h.fused hup.scene hshape hsign hlt hup.root hs hr, hrej.trans hrejected, hch⟩

omit hshape hshift in
/-- As long as the sum is there, visits to all else do nothing. -/
theorem untouched_of_visit (hup : Upright g gone func size) (hs : s.graph = g)
    (hin : g.Inside func op) (hne : op ≠ add)
    (hv : s.visitOp o.ruleSet o.target.conversionTarget op = .ok s') :
    s'.graph = g ∧ s'.rejected = s.rejected ∧ s'.changes = s.changes := by
  subst hs
  have hlegal : ∃ c, o.target.conversionTarget.legality s.graph op s.sizes = .ok (.legal, c) := by
    have hmem := h.alone op hin
    simp only [h.body, List.mem_cons, List.not_mem_nil, or_false, hne, false_or] at hmem
    rcases hmem with rfl | rfl
    · rw [htarget]
      exact ⟨_, legality_product h hup.scene⟩
    · have hkind := h.retKind
      exact ⟨_, Generation.legality_of_made (Or.inr hkind) (by rw [hkind]; decide)
        (by rw [hkind]; decide) (by rw [hkind]; decide)⟩
  obtain ⟨c, hlegal⟩ := hlegal
  obtain rfl := Except.ok.inj ((visitOp_of_legal hlegal).symm.trans hv)
  exact ⟨rfl, rfl, rfl⟩

/-- Once the sum is fused, a visit to the product lowers it, and visits to all else do
nothing. -/
theorem fused_of_visit_fused (hsign : sign ≠ .unsigned) (hlt : shift < width)
    (hup : Upright s.graph gone func size) (hin : s.graph.Inside func op)
    (hF : FusedFrom g func mul entry a b c product n width shift sign s.graph)
    (hrejected : s.rejected = [])
    (hv : s.visitOp o.ruleSet o.target.conversionTarget op = .ok s') :
    FusedFrom g func mul entry a b c product n width shift sign s'.graph ∧ s'.rejected = [] ∧
      s.changes ≤ s'.changes ∧ (s'.graph.Inside func mul → op ≠ mul ∧ s.graph.Inside func mul) := by
  obtain ⟨up, total, out, hF⟩ := hF
  -- The product is visited at most once: it is then lowered by itself, as nobody reads it now.
  by_cases hne : op = mul
  · subst hne
    have hlone := hF.lone hin
    obtain ⟨e, he, hrule⟩ := exists_entry_of_mem (r := mulIToMulElem o.shift) htarget
      (by simp [aiemlRules])
    have hfine : ∀ v ∈ [a, b], s.graph.HasValue v := by
      intro v hv
      have hsome := hlone.factors v hv
      refine value?_isSome_iff.mp ?_
      rw [← Option.isSome_map (f := Value.ty), hsome]
      rfl
    obtain ⟨⟨blk, hs⟩, hr, hrej, hch⟩ := spliced_of_visit hup hin (isRejected_of_nil hrejected)
      (by
        rw [htarget]
        exact legality_lone hlone.kind hlone.results hlone.typed hlone.unread hshape)
      he (by rw [hrule, hlone.kind]; exact List.mem_singleton_self _)
      (fun c => by
        rw [hrule, hshift]
        exact mulIToMulElem_lowers hlone.operands hlone.results hlone.typed hlone.unread hshape)
      (fine_loneProduct hfine) hlone.results (fun e' he' hk' hne => by
        rw [hlone.kind] at hk'
        exact absurd ((rule_of_muli htarget he' hk').trans hrule.symm) hne) hv
    obtain ⟨hF', hleft⟩ := hF.without h hin hshape hsign hlt hup.scene hup.root hs hr
    exact ⟨⟨up, total, out, hF'⟩, hrej.trans hrejected, by omega, fun hmul => absurd hmul hleft⟩
  -- Everything else may stay, and the visit does nothing.
  · obtain rfl := Except.ok.inj
      ((visitOp_of_legal ((hF.inert op hin hne).legality o.target s.sizes)).symm.trans hv)
    exact ⟨⟨up, total, out, hF⟩, hrejected, Nat.le_refl _, fun hmul => ⟨hne, hmul⟩⟩

/-! ## Rounds -/

/-- The first round fuses the sum. -/
theorem fused_of_round (hsign : sign ≠ .unsigned) (hlt : shift < width)
    (hup : Upright g gone func size) {sizes : AccessSizes}
    (hround : (Application.start g sizes).round o.ruleSet o.target.conversionTarget func = .ok s') :
    (FusedFrom g func mul entry a b c product n width shift sign s'.graph ∧ s'.rejected = [] ∧
      0 < s'.changes) ∧ UprightAt func size s' := by
  have hc := hup.scene.consistent
  have hstart : add ∈ g.postorder func := (mem_postorder hc hup.scene.ordered.acyclic).mpr
    h.inside_add
  obtain ⟨⟨hrejected, hend⟩, hI⟩ := round_induction
    (J := FusingRound g func mul add entry a b c product n width shift sign)
    (o.visitsKeep func size) (fun _ ht => ht.ground) ⟨gone, hup⟩
    ⟨rfl, Or.inl ⟨rfl, rfl, hstart⟩⟩ (by
      rintro op rest t t' ⟨gone', ht⟩ hpending ⟨hrejected, hJ⟩ hv
      have hin := hpending.inside op (List.mem_cons_self ..)
      rcases hJ with ⟨hgraph, hchanges, hmem⟩ | ⟨hF, hchanges⟩
      · by_cases hne : op = add
        · subst hne
          obtain ⟨hF, hrej, hch⟩ :=
            fused_of_visit h hshape hsign htarget hshift hlt hup hgraph hrejected hv
          exact ⟨hrej, Or.inr ⟨hF, by omega⟩⟩
        · obtain ⟨hgraph', hrej, hch⟩ :=
            untouched_of_visit h htarget hup hgraph (hgraph ▸ hin) hne hv
          exact ⟨hrej.trans hrejected, Or.inl ⟨hgraph', hch.trans hchanges,
            (List.mem_cons.mp hmem).resolve_left (Ne.symm hne)⟩⟩
      · obtain ⟨hF', hrej, hle, -⟩ :=
          fused_of_visit_fused h hshape htarget hshift hsign hlt ht hin hF hrejected hv
        exact ⟨hrej, Or.inr ⟨hF', by omega⟩⟩) hround
  rcases hend with ⟨-, -, hmem⟩ | ⟨hF, hchanges⟩
  · cases hmem
  · exact ⟨⟨hF, hrejected, hchanges⟩, hI⟩

/-- A round after that leaves no product. -/
theorem alone_of_round (hsign : sign ≠ .unsigned) (hlt : shift < width)
    (hup : UprightAt func size s)
    (hF : FusedFrom g func mul entry a b c product n width shift sign s.graph)
    (hrejected : s.rejected = [])
    (hround : s.round o.ruleSet o.target.conversionTarget func = .ok s') :
    (FusedFrom g func mul entry a b c product n width shift sign s'.graph ∧ s'.rejected = [] ∧
      ¬ s'.graph.Inside func mul) ∧ UprightAt func size s' := by
  obtain ⟨gone, hup⟩ := hup
  have hc := hup.scene.consistent
  obtain ⟨⟨hF, hrejected, hmul⟩, hI⟩ := round_induction
    (J := ClearingRound g func mul entry a b c product n width shift sign)
    (o.visitsKeep func size) (fun _ ht => ht.ground) ⟨gone, hup⟩
    ⟨hF, hrejected, fun hin => (mem_postorder hc hup.scene.ordered.acyclic).mpr hin⟩ (by
      rintro op rest t t' ⟨gone', ht⟩ hpending ⟨hF, hrejected, hJ⟩ hv
      have hin := hpending.inside op (List.mem_cons_self ..)
      obtain ⟨hF', hrej, -, hmul⟩ :=
        fused_of_visit_fused h hshape htarget hshift hsign hlt ht hin hF hrejected hv
      refine ⟨hF', hrej, fun hin' => ?_⟩
      obtain ⟨hne, hbefore⟩ := hmul hin'
      exact (List.mem_cons.mp (hJ hbefore)).resolve_left (Ne.symm hne)) hround
  exact ⟨⟨hF, hrejected, fun hin => nomatch hmul hin⟩, hI⟩

/-- After that, further visits do nothing that matters. -/
theorem fused_of_visits (hsign : sign ≠ .unsigned) (hlt : shift < width)
    (hup : UprightAt func size s)
    (hF : FusedFrom g func mul entry a b c product n width shift sign s.graph ∧ s.rejected = [] ∧
      ¬ s.graph.Inside func mul)
    (hv : Relation.ReflTransGen (VisitTo o.ruleSet o.target.conversionTarget func) s s') :
    FusedFrom g func mul entry a b c product n width shift sign s'.graph ∧ s'.rejected = [] ∧
      ¬ s'.graph.Inside func mul := by
  refine hup.visits_induction (P := fun t =>
      FusedFrom g func mul entry a b c product n width shift sign t.graph ∧ t.rejected = [] ∧
        ¬ t.graph.Inside func mul) hF
    (fun ht hin hvisit ⟨hF, hrejected, hgone⟩ => ?_) hv
  obtain ⟨hF', hrej, -, hmul⟩ :=
    fused_of_visit_fused h hshape htarget hshift hsign hlt ht hin hF hrejected hvisit
  exact ⟨hF', hrej, fun hin' => hgone (hmul hin').2⟩

/-- Rounds leave a fused sum, and two rounds or more no product. -/
theorem fused_of_rounds (hsign : sign ≠ .unsigned) (hlt : shift < width)
    (hup : Upright g gone func size) {left done : Nat} {sizes : AccessSizes} (hleft : left ≠ 0)
    {m : Nat} {fixpoint : Bool} (hrounds : rounds o.ruleSet o.target.conversionTarget func left done
      (.start g sizes) = .ok (s, m, fixpoint)) :
    (FusedFrom g func mul entry a b c product n width shift sign s.graph ∧ s.rejected = [] ∧
      (2 ≤ left → ¬ s.graph.Inside func mul)) ∧ UprightAt func size s := by
  obtain ⟨left, rfl⟩ := Nat.exists_eq_succ_of_ne_zero hleft
  obtain ⟨t, ht, hrounds⟩ := bind_eq_ok.mp hrounds
  obtain ⟨⟨hF, hrejected, hchanges⟩, htI⟩ := fused_of_round h hshape htarget hshift hsign hlt hup ht
  rw [if_neg (show t.changes ≠ (Application.start g sizes).changes from Nat.ne_of_gt hchanges)]
    at hrounds
  -- One round fuses; if there is another one, it takes the product that nobody reads.
  cases left with
  | zero =>
    cases hrounds
    exact ⟨⟨hF, hrejected, fun h => absurd h (by decide)⟩, htI⟩
  | succ left =>
    obtain ⟨u, hu, hrounds⟩ := bind_eq_ok.mp hrounds
    obtain ⟨hF, huI⟩ := alone_of_round h hshape htarget hshift hsign hlt htI hF hrejected hu
    have hrest := visits_of_remaining_rounds huI hrounds
    obtain ⟨hF, hrejected, hgone⟩ :=
      fused_of_visits h hshape htarget hshift hsign hlt huI hF hrest
    exact ⟨⟨hF, hrejected, fun _ => hgone⟩, huI.visits hrest⟩

end

/-! ## The lowering -/

section

variable {g₀ : Graph} {up total out result : ValueId} {args : List RtValue} {x y z : Fin n → Int}
  (hF : Fused g₀ g func mul entry a b c product n width shift sign up total out)
  (hscene : Scene g gone func)
include hF hscene

omit hscene in
/-- Where the sum is fused and the product has gone, all may stay. -/
theorem verify_of_fused (hgone : ¬ g.Inside func mul) (gen : Generation) (sizes : AccessSizes) :
    gen.conversionTarget.verify g func sizes = .ok ([], sizes) := by
  refine ConversionTarget.verify_of_legal fun d hd c => ?_
  have hin := mem_nested_iff.mp hd
  exact (hF.inert d hin fun e => hgone (e ▸ hin)).legality gen c

/-- What the run binds on the way is what explains its answer. -/
theorem runIn_of_fused (hgiven : g₀.Given func entry a b c args x y z) :
    ∃ ρ, g.runIn .empty func args =
        (ρ, .ok [.ofInts fun i => fusedLane width shift (x i) (y i) (z i)]) ∧
      ρ.get? up = some (.ofInts fun i => z i * twoPow shift) ∧
      ρ.get? total = some (.ofInts fun i => x i * y i + z i * twoPow shift) := by
  obtain ⟨ρ, hρ, hup, htotal⟩ := hF.explained args x y z hgiven
  -- What is reached has one result: the product and the operations that stay are no returns.
  have hsingle : ∀ d, g.Reached entry d → ∃ v, g.results d = [v] := by
    intro d hd
    have hin := hF.isEntry.holdsBlock.inside hd.mem
    refine hscene.single_of_kind hin (fun hk => ?_) hd.proceeds
    by_cases hd : d = mul
    · have hkind := (hF.lone (hd ▸ hin)).kind
      rw [← hd, hk] at hkind
      cases hkind
    · have hmade := (hF.inert d hin hd).made
      rw [hk] at hmade
      exact absurd hmade (by decide)
  -- The run binds what the explanation says, as explanations are unique.
  have hrun := run_of_explains hscene.consistent hscene.ordered hF.isEntry hρ hsingle
  obtain ⟨ρ', hrunIn, hρ'⟩ := explains_of_run hscene.consistent hscene.ordered hF.isEntry
    (fun d hd => hscene.single_of_kind hd) hrun
  have agree : ∀ {k reads v}, g.Performs entry k reads v → ρ'.get? v = ρ.get? v := by
    rintro k reads v ⟨d, hd, -, -, hres⟩
    obtain ⟨pre, post, hl⟩ := List.append_of_mem hd.mem
    exact Explains.unique hscene hF.isEntry hρ' hρ pre.length pre d post rfl hl hd v
      (by simp [hres])
  exact ⟨ρ', hrunIn, (agree hF.shiftUp).trans hup, (agree hF.multiplyAdd).trans htotal⟩

end

/-- So after a lowering that comes back, in at least one round, the sum is fused. After two rounds
the lowering has succeeded, and nothing is left that may not stay. -/
theorem fused_of_lower (h : g.MultipliesAndAdds func entry mul add ret a b c product sum
      (.vector n (.int width sign)))
    (hshape : FusedShape n width) (hsign : sign ≠ .unsigned) (htarget : o.target = .aieml)
    (hshift : o.shift = shift) (hlt : shift < width) (hbudget : o.maxIterations ≠ 0)
    (hup : Upright g gone func size) {g' : Graph} {answer : Except LowerError LowerReport}
    (hlower : g.lower func o = .ok (g', answer)) :
    (∃ gone', Scene g' gone' func) ∧
      FusedFrom g func mul entry a b c product n width shift sign g' ∧
      (2 ≤ o.maxIterations → ∃ report, answer = .ok report ∧ report.remaining = []) := by
  obtain ⟨-, ⟨hk, -⟩ | ⟨-, s, m, fixpoint, hrounds, rfl, hanswers⟩⟩ := lower_eq_ok hlower
  · exact absurd h.isEntry.1 hk
  obtain ⟨⟨hF, hrejected, hgone⟩, gone', hup'⟩ :=
    fused_of_rounds h hshape htarget hshift hsign hlt hup hbudget hrounds
  refine ⟨⟨gone', hup'.scene⟩, hF, fun htwo => ?_⟩
  obtain ⟨up, total, out, hF⟩ := hF
  have hverify := verify_of_fused hF (hgone htwo) o.target s.sizes
  exact hanswers.succeeds hrejected hverify

/-! ## The smallest one -/

/-- The history of a function that returns the sum of its third argument and of the product of
the other two, all of them vectors of the same type. -/
def multiplyAddHistory (n width : Nat) : List Edit :=
  [.createBlock [.vector n (.i width), .vector n (.i width), .vector n (.i width)],
    .createOp (Instr.binary .muli ⟨⟨0⟩, .vector n (.i width)⟩ ⟨1⟩), .append ⟨0⟩ ⟨0⟩,
    .createOp (Instr.binary .addi ⟨⟨3⟩, .vector n (.i width)⟩ ⟨2⟩), .append ⟨0⟩ ⟨1⟩,
    .createOp (Instr.ret [⟨4⟩]), .append ⟨0⟩ ⟨2⟩, .createRegion [⟨0⟩],
    .createOp (Instr.func "multiply_add" ⟨0⟩)]

/-- The graph the history ends with. -/
def multiplyAddGraph (n width : Nat) : Graph where
  ops := #[⟨.muli, [⟨0⟩, ⟨1⟩], [⟨3⟩], .empty, [], some ⟨0⟩⟩,
    ⟨.addi, [⟨3⟩, ⟨2⟩], [⟨4⟩], .empty, [], some ⟨0⟩⟩, ⟨.ret, [⟨4⟩], [], .empty, [], some ⟨0⟩⟩,
    ⟨.func, [], [], .ofList [(AttrName.symName, .str "multiply_add")], [⟨0⟩], none⟩]
  values := #[⟨.argument ⟨0⟩ 0, .vector n (.i width)⟩, ⟨.argument ⟨0⟩ 1, .vector n (.i width)⟩,
    ⟨.argument ⟨0⟩ 2, .vector n (.i width)⟩, ⟨.result ⟨0⟩ 0, .vector n (.i width)⟩,
    ⟨.result ⟨1⟩ 0, .vector n (.i width)⟩]
  blocks := #[⟨[⟨0⟩, ⟨1⟩, ⟨2⟩], [⟨0⟩, ⟨1⟩, ⟨2⟩], some ⟨0⟩⟩]
  regions := #[⟨[⟨0⟩], some ⟨3⟩⟩]
  chains := #[[⟨⟨0⟩, 0⟩], [⟨⟨0⟩, 1⟩], [⟨⟨1⟩, 1⟩], [⟨⟨1⟩, 0⟩], [⟨⟨2⟩, 0⟩]]

theorem multiplyAddGraph_history (n width : Nat) :
    Edit.replay (multiplyAddHistory n width) = .ok (multiplyAddGraph n width, []) := by
  cbv

theorem multiplyAddGraph_validates (n width : Nat) : (multiplyAddGraph n width).Validates ⟨3⟩ :=
  .of_replay (multiplyAddGraph_history n width) rfl (by cbv)

theorem multiplyAddGraph_inside (hop : (multiplyAddGraph n width).Inside ⟨3⟩ op) :
    op ∈ [⟨0⟩, ⟨1⟩, ⟨2⟩] := by
  have hlist : (multiplyAddGraph n width).nested ⟨3⟩ = [⟨0⟩, ⟨1⟩, ⟨2⟩] := rfl
  exact hlist ▸ mem_nested_iff.mpr hop

theorem multiplyAddGraph_shape (n width : Nat) :
    (multiplyAddGraph n width).MultipliesAndAdds ⟨3⟩ ⟨0⟩ ⟨0⟩ ⟨1⟩ ⟨2⟩ ⟨0⟩ ⟨1⟩ ⟨2⟩ ⟨3⟩ ⟨4⟩
      (.vector n (.i width)) where
  isEntry := ⟨rfl, ⟨0⟩, rfl, rfl⟩
  body := rfl
  alone _ hd := multiplyAddGraph_inside hd
  mulKind := rfl
  mulOperands := rfl
  mulResults := rfl
  addKind := rfl
  addOperands := Or.inl rfl
  addResults := rfl
  retKind := rfl
  retOperands := rfl
  params v hv := by
    simp only [List.mem_cons, List.not_mem_nil, or_false] at hv
    rcases hv with rfl | rfl | rfl
    · exact ⟨.head _, rfl⟩
    · exact ⟨.tail _ (.head _), rfl⟩
    · exact ⟨.tail _ (.tail _ (.head _)), rfl⟩
  onlyRead u hu := by rw [show u = ⟨⟨1⟩, 0⟩ from List.mem_singleton.mp hu]

theorem multiplyAddGraph_generic (hn : n ≠ 0) (hop : (multiplyAddGraph n width).Inside ⟨3⟩ op) :
    (multiplyAddGraph n width).Generic op := by
  have hmem := multiplyAddGraph_inside hop
  simp only [List.mem_cons, List.not_mem_nil, or_false] at hmem
  rcases hmem with rfl | rfl | rfl
  · refine ⟨⟨_, .binary .muli ⟨0⟩ ⟨1⟩ (by decide), rfl, rfl, rfl, rfl, rfl⟩, fun m elem h => ?_⟩
    cases List.mem_singleton.mp h
    exact hn
  · refine ⟨⟨_, .binary .addi ⟨3⟩ ⟨2⟩ (by decide), rfl, rfl, rfl, rfl, rfl⟩, fun m elem h => ?_⟩
    cases List.mem_singleton.mp h
    exact hn
  · exact ⟨⟨_, .ret [⟨4⟩], rfl, rfl, rfl, rfl, rfl⟩, fun m elem h => absurd h List.not_mem_nil⟩

/-- Integers in range fit a signed type. -/
theorem fits_ofInts {x : Fin n → Int} (hb : 1 < width) (hsmall : width < 128)
    (hsign : sign ≠ .unsigned) (hx : ∀ i, InRange width (x i)) :
    (RtValue.ofInts x).Fits (.vector n (.int width sign)) := by
  refine ⟨fun l hl => ?_, fun shape hs => ?_⟩
  · obtain ⟨i, rfl⟩ := List.mem_ofFn.mp hl
    exact congrArg Lane.int ((wrapInt_eq_self_iff hb hsmall hsign).mpr (hx i))
  · obtain rfl := Option.some.inj hs
    exact RtValue.length_ofInts

/-- The function takes the same integers in all lanes, whatever they are. -/
theorem multiplyAddGraph_given {u v w : Int} (hu : InRange 32 u) (hv : InRange 32 v)
    (hw : InRange 32 w) : (multiplyAddGraph 16 32).Given ⟨3⟩ ⟨0⟩ ⟨0⟩ ⟨1⟩ ⟨2⟩
      [.ofInts fun _ : Fin 16 => u, .ofInts fun _ : Fin 16 => v, .ofInts fun _ : Fin 16 => w]
      (fun _ : Fin 16 => u) (fun _ => v) (fun _ => w) where
  accepts := by
    have fits : ∀ {v : Int}, InRange 32 v →
        (RtValue.ofInts fun _ : Fin 16 => v).Fits (.vector 16 (.i 32)) :=
      fun hv => fits_ofInts (by decide) (by decide) (by decide) fun _ => hv
    rintro entry ⟨-, r, hr, hb⟩
    cases hr
    cases hb
    exact .cons (fits hu) (.cons (fits hv) (.cons (fits hw) .nil))
  lhs := .head _
  rhs := .tail _ (.head _)
  summand := .tail _ (.tail _ (.head _))

end SimdLowering
