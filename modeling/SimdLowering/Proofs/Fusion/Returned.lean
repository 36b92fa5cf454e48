/-
A fused sum that is returned.

Wherever a sum stands, three operations come to stand in its place. If it is what a function
returns, the run gets to all three before the return, and so what the function returns is known as
soon as it is known what the factors and the summand are bound to: the rounded product plus the
summand, brought into range only at the end. The rest of the function is of no consequence, as
long as the run does not fail at it; and where there is no rest, it does not.
-/
import SimdLowering.Proofs.Fusion.Anywhere
import SimdLowering.Proofs.Fusion.Issues

set_option autoImplicit false

namespace SimdLowering

open SimdLowering.Graph SimdLowering.Application

namespace Graph

variable {g : Graph} {gone : List OpId} {func mul add ret o : OpId} {entry : BlockId}
  {a b c v product sum out : ValueId} {n width shift : Nat} {sign : Signedness} {m : FusedMac}
  {args : List RtValue} {x y z : Fin n → Int} {ρ : Env}

/-! ## The three of them -/

/-- The run moves the summand up, adds the product of the factors to it, and brings the total
down. -/
structure IssuesFused (g : Graph) (entry : BlockId) (a b c out : ValueId) (n width shift : Nat)
    (sign : Signedness) (m : FusedMac) : Prop where
  ups : g.Issues entry (Instr.ups (.vector n (.int (2 * width) .signless)) c shift) m.ups m.up
  fma : g.Issues entry (Instr.fmaElem a b ⟨m.up, .vector n (.int (2 * width) .signless)⟩ false)
    m.fma m.total
  srs : g.Issues entry (Instr.srs (.vector n (.int width sign)) m.total shift) m.srs out

/-- The run on the arguments returns the rounded product plus the summand, brought into range.
What the first two operations give is known as well, and neither the summand on its way up, nor the
product, nor the sum of the two before and after the half step of rounding leaves the range of the
accumulator. -/
def ReturnsFused (g : Graph) (func : OpId) (args : List RtValue) (width shift : Nat) (m : FusedMac)
    (x y z : Fin n → Int) : Prop :=
  (∃ ρ, g.runIn .empty func args =
      (ρ, .ok [.ofInts fun i => fusedLane width shift (x i) (y i) (z i)]) ∧
    ρ.get? m.up = some (.ofInts fun i => z i * twoPow shift) ∧
    ρ.get? m.total = some (.ofInts fun i => x i * y i + z i * twoPow shift)) ∧
  ∀ i, InRange (2 * width) (z i * twoPow shift) ∧ InRange (2 * width) (x i * y i) ∧
    InRange (2 * width) (x i * y i + z i * twoPow shift) ∧
    InRange (2 * width) (x i * y i + z i * twoPow shift + halfStep shift)

/-- Three operations that stand in the entry block are computed, if what they give is returned. -/
theorem FusesIn.issues {ty : Ty} (h : g.FusesIn entry a b c out ty ty shift m)
    (hty : ty = .vector n (.int width sign)) (hshape : FusedShape n width)
    (hscene : Scene g gone func) (hentry : g.IsEntry func entry) (hret : g.Exits entry ret)
    (hreturns : g.operands ret = [out]) :
    g.IssuesFused entry a b c out n width shift sign m := by
  subst hty
  obtain ⟨-, -, hacc⟩ := hshape.bounds sign
  obtain ⟨hups, hfma, hsrs⟩ := h
  rw [hacc] at hups hfma
  have hnodup := hscene.consistent.placedOnce entry
  -- Each of them is read by the next one, and the last one by the return.
  have reads : ∀ {o p v}, o ∈ g.opsIn entry → v ∈ g.operands o → g.results p = [v] →
      Precedes (g.opsIn entry) p o := fun ho hv hres =>
    hscene.precedes_of_mem_operands hentry ho hv (by simp [hres])
  have hlast := reads hret.mem (by simp [hreturns]) hsrs.results
  have htotal := reads hsrs.mem (hsrs.operands ▸ List.mem_cons_self ..) hfma.results
  have hup := reads hfma.mem (hfma.operands ▸ .tail _ (.tail _ (.head _))) hups.results
  have hmiddle := htotal.trans hnodup hlast
  exact ⟨hups.issues (hret.reached hscene (hup.trans hnodup hmiddle)),
    hfma.issues (hret.reached hscene hmiddle), hsrs.issues (hret.reached hscene hlast)⟩

/-! ## What they compute -/

section

variable (h : g.IssuesFused entry a b c out n width shift sign m) (hscene : Scene g gone func)
  (hshape : FusedShape n width) (hsign : sign ≠ .unsigned) (hshift : shift < width)
  (htyped : ∀ v ∈ [a, b, c], (g.value v).ty = .vector n (.int width sign))
  (hx : g.Supplies func entry args a x) (hy : g.Supplies func entry args b y)
  (hz : g.Supplies func entry args c z)
  (hrange : ∀ i, InRange width (x i) ∧ InRange width (y i) ∧ InRange width (z i))
include h hscene

/-- They come one after the other. -/
theorem IssuesFused.precedes (hentry : g.IsEntry func entry) :
    Precedes (g.opsIn entry) m.ups m.fma ∧ Precedes (g.opsIn entry) m.fma m.srs := by
  refine ⟨hscene.precedes_of_mem_operands hentry h.fma.reached.mem (v := m.up) ?_
    (by simp [h.ups.results]), hscene.precedes_of_mem_operands hentry h.srs.reached.mem
      (v := m.total) ?_ (by simp [h.fma.results])⟩
  · rw [h.fma.operands]
    exact .tail _ (.tail _ (.head _))
  · rw [h.srs.operands]
    exact List.mem_cons_self ..

include hshape hshift htyped hrange

include hz in
/-- The summand goes up. -/
theorem IssuesFused.evaluates_ups (hat : g.Arrives func entry args o ρ)
    (ho : o = m.ups ∨ Precedes (g.opsIn entry) m.ups o) :
    Evaluates g ρ [] ((Instr.ups (.vector n (.int (2 * width) .signless)) c
      shift).mapOperands Source.value)
        ⟨.vector n (.int (2 * width) .signless), .ofInts fun i => z i * twoPow shift⟩ := by
  obtain ⟨hlow, hhigh, -⟩ := hshape.bounds sign
  have hseen : g.Visible func o c := h.ups.visible hscene hat.isEntry (List.mem_cons_self ..) ho
  rw [Instr.mapOperands_ups]
  exact evaluates_shiftUp (by omega) (by omega) (by decide) (by omega)
    (hat.holds_of_supplies hscene hseen (htyped c (by simp)) hz)
    fun i => inRange_shifted hshift (hrange i).2.2

include hx hy hz

/-- The product is added to it, and nothing overflows. -/
theorem IssuesFused.evaluates_fma (hat : g.Arrives func entry args o ρ)
    (ho : o = m.fma ∨ Precedes (g.opsIn entry) m.fma o) :
    Evaluates g ρ [] ((Instr.fmaElem a b ⟨m.up, .vector n (.int (2 * width) .signless)⟩
      false).mapOperands Source.value)
        ⟨.vector n (.int (2 * width) .signless),
          .ofInts fun i => x i * y i + z i * twoPow shift⟩ := by
  obtain ⟨hlow, hhigh, -⟩ := hshape.bounds sign
  have seen : ∀ v ∈ [a, b, m.up], g.Visible func o v :=
    fun v hv => h.fma.visible hscene hat.isEntry hv ho
  obtain ⟨hups, -⟩ := h.precedes hscene hat.isEntry
  -- The shift up is computed before the multiply-add, and so before whatever reads that.
  have hbefore : Precedes (g.opsIn entry) m.ups o := ho.elim (fun e => e ▸ hups)
    fun hlater => hups.trans (hscene.consistent.placedOnce entry) hlater
  have hup := h.ups.holds (h.evaluates_ups hscene hshape hshift htyped hz hrange hat
    (Or.inr hbefore)) (hat.computes_of_precedes hscene hbefore)
  rw [Instr.mapOperands_fmaElem]
  exact evaluates_fmaElem (by omega) (by omega) (by decide)
    (hat.holds_of_supplies hscene (seen a (by simp)) (htyped a (by simp)) hx)
    (hat.holds_of_supplies hscene (seen b (by simp)) (htyped b (by simp)) hy) ⟨hup, rfl⟩
    (fun i => inRange_product hshift (hrange i).1 (hrange i).2.1)
    fun i => (inRange_fused hshift (hrange i).1 (hrange i).2.1 (hrange i).2.2).1

include hsign

/-- What comes down is the nearest lane in range to the rounded sum. -/
theorem IssuesFused.evaluates_srs (hat : g.Arrives func entry args o ρ)
    (ho : o = m.srs ∨ Precedes (g.opsIn entry) m.srs o) :
    Evaluates g ρ [] ((Instr.srs (.vector n (.int width sign)) m.total shift).mapOperands
      Source.value)
        ⟨.vector n (.int width sign),
          .ofInts fun i => fusedLane width shift (x i) (y i) (z i)⟩ := by
  obtain ⟨hlow, hhigh, -⟩ := hshape.bounds sign
  obtain ⟨-, hfma⟩ := h.precedes hscene hat.isEntry
  have hbefore : Precedes (g.opsIn entry) m.fma o := ho.elim (fun e => e ▸ hfma)
    fun hlater => hfma.trans (hscene.consistent.placedOnce entry) hlater
  have htotal := h.fma.holds (h.evaluates_fma hscene hshape hshift htyped hx hy hz hrange hat
    (Or.inr hbefore)) (hat.computes_of_precedes hscene hbefore)
  -- The fused lane is in range, so saturating it changes nothing.
  have hdown : (fun i => fusedLane width shift (x i) (y i) (z i)) =
      fun i => saturateInt (shiftRounded (x i * y i + z i * twoPow shift) shift) width sign :=
    funext fun i => (saturateInt_fused (by omega) hsign).symm
  rw [Instr.mapOperands_srs, hdown]
  refine evaluates_shiftDown hlow (by omega) (by omega) (by omega) htotal
    (fun i => (inRange_fused hshift (hrange i).1 (hrange i).2.1 (hrange i).2.2).1) fun i => ?_
  rw [saturateInt_fused (by omega) hsign]
  exact inRange_fusedLane.inLane hsign

/-- The run fails at none of the three. -/
theorem IssuesFused.proceeds (ho : o ∈ m.ops) : g.Proceeds func entry args o := by
  intro ρ hat
  simp only [FusedMac.ops, List.mem_cons, List.not_mem_nil, or_false] at ho
  rcases ho with rfl | rfl | rfl
  · exact ⟨_, h.ups.evalOp_eq (h.evaluates_ups hscene hshape hshift htyped hz hrange hat
      (Or.inl rfl))⟩
  · exact ⟨_, h.fma.evalOp_eq (h.evaluates_fma hscene hshape hshift htyped hx hy hz hrange hat
      (Or.inl rfl))⟩
  · exact ⟨_, h.srs.evalOp_eq (h.evaluates_srs hscene hshape hsign hshift htyped hx hy hz hrange
      hat (Or.inl rfl))⟩

/-- A function that returns what the three come to, and whose run fails nowhere else, returns the
fused lanes. -/
theorem IssuesFused.returnsFused (hentry : g.IsEntry func entry)
    (hcount : (g.argsOf entry).length = args.length) (hret : g.Exits entry ret)
    (hreturns : g.operands ret = [out])
    (hothers : ∀ d, g.Reached entry d → d ∉ m.ops → g.Proceeds func entry args d) :
    g.ReturnsFused func args width shift m x y z := by
  -- Every operation that is reached goes on, so the run arrives at the return.
  have hall : ∀ d, g.Reached entry d → g.Proceeds func entry args d := by
    intro d hd
    by_cases hmem : d ∈ m.ops
    · exact h.proceeds hscene hshape hsign hshift htyped hx hy hz hrange hmem
    · exact hothers d hd hmem
  obtain ⟨ρ, hat⟩ := exists_arrives hscene hentry hcount hret hall
  have hnodup := hscene.consistent.placedOnce entry
  -- The three lie in the order in which they read each other.
  obtain ⟨hups, hfma⟩ := h.precedes hscene hentry
  have hsrs : Precedes (g.opsIn entry) m.srs ret := hscene.precedes_of_mem_operands hentry hret.mem
    (v := out) (by simp [hreturns]) (by simp [h.srs.results])
  have hfma := hfma.trans hnodup hsrs
  have hups := hups.trans hnodup hfma
  have hup := h.ups.holds (h.evaluates_ups hscene hshape hshift htyped hz hrange hat
    (Or.inr hups)) (hat.computes_of_precedes hscene hups)
  have htotal := h.fma.holds (h.evaluates_fma hscene hshape hshift htyped hx hy hz hrange hat
    (Or.inr hfma)) (hat.computes_of_precedes hscene hfma)
  have hout := h.srs.holds (h.evaluates_srs hscene hshape hsign hshift htyped hx hy hz hrange hat
    (Or.inr hsrs)) (hat.computes_of_precedes hscene hsrs)
  refine ⟨⟨ρ, hat.runIn_eq hret.kind ?_, hup.2, htotal.2⟩, fun i => ?_⟩
  · rw [hreturns, List.map_singleton, hout.2]
    rfl
  · obtain ⟨hx, hy, hz⟩ := hrange i
    exact ⟨inRange_shifted hshift hz, inRange_product hshift hx hy, inRange_fused hshift hx hy hz⟩

end

/-- The sum that is returned is one that is fused wherever it stands. -/
theorem ReturnsSum.addsProduct (h : g.ReturnsSum func entry mul add ret a b c product sum
      (.vector n (.int width sign)))
    (hscene : Scene g gone func) (honly : ∀ u ∈ g.uses product, u.user = add)
    (hshape : FusedShape n width) : g.AddsProduct func entry mul add a b c product sum where
  inside := h.inside_add hscene
  placed := (h.precedes_add hscene).mem_left
  addKind := h.addKind
  addOperands := h.addOperands
  addResults := h.addResults
  mulKind := h.mulKind
  mulOperands := h.mulOperands
  mulResults := h.mulResults
  onlyRead := honly
  summand d hd hk := absurd hk (h.summand d hd)
  shape := h.ty_sum hscene ▸ hshape.fuses

end Graph

/-! ## The lowering -/

section

variable {g : Graph} {gone : List OpId} {func mul add ret : OpId} {entry : BlockId}
  {a b c product sum : ValueId} {n width shift : Nat} {sign : Signedness} {o : LowerOptions}

/-- Take any function with a history that validates, reads nothing that is still to come, is well
shaped and has no reads without lanes, which returns the sum of a product that nobody else reads
and of something else that is no product, for lanes that multiply-adds take. Let it be lowered for
the second generation with a shift below the width of the lanes, in at least one round. The
lowering comes back unless a number elsewhere in the function is too large for its machine word.
Then the summand goes up, the product is added to it, and the total comes down; and whatever
integers in range the factors and the summand hold in a run that fails nowhere else, the lanes
returned are the rounded product plus the summand, brought into range only at the end, while
nothing leaves the range of the accumulator on the way. If the function has nothing else in it and
is given any integers in range, the run fails nowhere, and after two rounds or more the lowering
succeeds and leaves nothing that may not stay. -/
theorem lower_multiplyAdd {edits : List Edit} (history : Edit.replay edits = .ok (g, gone))
    (hreads : ∀ v, g.uses v ≠ [] → g.HasValue v) (hfunc : g.HasOp func)
    (hvalid : g.Validates func) (hshaped : ∀ op, g.Inside func op → g.WellShaped op)
    (hlanes : ∀ op, g.Inside func op → g.HasLanes op)
    (h : g.ReturnsSum func entry mul add ret a b c product sum (.vector n (.int width sign)))
    (honly : ∀ u ∈ g.uses product, u.user = add) (hshape : FusedShape n width)
    (hsign : sign ≠ .unsigned) (htarget : o.target = .aieml) (hshift : o.shift = shift)
    (hlt : shift < width) (hbudget : o.maxIterations ≠ 0) :
    (g.lower func o = .error .overflow ∧ g.MayOverflowUnder func ∧
      ¬ g.HoldsOnly func [mul, add, ret]) ∨
    ∃ g' answer ren m, g.lower func o = .ok (g', answer) ∧ g.Renames g' func ren ∧
      g'.IssuesFused entry (ren a) (ren b) (ren c) (ren sum) n width shift sign m ∧
      (∀ (args : List RtValue) (x y z : Fin n → Int), (g.argsOf entry).length = args.length →
        g'.Supplies func entry args (ren a) x → g'.Supplies func entry args (ren b) y →
        g'.Supplies func entry args (ren c) z →
        (∀ i, InRange width (x i) ∧ InRange width (y i) ∧ InRange width (z i)) →
        (∀ d, g'.Reached entry d → d ∉ m.ops → g'.Proceeds func entry args d) →
          g'.ReturnsFused func args width shift m x y z) ∧
      (g.HoldsOnly func [mul, add, ret] →
        (2 ≤ o.maxIterations → ∃ report, answer = .ok report ∧ report.remaining = []) ∧
          ∀ (args : List RtValue) (x y z : Fin n → Int), g.Given func entry a b c args x y z →
            g'.ReturnsFused func args width shift m x y z) := by
  have hup := Upright.of_replay history hreads hfunc hvalid hshaped
  have hscene := hup.scene
  rcases lower_upright hup hlanes o with ⟨⟨g', answer⟩, hlower, -⟩ | ⟨e, ⟨rfl, hover⟩, hfails⟩
  swap
  · refine Or.inl ⟨hfails, hover, fun halone => ?_⟩
    have hcount : n * 2 < twoPow 32 := by cases hshape <;> decide
    exact h.not_mayOverflowUnder hscene halone rfl hcount hover
  obtain ⟨-, ⟨hk, -⟩ | ⟨-, s, k, fixpoint, hrounds, rfl, -⟩⟩ := lower_eq_ok hlower
  · exact absurd h.isEntry.1 hk
  have hadds := h.addsProduct hscene honly hshape
  obtain ⟨⟨ren, m, hD⟩, gone', hup'⟩ :=
    fusion_of_rounds hadds hscene htarget hup hbudget hrounds
  have hscene' := hup'.scene
  obtain ⟨hvisits, -⟩ :=
    rounds_visits (o.visitsKeep func g.ops.size) (fun _ h => h.ground) ⟨gone, hup⟩ hrounds
  obtain ⟨hentry, hret⟩ := exits_of_visits ⟨gone, hup⟩ h.isEntry h.exits hvisits
  have hreturns : s.graph.operands ret = [ren sum] := by
    rw [hD.renames.operands (h.hasOp hscene).1 (hentry.holdsBlock.inside hret.mem), h.returns]
    rfl
  have hfuses := hD.fuses
  rw [h.ty_sum hscene, h.typed c (by simp), hshift] at hfuses
  have hissues := hfuses.issues rfl hshape hscene' hentry hret hreturns
  have htyped : ∀ v ∈ [ren a, ren b, ren c],
      (s.graph.value v).ty = .vector n (.int width sign) := by
    intro v hv
    obtain ⟨w, hw, rfl⟩ := List.mem_map.mp (show v ∈ [a, b, c].map ren from hv)
    rw [hD.renames.ty_eq (h.hasValue hscene hw), h.typed w hw]
  have hgeneral : ∀ (args : List RtValue) (x y z : Fin n → Int),
      (g.argsOf entry).length = args.length → s.graph.Supplies func entry args (ren a) x →
      s.graph.Supplies func entry args (ren b) y → s.graph.Supplies func entry args (ren c) z →
      (∀ i, InRange width (x i) ∧ InRange width (y i) ∧ InRange width (z i)) →
      (∀ d, s.graph.Reached entry d → d ∉ m.ops → s.graph.Proceeds func entry args d) →
        s.graph.ReturnsFused func args width shift m x y z :=
    fun args x y z hcount hx hy hz hrange => hissues.returnsFused hscene' hshape hsign hlt htyped
      hx hy hz hrange hentry (hD.renames.argsOf entry ▸ hcount) hret hreturns
  refine Or.inr ⟨s.graph, answer, ren, m, hlower, hD.renames, hissues, hgeneral, fun halone => ?_⟩
  have hmac := h.multipliesAndAdds hscene halone honly
  obtain ⟨-, ⟨up, total, out, hF⟩, hanswer⟩ :=
    fused_of_lower hmac hshape hsign htarget hshift hlt hbudget hup hlower
  refine ⟨hanswer, fun args x y z hgiven => ?_⟩
  have range : ∀ {v} {u : Fin n → Int}, v ∈ [a, b, c] →
      (v, .ofInts u) ∈ (g.argsOf entry).zip args → ∀ i, InRange width (u i) := fun hv hmem =>
    hgiven.accepts.inRange h.isEntry hmem (h.typed _ hv) hshape hsign
  obtain ⟨ρ, hrun, -⟩ := runIn_of_fused hF hscene' hgiven
  exact hgeneral args x y z (hgiven.accepts entry h.isEntry).length_eq
    (hD.renames.supplies hscene' hgiven.lhs) (hD.renames.supplies hscene' hgiven.rhs)
    (hD.renames.supplies hscene' hgiven.summand)
    (fun i => ⟨range (by simp) hgiven.lhs i, range (by simp) hgiven.rhs i,
      range (by simp) hgiven.summand i⟩)
    -- A run with an answer fails nowhere.
    fun d hd _ => hd.proceeds_of_run (congrArg Prod.snd hrun)

/-- The least lanes squared, brought down by eleven bits, and the greatest lanes added: the sum
comes down to the greatest lanes. -/
theorem lower_multiplyAdd_corner : ∃ g' report ρ,
    (multiplyAddGraph 16 32).lower ⟨3⟩ ⟨.aieml, 11, 10, true⟩ = .ok (g', .ok report) ∧
      report.remaining = [] ∧
      g'.runIn .empty ⟨3⟩ [.ofInts fun _ : Fin 16 => -2147483648,
        .ofInts fun _ : Fin 16 => -2147483648, .ofInts fun _ : Fin 16 => 2147483647] =
          (ρ, .ok [.ofInts fun _ : Fin 16 => 2147483647]) := by
  have hc := consistent_of_replay (multiplyAddGraph_history 16 32)
  have halone : (multiplyAddGraph 16 32).HoldsOnly ⟨3⟩ [⟨0⟩, ⟨1⟩, ⟨2⟩] :=
    fun _ => multiplyAddGraph_inside
  -- The general theorem, with every hypothesis decided on this graph.
  obtain ⟨-, -, hother⟩ | ⟨g', answer, ren, m, hlower, -, -, -, hsmallest⟩ :=
    lower_multiplyAdd (o := ⟨.aieml, 11, 10, true⟩) (multiplyAddGraph_history 16 32)
      (hasValue_of_uses (Nat.le_refl 5)) (by decide)
      (multiplyAddGraph_validates 16 32)
      (fun _ hop => (multiplyAddGraph_generic (by decide) hop).wellShaped)
      (fun _ hop => (multiplyAddGraph_generic (by decide) hop).hasLanes)
      ((multiplyAddGraph_shape 16 32).returnsSum hc) (multiplyAddGraph_shape 16 32).onlyRead .wide
        (by decide) rfl
      rfl (by decide) (by decide)
  · exact absurd halone hother
  obtain ⟨hanswer, hruns⟩ := hsmallest halone
  have hgiven := multiplyAddGraph_given (u := -2147483648) (v := -2147483648) (w := 2147483647)
    (by decide) (by decide) (by decide)
  obtain ⟨⟨ρ, hrun, -⟩, -⟩ := hruns _ _ _ _ hgiven
  obtain ⟨report, rfl, hremaining⟩ := hanswer (by decide)
  exact ⟨g', report, ρ, hlower, hremaining, hrun⟩

end

end SimdLowering
