/-
The four instructions of a multiply-add, in their place.

A rule for the first generation puts four instructions in the place of a sum. Nothing takes them
away again, but what they read may come to go by other names, when other operations around them
are rewritten. So they are described by what they are now: the run gets to each of them, and each
reads what the one before it gives and whatever the factors and the summand are called.

Where a run has got to, the instructions left of that point have been computed, and so what they
give is known as soon as the lanes of the factors and of the summand are.
-/
import SimdLowering.Proofs.Doubling.Arithmetic
import SimdLowering.Proofs.Fusion.Issues

set_option autoImplicit false

namespace SimdLowering

/-- Names of the operations of a multiply-add of the first generation, and of what all but the
last of them give. -/
structure DoubledMac where
  concat : OpId
  ups : OpId
  fma : OpId
  srs : OpId
  twice : ValueId
  up : ValueId
  total : ValueId
  deriving DecidableEq, Repr

/-- The operations. -/
def DoubledMac.ops (m : DoubledMac) : List OpId := [m.concat, m.ups, m.fma, m.srs]

namespace Graph

variable {g g' : Graph} {gone : List OpId} {func op o p d : OpId} {entry blk : BlockId}
  {a b c v w old out : ValueId} {r : Recipe} {i n width : Nat} {sign : Signedness} {ty : Ty}
  {args : List RtValue} {ρ : Env} {x y z : Fin n → Int} {k : Known} {e : Draft ValueId}

/-! ## The four of them -/

/-- The run doubles the left factor, moves the summand up, adds the product to it, reading all
lanes in order, and brings the sum down. -/
structure IssuesMac (g : Graph) (entry : BlockId) (a b c out : ValueId) (n width : Nat)
    (sign : Signedness) (m : DoubledMac) : Prop where
  concat : g.Issues entry (Instr.concat (.vector (n * 2) (.int width sign)) [a, a]) m.concat m.twice
  ups : g.Issues entry (Instr.ups (.vector n (.i (aieAccumulatorWidth width))) c 0) m.ups m.up
  fma : g.Issues entry (Instr.fma (.vector n (.i (aieAccumulatorWidth width))) m.twice b m.up
    .standard false) m.fma m.total
  srs : g.Issues entry (Instr.srs (.vector n (.int width sign)) m.total 0) m.srs out

/-- The run on the arguments returns the product plus the summand, brought into range. On the way
the left factor is written twice, lane for lane, and the sum is the integer it is. -/
def ReturnsClamped (g : Graph) (func : OpId) (args : List RtValue) (sign : Signedness)
    (width : Nat) (m : DoubledMac) (x y z : Fin n → Int) : Prop :=
  ∃ ρ, g.runIn .empty func args =
      (ρ, .ok [.ofInts fun i => clampLane sign width (x i * y i + z i)]) ∧
    ρ.get? m.twice = some (.vector ((RtValue.ofInts x).lanes ++ (RtValue.ofInts x).lanes)) ∧
    ρ.get? m.total = some (.ofInts fun i => x i * y i + z i)

/-- Splices anywhere else leave the four operations there. -/
theorem IssuesMac.spliced {m : DoubledMac} (h : g.IssuesMac entry a b c out n width sign m)
    (hscene : Scene g gone func) (hentry : g.IsEntry func entry)
    (hs : Spliced g g' gone op blk old r) (hr : r.Lawful g func op) (hop : op ∉ m.ops) :
    g'.IssuesMac entry (renamed old (g.standIn r) a) (renamed old (g.standIn r) b)
      (renamed old (g.standIn r) c) out n width sign m := by
  simp only [DoubledMac.ops, List.mem_cons, List.not_mem_nil, or_false, not_or] at hop
  obtain ⟨hconcat, hups, hfma, hsrs⟩ := hop
  have hdoubled := hs.issues_of_ne hr hscene hentry h.concat (Ne.symm hconcat)
  have hraised := hs.issues_of_ne hr hscene hentry h.ups (Ne.symm hups)
  have hsum := hs.issues_of_ne hr hscene hentry h.fma (Ne.symm hfma)
  have hdown := hs.issues_of_ne hr hscene hentry h.srs (Ne.symm hsrs)
  -- What the four pass on to each other keeps its name.
  rw [Instr.mapOperands_fma, hs.renamed_of_stands h.concat.stands (Ne.symm hconcat),
    hs.renamed_of_stands h.ups.stands (Ne.symm hups)] at hsum
  rw [Instr.mapOperands_srs, hs.renamed_of_stands h.fma.stands (Ne.symm hfma)] at hdown
  exact ⟨hdoubled, hraised, hsum, hdown⟩

namespace IssuesMac

variable {m : DoubledMac} (h : g.IssuesMac entry a b c out n width sign m)
  (hscene : Scene g gone func) (hentry : g.IsEntry func entry)
include h hscene hentry

/-- Three of them come one after the other, and the summand goes up in time. -/
theorem precedes : Precedes (g.opsIn entry) m.concat m.fma ∧ Precedes (g.opsIn entry) m.ups m.fma ∧
    Precedes (g.opsIn entry) m.fma m.srs := by
  have reads : ∀ {o p v}, o ∈ g.opsIn entry → v ∈ g.operands o → g.results p = [v] →
      Precedes (g.opsIn entry) p o := fun ho hv hres =>
    hscene.precedes_of_mem_operands hentry ho hv (by simp [hres])
  refine ⟨reads h.fma.reached.mem ?_ h.concat.results, reads h.fma.reached.mem ?_ h.ups.results,
    reads h.srs.reached.mem ?_ h.fma.results⟩
  · rw [h.fma.operands]
    exact List.mem_cons_self ..
  · rw [h.fma.operands]
    exact .tail _ (.tail _ (.head _))
  · rw [h.srs.operands]
    exact List.mem_cons_self ..

end IssuesMac

/-! ## What they compute -/

section

variable {m : DoubledMac} (h : g.IssuesMac entry a b c out n width sign m)
  (hscene : Scene g gone func) (hlow : 1 < width) (hhigh : width ≤ widestLane sign)
  (htyped : ∀ v ∈ [a, b, c], (g.value v).ty = .vector n (.int width sign))
  (hx : g.Supplies func entry args a x) (hy : g.Supplies func entry args b y)
  (hz : g.Supplies func entry args c z) (hrange : ∀ i, InLane sign width (x i) ∧
    InLane sign width (y i) ∧ InLane sign width (z i))
include h hscene hlow hhigh htyped hrange

include hx in
/-- Doubling evaluates, and leaves every lane as it was. -/
theorem IssuesMac.evaluates_concat (hat : g.Arrives func entry args o ρ)
    (ho : o = m.concat ∨ Precedes (g.opsIn entry) m.concat o) :
    Evaluates g ρ [] ((Instr.concat (.vector (n * 2) (.int width sign)) [a, a]).mapOperands
      Source.value) ⟨.vector (n * 2) (.int width sign),
        .vector ((RtValue.ofInts x).lanes ++ (RtValue.ofInts x).lanes)⟩ := by
  have hseen : g.Visible func o a := h.concat.visible hscene hat.isEntry (List.mem_cons_self ..) ho
  rw [Instr.mapOperands_concat]
  have := le_of_le_widestLane hhigh
  exact evaluates_doubled hlow (by omega)
    (hat.holds_of_supplies hscene hseen (htyped a (by simp)) hx) fun i => (hrange i).1

omit hlow in
include hz in
/-- The summand goes up unchanged. -/
theorem IssuesMac.evaluates_ups (hat : g.Arrives func entry args o ρ)
    (ho : o = m.ups ∨ Precedes (g.opsIn entry) m.ups o) :
    Evaluates g ρ [] ((Instr.ups (.vector n (.i (aieAccumulatorWidth width))) c 0).mapOperands
      Source.value) ⟨.vector n (.i (aieAccumulatorWidth width)), .ofInts z⟩ := by
  have hseen : g.Visible func o c := h.ups.visible hscene hat.isEntry (List.mem_cons_self ..) ho
  obtain ⟨hwide, hsmall⟩ := @aieAccumulatorWidth_bounds width
  rw [Instr.mapOperands_ups]
  exact evaluates_raised hwide hsmall (by decide)
    ⟨_, hat.holds_of_supplies hscene hseen (htyped c (by simp)) hz, rfl⟩
    fun i => inRange_summand hhigh (hrange i).2.2

include hx hy hz

/-- The multiply-add evaluates to the product plus the summand. -/
theorem IssuesMac.evaluates_fma (hat : g.Arrives func entry args o ρ)
    (ho : o = m.fma ∨ Precedes (g.opsIn entry) m.fma o) :
    Evaluates g ρ [] ((Instr.fma (.vector n (.i (aieAccumulatorWidth width))) m.twice b m.up
      .standard false).mapOperands Source.value)
        ⟨.vector n (.i (aieAccumulatorWidth width)), .ofInts fun i => x i * y i + z i⟩ := by
  have hseen : g.Visible func o b := h.fma.visible hscene hat.isEntry (.tail _ (.head _)) ho
  obtain ⟨hconcat, hups, -⟩ := h.precedes hscene hat.isEntry
  have hnodup := hscene.consistent.placedOnce entry
  -- Whatever comes before the multiply-add comes before what reads it.
  have before : ∀ {p}, Precedes (g.opsIn entry) p m.fma → Precedes (g.opsIn entry) p o :=
    fun hp => ho.elim (fun e => e ▸ hp) fun hlater => hp.trans hnodup hlater
  have htwice := h.concat.holds (h.evaluates_concat hscene hlow hhigh htyped hx hrange hat
    (Or.inr (before hconcat))) (hat.computes_of_precedes hscene (before hconcat))
  have hup := h.ups.holds (h.evaluates_ups hscene hhigh htyped hz hrange hat
    (Or.inr (before hups))) (hat.computes_of_precedes hscene (before hups))
  obtain ⟨hwide, hsmall⟩ := @aieAccumulatorWidth_bounds width
  have hholds := fun i => (aie_holds_sums_iff hlow).mpr hhigh (x i) (y i) (z i) (hrange i).1
    (hrange i).2.1 (hrange i).2.2
  rw [Instr.mapOperands_fma]
  exact evaluates_shuffledFma hwide hsmall (by decide) htwice (List.prefix_append _ _)
    (hat.holds_of_supplies hscene hseen (htyped b (by simp)) hy) hup (fun i => (hholds i).1)
    fun i => (hholds i).2

/-- What comes down is the nearest lane in range. -/
theorem IssuesMac.evaluates_srs (hat : g.Arrives func entry args o ρ)
    (ho : o = m.srs ∨ Precedes (g.opsIn entry) m.srs o) :
    Evaluates g ρ [] ((Instr.srs (.vector n (.int width sign)) m.total 0).mapOperands Source.value)
      ⟨.vector n (.int width sign), .ofInts fun i => clampLane sign width (x i * y i + z i)⟩ := by
  obtain ⟨-, -, hfma⟩ := h.precedes hscene hat.isEntry
  have hbefore : Precedes (g.opsIn entry) m.fma o := ho.elim (fun e => e ▸ hfma)
    fun hlater => hfma.trans (hscene.consistent.placedOnce entry) hlater
  have htotal := h.fma.holds (h.evaluates_fma hscene hlow hhigh htyped hx hy hz hrange hat
    (Or.inr hbefore)) (hat.computes_of_precedes hscene hbefore)
  obtain ⟨hwide, hsmall⟩ := @aieAccumulatorWidth_bounds width
  rw [Instr.mapOperands_srs]
  have := le_of_le_widestLane hhigh
  exact evaluates_lowered hlow (by omega) ⟨by omega, hsmall⟩ htotal fun i =>
    ((aie_holds_sums_iff hlow).mpr hhigh (x i) (y i) (z i) (hrange i).1 (hrange i).2.1
      (hrange i).2.2).2

/-- The run fails at none of the four. -/
theorem IssuesMac.proceeds (ho : o ∈ m.ops) : g.Proceeds func entry args o := by
  intro ρ hat
  simp only [DoubledMac.ops, List.mem_cons, List.not_mem_nil, or_false] at ho
  rcases ho with rfl | rfl | rfl | rfl
  · exact ⟨_, h.concat.evalOp_eq (h.evaluates_concat hscene hlow hhigh htyped hx hrange hat
      (Or.inl rfl))⟩
  · exact ⟨_, h.ups.evalOp_eq (h.evaluates_ups hscene hhigh htyped hz hrange hat
      (Or.inl rfl))⟩
  · exact ⟨_, h.fma.evalOp_eq (h.evaluates_fma hscene hlow hhigh htyped hx hy hz hrange hat
      (Or.inl rfl))⟩
  · exact ⟨_, h.srs.evalOp_eq (h.evaluates_srs hscene hlow hhigh htyped hx hy hz hrange hat
      (Or.inl rfl))⟩

/-- A function that returns what the four come to, and whose run fails nowhere else, returns the
product plus the summand, brought into range. -/
theorem IssuesMac.returnsClamped {ret : OpId} (hentry : g.IsEntry func entry)
    (hcount : (g.argsOf entry).length = args.length) (hret : g.Exits entry ret)
    (hreturns : g.operands ret = [out])
    (hothers : ∀ d, g.Reached entry d → d ∉ m.ops → g.Proceeds func entry args d) :
    g.ReturnsClamped func args sign width m x y z := by
  -- Every operation that is reached goes on, so the run arrives at the return.
  have hall : ∀ d, g.Reached entry d → g.Proceeds func entry args d := by
    intro d hd
    by_cases hmem : d ∈ m.ops
    · exact h.proceeds hscene hlow hhigh htyped hx hy hz hrange hmem
    · exact hothers d hd hmem
  obtain ⟨ρ, hat⟩ := exists_arrives hscene hentry hcount hret hall
  have hnodup := hscene.consistent.placedOnce entry
  -- The operations lie in the order in which they read each other, and so they are computed.
  obtain ⟨hconcat, -, hfma⟩ := h.precedes hscene hentry
  have hsrs : Precedes (g.opsIn entry) m.srs ret := hscene.precedes_of_mem_operands hentry hret.mem
    (v := out) (by simp [hreturns]) (by simp [h.srs.results])
  have hfma := hfma.trans hnodup hsrs
  have hconcat := hconcat.trans hnodup hfma
  have htwice := h.concat.holds (h.evaluates_concat hscene hlow hhigh htyped hx hrange hat
    (Or.inr hconcat)) (hat.computes_of_precedes hscene hconcat)
  have htotal := h.fma.holds (h.evaluates_fma hscene hlow hhigh htyped hx hy hz hrange hat
    (Or.inr hfma)) (hat.computes_of_precedes hscene hfma)
  have hout := h.srs.holds (h.evaluates_srs hscene hlow hhigh htyped hx hy hz hrange hat
    (Or.inr hsrs)) (hat.computes_of_precedes hscene hsrs)
  refine ⟨ρ, hat.runIn_eq hret.kind ?_, htwice.2, htotal.2⟩
  rw [hreturns, List.map_singleton, hout.2]
  rfl

end

end Graph

end SimdLowering
