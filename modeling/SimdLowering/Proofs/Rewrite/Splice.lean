/-
Putting a recipe in the place of an operation.

`Spliced` says what the graph looks like afterwards, as a whole: in its block the
operation has given way to the new ones, its result goes by the name of the last new
value wherever it was read, and the operation itself is off the chains and outside all
blocks. That `splice` succeeds and does just this needs no more than that the tables
agree, that the operation is placed, and that it has one result.

Everything else in this project about a rewrite is read off `Spliced`; no proof runs the
edits again.
-/
import SimdLowering.Proofs.Rewrite.Creation
import SimdLowering.Proofs.Rewrite.Substitution

set_option autoImplicit false

namespace SimdLowering

namespace Graph

variable {g g₁ g' : Graph} {gone : List OpId} {R : ValueId → Prop} {o op n : OpId}
  {b c : BlockId} {v w old : ValueId} {r : Recipe} {l₁ l₂ : List OpId}

/-- The name by which an operation reads a value after `new` has come to stand for
`old`. Operations that have been removed keep their operands. -/
def readAs (gone : List OpId) (old new : ValueId) (o : OpId) (w : ValueId) : ValueId :=
  if o ∈ gone then w else renamed old new w

/-- The value that stands for the result of the operation a recipe replaces. -/
def standIn (g : Graph) (r : Recipe) : ValueId := ⟨g.values.size + r.steps.length⟩

/-- In `g'` the recipe stands where the operation stood in `g`. The operation was placed,
had one result and no regions; the tables agreed before and agree now. -/
structure Spliced (g g' : Graph) (gone : List OpId) (op : OpId) (b : BlockId) (old : ValueId)
    (r : Recipe) : Prop where
  before : Consistent g gone
  after : Consistent g' (op :: gone)
  placed : g.blockOf? op = some b
  single : g.results op = [old]
  bare : g.regionsOf op = []
  kept : ∀ o, g.HasOp o → o ≠ op →
    g'.op o = (g.op o).mapReads fun _ => readAs gone old (g.standIn r) o
  left : g'.op op =
    { (g.op op).mapReads fun _ => readAs gone old (g.standIn r) op with block := none }
  made : ∀ i d, r.all[i]? = some d → g'.op ⟨g.ops.size + i⟩ =
    { (g.stepOperation i d).mapReads fun _ => renamed old (g.standIn r) with block := some b }
  opsSize : g'.ops.size = g.ops.size + r.all.length
  value? : ∀ v, g'.value? v = if g.HasValue v then g.value? v else
    r.all[v.index - g.values.size]?.map fun d =>
      ⟨.result ⟨g.ops.size + (v.index - g.values.size)⟩ 0, d.resultType⟩
  valuesSize : g'.values.size = g.values.size + r.all.length
  block : ∃ l₁ l₂, g.opsIn b = l₁ ++ op :: l₂ ∧ ∀ c, g'.block c =
    if b = c then { g.block c with ops := l₁ ++ g.nextOps r.all.length ++ l₂ } else g.block c
  regions : g'.regions = g.regions

/-- In `g'` operations of `g` that lay nowhere stand where `op` stood, and the name `new` for
what `op` gave is read wherever the old one was. -/
structure Replaced (g g' : Graph) (gone : List OpId) (op : OpId) (b : BlockId)
    (old new : ValueId) (news l₁ l₂ : List OpId) : Prop where
  after : Consistent g' (op :: gone)
  left : g'.op op =
    { (g.op op).mapReads fun _ => readAs gone old new op with block := none }
  kept : ∀ o, o ≠ op → g'.op o = if o ∈ news
    then { (g.op o).mapReads fun _ => readAs gone old new o with block := some b }
    else (g.op o).mapReads fun _ => readAs gone old new o
  opsSize : g'.ops.size = g.ops.size
  values : g'.values = g.values
  block : ∀ c, g'.block c =
    if b = c then { g.block c with ops := l₁ ++ news ++ l₂ } else g.block c
  regions : g'.regions = g.regions

/-! ## The whole splice -/

theorem nextOps_fresh {k : Nat} (h : n ∈ g.nextOps k) : ¬ g.HasOp n := by
  obtain ⟨i, -, rfl⟩ := mem_nextOps.mp h
  unfold HasOp
  simp

theorem Created.hasOp {all : List Step} (h : Created g g₁ all) :
    g₁.HasOp o ↔ g.HasOp o ∨ o ∈ g.nextOps all.length := by
  rw [HasOp, h.opsSize, mem_nextOps, HasOp]
  constructor
  · intro ho
    by_cases hlt : o.index < g.ops.size
    · exact Or.inl hlt
    · right
      refine ⟨o.index - g.ops.size, by omega, ?_⟩
      obtain ⟨j⟩ := o
      simp only [OpId.mk.injEq] at hlt ⊢
      omega
  · rintro (ho | ⟨i, hi, rfl⟩)
    · omega
    · simp only
      omega

theorem Created.op_new {all : List Step} (h : Created g g₁ all) {i : Nat} {d : Step}
    (hd : all[i]? = some d) : g₁.op ⟨g.ops.size + i⟩ = g.stepOperation i d := by
  have hn : ¬ g.HasOp ⟨g.ops.size + i⟩ := by
    unfold HasOp
    simp
  rw [h.op, if_neg hn]
  simp [hd]

/-- Whatever has been created and not placed, its last operation with one result, can take the
place of any placed operation with one result. -/
theorem replace_total {news : List OpId} {new : OpId} {w : ValueId} (hc : Consistent g gone)
    (hold : g.results op = [old]) (hw : g.results new = [w]) (hb : g.opsIn b = l₁ ++ op :: l₂)
    (free : ∀ n ∈ news ++ [new], g.HasOp n ∧ g.blockOf? n = none)
    (nodup : (news ++ [new]).Nodup) :
    ∃ g', g.splice op ⟨news, .replace new⟩ = .ok g' ∧
      Replaced g g' gone op b old w (news ++ [new]) l₁ l₂ := by
  have hblock : g.blockOf? op = some b := (hc.places op b).mp (by simp [hb])
  have hne : old ≠ w := by
    intro e
    have h : op = new := hc.eq_of_mem_results (v := w) (by simp [hold, e]) (by simp [hw])
    rw [h, (free new (by simp)).2] at hblock
    cases hblock
  -- With a single result, renaming all results is renaming this one.
  have hname : ∀ o, readBy gone (renamedAll [old] [w]) o = readAs gone old w o := fun o => by
    funext v
    rw [renamedAll_singleton]
    rfl
  obtain ⟨g', run, hs⟩ := splice_substitutes ⟨news, .replace new⟩ hc hb free nodup
    (fun h => nomatch h) (by simp [Edits.standIns, hold, hw])
    (by simpa [Edits.standIns, hold, hw] using hne.symm)
  simp only [Edits.standIns, hold, hw] at hs
  refine ⟨g', run, hs.after, ?_, fun o ho => ?_, hs.opsSize, hs.values, hs.block, hs.regions⟩
  · rw [hs.left, hname]
  · rw [hs.kept o ho, hname]
    rfl

/-- A recipe can be put in the place of any placed operation with one result and no
regions, and what comes of it is the spliced graph. -/
theorem splice_total (hc : Consistent g gone) (hblock : g.blockOf? op = some b)
    (hold : g.results op = [old]) (hbare : g.regionsOf op = []) (hr : r.Fine R) :
    ∃ g', (g.addRecipe r).1.splice op (g.addRecipe r).2 = .ok g' ∧
      Spliced g g' gone op b old r := by
  obtain ⟨g₁, hrun, hg₁, hc₁⟩ := addRecipe_created hc hr
  rw [hrun]
  dsimp only
  have hop : g.HasOp op := hasOp_of_blockOf? hblock
  have hop₁ : g₁.op op = g.op op := by rw [hg₁.op, if_pos hop]
  have block₁ : ∀ c, g₁.block c = g.block c := fun c => by
    rw [Graph.block, Graph.block, block?, block?, hg₁.blocks]
  -- Where the operation stands in its block.
  obtain ⟨l₁, l₂, hl⟩ := List.append_of_mem ((hc.places op b).mpr hblock)
  have record : ∀ i d, r.all[i]? = some d → g₁.op ⟨g.ops.size + i⟩ = g.stepOperation i d :=
    fun i d hd => hg₁.op_new hd
  have hall : g.nextOps r.steps.length ++ [⟨g.ops.size + r.steps.length⟩] =
      g.nextOps r.all.length := (nextOps_all r).symm
  have hold₁ : g₁.results op = [old] := by
    rw [results, hop₁]
    exact hold
  have hnew : g₁.results ⟨g.ops.size + r.steps.length⟩ = [g.standIn r] := by
    rw [results, record _ _ r.getElem?_all_final]
    rfl
  have hl₁ : g₁.opsIn b = l₁ ++ op :: l₂ := by
    rw [opsIn, block₁]
    exact hl
  have free : ∀ n ∈ g.nextOps r.steps.length ++ [⟨g.ops.size + r.steps.length⟩],
      g₁.HasOp n ∧ g₁.blockOf? n = none := by
    intro n hn
    rw [hall] at hn
    refine ⟨hg₁.hasOp.mpr (Or.inr hn), ?_⟩
    obtain ⟨i, hi, rfl⟩ := mem_nextOps.mp hn
    rw [blockOf?, record i _ (List.getElem?_eq_getElem hi)]
    rfl
  obtain ⟨g', run, hrep⟩ :=
    replace_total hc₁ hold₁ hnew hl₁ free (hall ▸ nodup_nextOps r.all.length)
  rw [hall] at hrep
  refine ⟨g', run, ⟨hc, hrep.after, hblock, hold, hbare, fun o ho hne => ?_, ?_, fun i d hd => ?_,
    ?_, fun v => ?_, ?_, ⟨l₁, l₂, hl, fun c => ?_⟩, ?_⟩⟩
  · rw [hrep.kept o hne, if_neg (fun h => nextOps_fresh h ho), hg₁.op, if_pos ho]
  · rw [hrep.left, hop₁]
  · have hlt : i < r.all.length := by
      by_contra hge
      rw [List.getElem?_eq_none (by omega)] at hd
      cases hd
    have hmem : (⟨g.ops.size + i⟩ : OpId) ∈ g.nextOps r.all.length := mem_nextOps.mpr ⟨i, hlt, rfl⟩
    have hne : (⟨g.ops.size + i⟩ : OpId) ≠ op := fun e => nextOps_fresh hmem (e ▸ hop)
    have hlive : (⟨g.ops.size + i⟩ : OpId) ∉ gone := fun h =>
      absurd (hc.known _ h) (Nat.not_lt.mpr (Nat.le_add_right ..))
    have hread : readAs gone old (g.standIn r) ⟨g.ops.size + i⟩ = renamed old (g.standIn r) := by
      funext w
      exact if_neg hlive
    rw [hrep.kept _ hne, if_pos hmem, record _ d hd, hread]
  · rw [hrep.opsSize, hg₁.opsSize]
  · rw [Graph.value?, hrep.values]
    exact hg₁.value? v
  · rw [hrep.values, hg₁.valuesSize]
  · rw [hrep.block, block₁]
  · rw [hrep.regions, hg₁.regions]

end Graph

end SimdLowering
