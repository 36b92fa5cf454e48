/-
Rules that put new operations in the place of one.

While a rule is tried it may create: operations, and for operations that hold others, blocks and
regions, which it fills with operations it has created. Whatever was there is as it was, down to
the last table but for who owns a region that nobody owned. If then what the rule wants put in
place is new and lies nowhere, and it names as many values as the operation has results, none of
them a result, then putting it in place is a substitution.
-/
import SimdLowering.Proofs.Graph.History
import SimdLowering.Proofs.Rewrite.Report
import SimdLowering.Proofs.Rewrite.Substitution

set_option autoImplicit false

namespace SimdLowering

open SimdLowering.Graph

/-! ## Creation -/

/-- The edit creates something, or puts an operation that is not in the graph into a block that is
not either. -/
def Edit.Creates (g : Graph) : Edit → Prop
  | createBlock _ => True
  | createRegion _ => True
  | createOp _ => True
  | append b op => ¬ g.HasBlock b ∧ ¬ g.HasOp op
  | insertBefore b _ op => ¬ g.HasBlock b ∧ ¬ g.HasOp op
  | _ => False

namespace Graph

variable {g g₁ g' : Graph} {gone : List OpId} {o op : OpId} {b : BlockId} {r : RegionId}
  {v : ValueId} {e : Edit}

/-- The second graph has come from the first by creation alone. -/
def Creates (g g' : Graph) : Prop :=
  ∃ edits : List Edit, (∀ e ∈ edits, e.Creates g) ∧ edits.foldlM Edit.apply g = .ok g'

/-- Nothing has been created. -/
theorem Creates.refl (g : Graph) : g.Creates g := ⟨[], (fun _ h => nomatch h), rfl⟩

/-- One more operation has been created, which owns no region. -/
theorem Creates.addOp {d : Draft ValueId} (h : g.Creates g') (hd : d.regions = []) :
    g.Creates (g'.addOp d).1 := by
  obtain ⟨edits, hedits, h⟩ := h
  refine ⟨edits ++ [.createOp d], fun e he => ?_, ?_⟩
  · rcases List.mem_append.mp he with he | he
    · exact hedits e he
    · rw [List.mem_singleton.mp he]
      trivial
  · rw [List.foldlM_append, bind_eq_ok]
    refine ⟨g', h, ?_⟩
    rw [List.foldlM_cons, Edit.apply, createOp, hd]
    rfl

/-- Creating operations keeps a graph consistent. -/
theorem Consistent.creates (hc : Consistent g gone) (h : g.Creates g') : Consistent g' gone := by
  obtain ⟨edits, hedits, h⟩ := h
  refine (foldlM_invariant (fun rest t => (∀ e ∈ rest, e.Creates g) ∧ Consistent t gone)
    (fun e rest t t' ⟨hrest, ht⟩ h => ?_) ⟨hedits, hc⟩ h).2
  refine ⟨fun x hx => hrest x (List.mem_cons_of_mem _ hx), ?_⟩
  have hnone : e.removed = [] := by
    cases e <;> first
      | rfl
      | exact (hrest _ (List.mem_cons_self ..)).elim
  simpa [hnone] using ht.apply h

/-- Everything that was there is as it was, but for who owns a region and which region a block
lies in. -/
structure Enlarged (g g' : Graph) : Prop where
  ops : g.ops.size ≤ g'.ops.size
  blocks : g.blocks.size ≤ g'.blocks.size
  regions : g.regions.size ≤ g'.regions.size
  op : ∀ o, g.HasOp o → g'.op o = g.op o
  block : ∀ b, g.HasBlock b → g'.opsIn b = g.opsIn b ∧ g'.argsOf b = g.argsOf b
  region : ∀ r, g.HasRegion r → g'.blocksIn r = g.blocksIn r
  value? : ∀ v, g.HasValue v → g'.value? v = g.value? v

namespace Enlarged

theorem refl (g : Graph) : g.Enlarged g :=
  ⟨Nat.le_refl _, Nat.le_refl _, Nat.le_refl _, fun _ _ => rfl, fun _ _ => ⟨rfl, rfl⟩,
    fun _ _ => rfl, fun _ _ => rfl⟩

section

variable (h : g.Enlarged g')
include h

theorem hasOp (ho : g.HasOp o) : g'.HasOp o := Nat.lt_of_lt_of_le ho h.ops

theorem hasBlock (hb : g.HasBlock b) : g'.HasBlock b := Nat.lt_of_lt_of_le hb h.blocks

theorem hasRegion (hr : g.HasRegion r) : g'.HasRegion r := Nat.lt_of_lt_of_le hr h.regions

theorem hasValue (hv : g.HasValue v) : g'.HasValue v := by
  rw [← value?_isSome_iff, h.value? v hv, value?_isSome_iff]
  exact hv

end

/-- What grows twice has grown. -/
theorem trans (h₁ : g.Enlarged g₁) (h₂ : g₁.Enlarged g') : g.Enlarged g' := by
  refine ⟨Nat.le_trans h₁.ops h₂.ops, Nat.le_trans h₁.blocks h₂.blocks,
    Nat.le_trans h₁.regions h₂.regions, fun o ho => ?_, fun b hb => ?_, fun r hr => ?_,
    fun v hv => ?_⟩
  · rw [h₂.op o (h₁.hasOp ho), h₁.op o ho]
  · obtain ⟨hops, hargs⟩ := h₂.block b (h₁.hasBlock hb)
    rw [hops, hargs]
    exact h₁.block b hb
  · rw [h₂.region r (h₁.hasRegion hr), h₁.region r hr]
  · rw [h₂.value? v (h₁.hasValue hv), h₁.value? v hv]

/-- A new block is more. -/
theorem createBlock (g : Graph) (types : List Ty) : g.Enlarged (g.createBlock types).1 := by
  refine ⟨Nat.le_refl _, ?_, Nat.le_refl _, fun _ _ => rfl, fun b hb => ?_, fun _ _ => rfl,
    fun v hv => ?_⟩
  · change g.blocks.size ≤ (g.blocks.push _).size
    rw [Array.size_push]
    exact Nat.le_succ _
  · have hne : b ≠ g.nextBlock := by
      rintro rfl
      exact g.not_hasBlock_nextBlock hb
    rw [opsIn, argsOf, block_createBlock, if_neg hne]
    exact ⟨rfl, rfl⟩
  · exact (value?_addValues ..).trans (if_pos hv)

/-- So is a new region. -/
theorem createRegion {blocks : List BlockId} (h : g.createRegion blocks = .ok (g', r)) :
    g.Enlarged g' := by
  obtain ⟨rfl, -, -, hblock, hregion, hops, hvalues, -⟩ := createRegion_effect h
  obtain ⟨t, ht, h⟩ := bind_eq_ok.mp h
  cases h
  obtain ⟨-, -, -, -, -, hregions, -, hblocks⟩ := foldlM_enclose ht
  refine ⟨by rw [hops], Nat.le_of_eq hblocks.symm, ?_, fun o _ => ?_, fun b _ => ?_,
    fun r hr => ?_, fun v _ => ?_⟩
  · rw [hregions, Array.size_push]
    exact Nat.le_succ _
  · rw [Graph.op, Graph.op, op?, op?, hops]
  · rw [opsIn, argsOf, hblock]
    split <;> exact ⟨rfl, rfl⟩
  · have hne : r ≠ g.nextRegion := by
      rintro rfl
      exact g.not_hasRegion_nextRegion hr
    rw [blocksIn, hregion, if_neg hne]
    rfl
  · rw [Graph.value?, Graph.value?, hvalues]

/-- And a new operation. -/
theorem createOp {d : Draft ValueId} (h : g.createOp d = .ok (g', op)) : g.Enlarged g' := by
  obtain ⟨rfl, -, -, hregion, hops, hvalues, -, hblocks, hregions⟩ := createOp_effect h
  refine ⟨?_, by rw [hblocks], Nat.le_of_eq hregions.symm, fun o ho => ?_, fun b _ => ?_,
    fun r _ => ?_, fun v hv => ?_⟩
  · rw [hops]
    exact (g.untouched_addOp d).sizes.1
  · rw [Graph.op, op?, hops]
    exact (g.untouched_addOp d).op o ho
  · rw [opsIn, argsOf, Graph.block, block?, hblocks]
    exact ⟨rfl, rfl⟩
  · rw [blocksIn, hregion]
    split <;> rfl
  · rw [Graph.value?, hvalues]
    exact (value?_addOp d v).trans (if_pos hv)

/-- Putting a new operation into a new block changes nothing that was there. -/
theorem placed {f : List OpId → List OpId} (h : g.Enlarged g₁) (hp : Placed g₁ g' b op f)
    (hb : ¬ g.HasBlock b) (hop : ¬ g.HasOp op) : g.Enlarged g' := by
  refine ⟨hp.sizes.1 ▸ h.ops, hp.sizes.2 ▸ h.blocks, hp.regions ▸ h.regions, fun o ho => ?_,
    fun c hc => ?_, fun r hr => ?_, fun v hv => ?_⟩
  · have hne : op ≠ o := by
      rintro rfl
      exact hop ho
    rw [hp.op, if_neg hne, h.op o ho]
  · have hne : b ≠ c := by
      rintro rfl
      exact hb hc
    rw [opsIn, argsOf, hp.block, if_neg hne]
    exact h.block c hc
  · rw [blocksIn, Graph.region, region?, hp.regions]
    exact h.region r hr
  · rw [Graph.value?, hp.values]
    exact h.value? v hv

/-- One more edit that creates. -/
theorem apply (h : g.Enlarged g₁) (he : e.Creates g) (ha : e.apply g₁ = .ok g') :
    g.Enlarged g' := by
  cases e with
  | createBlock types =>
    cases ha
    exact h.trans (.createBlock g₁ types)
  | createRegion blocks =>
    obtain ⟨⟨t, r⟩, hr, rfl⟩ := map_eq_ok.mp ha
    exact h.trans (.createRegion hr)
  | createOp d =>
    obtain ⟨⟨t, op⟩, hop, rfl⟩ := map_eq_ok.mp ha
    exact h.trans (.createOp hop)
  | append b op => exact h.placed (append_effect ha) he.1 he.2
  | insertBefore b before op => exact h.placed (insertBefore_effect ha) he.1 he.2
  | detach | removeOp | replaceUses => exact he.elim

end Enlarged

/-- To create is to enlarge. -/
theorem Creates.enlarged (h : g.Creates g') : g.Enlarged g' := by
  obtain ⟨edits, hedits, h⟩ := h
  exact (foldlM_invariant (fun rest t => (∀ e ∈ rest, e.Creates g) ∧ g.Enlarged t)
    (fun e _ _ _ ⟨hrest, ht⟩ h => ⟨fun x hx => hrest x (List.mem_cons_of_mem _ hx),
      ht.apply (hrest e (List.mem_cons_self ..)) h⟩) ⟨hedits, .refl g⟩ h).2

/-- And to touch nothing. -/
theorem Creates.untouched (hc : Consistent g gone) (h : g.Creates g') : g.Untouched g' :=
  have hg := h.enlarged
  ⟨⟨hg.ops, hg.blocks⟩, hg.op, fun b hb => (hg.block b hb).1, fun _ => (hc.creates h).places⟩

end Graph

/-! ## Rules that substitute -/

/-- What a rule wants done at the operation is to put operations in its place that it has created
and not placed, and to have as many values stand for its results, none of them a result. -/
structure Edits.Substitutes (edits : Edits) (g g' : Graph) (op : OpId) : Prop where
  creates : g.Creates g'
  fresh : ∀ n ∈ edits.newOps, ¬ g.HasOp n ∧ g'.HasOp n ∧ g'.blockOf? n = .none
  nodup : edits.newOps.Nodup
  ends : edits.ending ≠ .keep
  asMany : (g.results op).length = (edits.standIns g').length
  others : ∀ values, edits.ending = .forward values → ∀ v ∈ values, v ∉ g.results op

/-- To put in place what a rule wants put in place succeeds and substitutes, if that is a
substitution. -/
theorem Edits.Substitutes.splice {edits : Edits} {g g' : Graph} {gone : List OpId} {op : OpId}
    {b : BlockId} (h : edits.Substitutes g g' op) (hc : Consistent g gone)
    (hb : g.blockOf? op = some b) :
    ∃ l₁ l₂ g'', g'.opsIn b = l₁ ++ op :: l₂ ∧ g'.splice op edits = .ok g'' ∧
      Substituted g' g'' gone op b (renamedAll (g'.results op) (edits.standIns g')) edits.newOps
        l₁ l₂ := by
  have hg := h.creates.enlarged
  have hc' := hc.creates h.creates
  have hop := hasOp_of_blockOf? hb
  have hresults : g'.results op = g.results op := by rw [results, results, hg.op op hop]
  have hb' : g'.blockOf? op = some b := by
    rw [blockOf?, hg.op op hop]
    exact hb
  obtain ⟨l₁, l₂, hl⟩ := List.append_of_mem ((hc'.places op b).mpr hb')
  have hothers : ∀ w ∈ edits.standIns g', w ∉ g'.results op := by
    intro w hw
    unfold Edits.standIns at hw
    split at hw
    · cases hw
    · next new hends =>
      -- No value is a result of two operations, and the new one is another.
      intro hwop
      obtain rfl := hc'.eq_of_mem_results hwop hw
      exact (h.fresh op (by simp [Edits.newOps, hends])).1 hop
    · next values hends =>
      rw [hresults]
      exact h.others values hends w hw
  obtain ⟨g'', run, hs⟩ := splice_substitutes edits hc' hl (fun n hn => (h.fresh n hn).2) h.nodup
    h.ends
    (hresults ▸ h.asMany) hothers
  exact ⟨l₁, l₂, g'', hl, run, hs⟩

/-- At the operation the rule changes the graph only if it matches and has something to do, and
then what it wants done is a substitution. -/
structure Rule.SubstitutesAt (rule : Rule) (g : Graph) (op : OpId) : Prop where
  still : ∀ {c g' c' outcome}, rule.run g op c = .ok (g', c', outcome) →
    (∀ edits, outcome = .matched edits → edits.isEmpty = true) → g' = g
  substitutes : ∀ {c g' c' edits}, rule.run g op c = .ok (g', c', .matched edits) →
    edits.isEmpty = false → edits.Substitutes g g' op

/-- A rule that substitutes records what it changes. -/
theorem Rule.SubstitutesAt.recordsAt {rule : Rule} {g : Graph} {gone : List OpId} {op : OpId}
    (h : rule.SubstitutesAt g op) (hc : Consistent g gone) : rule.RecordsAt g op :=
  ⟨h.still, fun hrun hsome => (h.substitutes hrun hsome).creates.untouched hc⟩

/-- Wherever rewriting leads, what the rules for a placed operation want done is substitution. -/
def RuleSet.Substitutes (rules : RuleSet) (g : Graph) : Prop :=
  ∀ log g₁, rules.Rewritten g log g₁ → ∀ op b, g₁.blockOf? op = some b →
    ∀ e ∈ rules.forKind (g₁.kind op), e.rule.SubstitutesAt g₁ op

end SimdLowering
