/-
Putting operations in the place of another one.

Whatever a rule wants put in place stands in its block where the old operation stood, in the
order in which it was named, and the values that stand for the results of the old operation are
read wherever those were. The edits that bring this about are several: some operations go in
front, readings are redirected one result after the other, the last operation goes in front too,
and the old one comes out and stops reading. `Prepared` is the state on the way, when the old
operation is still there, and `Substituted` the state in the end.

That all this succeeds needs no more than that the tables agree, that the old operation is
placed, that what is put in place lies nowhere yet, and that there are as many values as results,
none of them a result.
-/
import SimdLowering.Proofs.Graph.Preservation
import SimdLowering.Rewrite.Apply

set_option autoImplicit false

namespace SimdLowering

/-- The values that are to stand for the results of the operation. -/
def Edits.standIns (e : Edits) (g : Graph) : List ValueId :=
  match e.ending with
  | .keep => []
  | .replace new => g.results new
  | .forward values => values

namespace Graph

variable {g g' g'' : Graph} {gone news placed values olds : List OpId} {o op n : OpId}
  {b c : BlockId} {v w : ValueId} {l₁ l₂ : List OpId}

/-! ## Inserting a list -/

theorem insertBeforeIn_append (h : op ∉ l₁) :
    insertBeforeIn op n (l₁ ++ op :: l₂) = l₁ ++ n :: op :: l₂ := by
  induction l₁ with
  | nil => simp [insertBeforeIn]
  | cons x l₁ ih =>
    have hx : ¬ x = op := fun e => h (e ▸ List.mem_cons_self ..)
    have hl : op ∉ l₁ := fun hm => h (List.mem_cons_of_mem _ hm)
    rw [List.cons_append, insertBeforeIn, if_neg hx, ih hl]
    rfl

/-- Operations that lie in no block can be put before a placed one, all of them. -/
theorem insertAllBefore_total (news : List OpId) (hc : Consistent g gone)
    (hb : g.opsIn b = l₁ ++ op :: l₂)
    (free : ∀ n ∈ news, g.HasOp n ∧ g.blockOf? n = none) (nodup : news.Nodup) :
    ∃ g', g.insertAllBefore (some b) op news = .ok g' ∧ Consistent g' gone ∧
      (∀ o, g'.op o = if o ∈ news then { g.op o with block := some b } else g.op o) ∧
      (∀ c, g'.block c =
        if b = c then { g.block c with ops := l₁ ++ news ++ op :: l₂ } else g.block c) ∧
      g'.regions = g.regions ∧ g'.values = g.values ∧ g'.chains = g.chains ∧
      g'.ops.size = g.ops.size ∧ g'.blocks.size = g.blocks.size := by
  change ∃ g', news.foldlM (fun g n => g.insertBefore b op n) g = .ok g' ∧ _
  -- Each goes right in front of the operation, so those before it become part of the front.
  induction news generalizing g l₁ with
  | nil =>
    refine ⟨g, rfl, hc, by simp, fun c => ?_, rfl, rfl, rfl, rfl, rfl⟩
    split
    · next e =>
      subst e
      rw [List.append_nil, ← hb]
      rfl
    · rfl
  | cons n news ih =>
    obtain ⟨fresh, nodup⟩ := List.nodup_cons.mp nodup
    obtain ⟨hn, hfree⟩ := free n (List.mem_cons_self ..)
    have hop : op ∈ g.opsIn b := by simp [hb]
    have hnodup := hc.placedOnce b
    rw [hb, List.nodup_append] at hnodup
    have hl₁ : op ∉ l₁ := fun h => hnodup.2.2 op h op (List.mem_cons_self ..) rfl
    obtain ⟨g₁, h₁⟩ : ∃ g₁, g.insertBefore b op n = .ok g₁ :=
      ⟨_, insertBefore_eq_ok.mpr ⟨hn, hasBlock_of_mem_opsIn hop, hfree, hop, rfl⟩⟩
    have placed := insertBefore_effect h₁
    have hb₁ : g₁.opsIn b = (l₁ ++ [n]) ++ op :: l₂ := by
      rw [opsIn, placed.block b, if_pos rfl]
      change insertBeforeIn op n (g.opsIn b) = _
      rw [hb, insertBeforeIn_append hl₁]
      simp
    have free₁ : ∀ m ∈ news, g₁.HasOp m ∧ g₁.blockOf? m = none := by
      intro m hm
      obtain ⟨hm₁, hm₂⟩ := free m (List.mem_cons_of_mem _ hm)
      have hne : ¬ n = m := fun e => fresh (e ▸ hm)
      refine ⟨?_, ?_⟩
      · rw [HasOp, placed.sizes.1]
        exact hm₁
      · rw [blockOf?, placed.op m, if_neg hne]
        exact hm₂
    obtain ⟨g', run, hc', op', block', hregions, hvalues, hchains, hops, hblocks⟩ :=
      ih (hc.insertBefore h₁) hb₁ free₁ nodup
    refine ⟨g', ?_, hc', fun o => ?_, fun c => ?_, hregions.trans placed.regions,
      hvalues.trans placed.values, hchains.trans placed.chains, hops.trans placed.sizes.1,
      hblocks.trans placed.sizes.2⟩
    · rw [List.foldlM_cons, bind_eq_ok]
      exact ⟨g₁, h₁, run⟩
    · rw [op' o, placed.op o]
      by_cases e : n = o
      · subst e
        simp [fresh]
      · simp [e, Ne.symm e]
    · rw [block' c, placed.block c]
      split
      · simp
      · rfl

/-! ## Names -/

/-- What values are called once each value of the first list goes by the name of its partner in
the second. -/
def renamedAll (olds news : List ValueId) (v : ValueId) : ValueId :=
  ((olds.zip news).lookup v).getD v

section Names

variable {olds news : List ValueId} {pairs : List (ValueId × ValueId)}

/-- To rename one value after the other is to rename all at once, if no new name is an old one. -/
theorem foldl_renamed (h : ∀ p ∈ pairs, ∀ q ∈ pairs, p.2 ≠ q.1) (v : ValueId) :
    pairs.foldl (fun v p => renamed p.1 p.2 v) v = (pairs.lookup v).getD v := by
  induction pairs generalizing v with
  | nil => rfl
  | cons p pairs ih =>
    have ih := ih fun q hq r hr => h q (List.mem_cons_of_mem _ hq) r (List.mem_cons_of_mem _ hr)
    rw [List.foldl_cons, ih, renamed]
    by_cases hv : v = p.1
    · -- The new name is not renamed again.
      have hnone : pairs.lookup p.2 = none := by
        rw [List.lookup_eq_none_iff]
        intro q hq
        simpa using h p (List.mem_cons_self ..) q (List.mem_cons_of_mem _ hq)
      rw [if_pos hv, hnone, hv, List.lookup_cons, beq_self_eq_true]
      rfl
    · rw [if_neg hv, List.lookup_cons, beq_false_of_ne hv]

theorem renamedAll_of_not_mem (h : v ∉ olds) : renamedAll olds news v = v := by
  have hnone : (olds.zip news).lookup v = none := by
    rw [List.lookup_eq_none_iff]
    rintro ⟨x, y⟩ hxy
    have hx := (List.of_mem_zip hxy).1
    simp only [bne_iff_ne, ne_eq]
    rintro rfl
    exact h hx
  rw [renamedAll, hnone, Option.getD_none]

theorem renamedAll_singleton (old new : ValueId) : renamedAll [old] [new] = renamed old new := by
  funext v
  rw [renamed, renamedAll, List.zip_cons_cons, List.lookup_cons]
  by_cases hv : v = old
  · rw [if_pos hv, hv, beq_self_eq_true]
    rfl
  · rw [if_neg hv, beq_false_of_ne hv]
    rfl

/-- The i-th value of the first list goes by the name of the i-th of the second. -/
theorem renamedAll_getElem {i : Nat} (nodup : olds.Nodup) (hv : olds[i]? = some v)
    (hw : news[i]? = some w) : renamedAll olds news v = w := by
  induction olds generalizing news i with
  | nil => cases hv
  | cons x olds ih =>
    cases news with
    | nil => cases hw
    | cons y news =>
      obtain ⟨hx, nodup⟩ := List.nodup_cons.mp nodup
      cases i with
      | zero =>
        cases hv
        cases hw
        simp [renamedAll]
      | succ i =>
        have hne : v ≠ x := by
          rintro rfl
          exact hx (List.mem_of_getElem? hv)
        have := ih nodup hv hw
        rw [renamedAll] at this ⊢
        rw [List.zip_cons_cons, List.lookup_cons, beq_false_of_ne hne]
        exact this

/-- If there are enough new names, and no old one among them, no old name is used any more. -/
theorem renamedAll_not_mem (nodup : olds.Nodup) (hlength : olds.length = news.length)
    (hdisjoint : ∀ w ∈ news, w ∉ olds) (v : ValueId) : renamedAll olds news v ∉ olds := by
  by_cases hv : v ∈ olds
  · obtain ⟨i, hi⟩ := List.mem_iff_getElem?.mp hv
    have hlt : i < news.length := hlength ▸ (List.getElem?_eq_some_iff.mp hi).1
    have hw := List.getElem?_eq_getElem hlt
    rw [renamedAll_getElem nodup hi hw]
    exact hdisjoint _ (List.getElem_mem hlt)
  · rw [renamedAll_of_not_mem hv]
    exact hv

/-- The name by which an operation reads a value. Operations that have been removed keep their
operands. -/
def readBy (gone : List OpId) (name : ValueId → ValueId) (o : OpId) (w : ValueId) : ValueId :=
  if o ∈ gone then w else name w

/-- Substitution of one value after the other succeeds. -/
theorem foldlM_replaceUses (pairs : List (ValueId × ValueId)) (hc : Consistent g gone) :
    ∃ g', pairs.foldlM (fun g (p : ValueId × ValueId) => g.replaceUses p.1 p.2) g = .ok g' ∧
      Consistent g' gone ∧ (∀ o, g'.op o = (g.op o).mapReads fun _ =>
        readBy gone (fun v => pairs.foldl (fun v p => renamed p.1 p.2 v) v) o) ∧
      g'.values = g.values ∧ g'.blocks = g.blocks ∧ g'.regions = g.regions ∧
      g'.ops.size = g.ops.size := by
  induction pairs generalizing g with
  | nil =>
    refine ⟨g, rfl, hc, fun o => ?_, rfl, rfl, rfl, rfl⟩
    exact ((g.op o).mapReads_of_forall fun _ _ _ => ite_self _).symm
  | cons p pairs ih =>
    obtain ⟨g₁, h₁, hop₁, -, hvalues₁, hblocks₁, hregions₁, hsize₁⟩ :=
      hc.toReadsAgree.replaceUses_total p.1 p.2
    obtain ⟨g', h, hc', hop, hvalues, hblocks, hregions, hsize⟩ := ih (hc.replaceUses h₁)
    refine ⟨g', ?_, hc', fun o => ?_, hvalues.trans hvalues₁, hblocks.trans hblocks₁,
      hregions.trans hregions₁, hsize.trans hsize₁⟩
    · rw [List.foldlM_cons, bind_eq_ok]
      exact ⟨g₁, h₁, h⟩
    · rw [hop, hop₁, Operation.mapReads_mapReads]
      refine congrArg _ (funext fun _ => funext fun w => ?_)
      simp only [readBy, List.foldl_cons]
      split <;> rfl

/-- So does substitution of all results at once. -/
theorem forwardResults_total (hc : Consistent g gone)
    (hlength : (g.results op).length = news.length)
    (hdisjoint : ∀ w ∈ news, w ∉ g.results op) :
    ∃ g', g.forwardResults op news = .ok g' ∧ Consistent g' gone ∧
      (∀ o, g'.op o = (g.op o).mapReads fun _ => readBy gone (renamedAll (g.results op) news) o) ∧
      g'.values = g.values ∧ g'.blocks = g.blocks ∧ g'.regions = g.regions ∧
      g'.ops.size = g.ops.size := by
  obtain ⟨g', h, hc', hop, hrest⟩ := foldlM_replaceUses ((g.results op).zip news) hc
  refine ⟨g', ?_, hc', fun o => ?_, hrest⟩
  · rw [forwardResults, if_pos hlength]
    exact h
  · rw [hop]
    have hname : (fun v => ((g.results op).zip news).foldl (fun v p => renamed p.1 p.2 v) v) =
        renamedAll (g.results op) news := by
      funext v
      refine foldl_renamed (fun p hp q hq hpq => ?_) v
      exact hdisjoint p.2 (List.of_mem_zip hp).2 (hpq ▸ (List.of_mem_zip hq).1)
    rw [hname]

end Names

/-! ## The state on the way -/

/-- In `g'` the operations `placed` stand in front of the operation, and operations that have not
been removed read values by other names. -/
structure Prepared (g g' : Graph) (gone : List OpId) (op : OpId) (b : BlockId)
    (name : ValueId → ValueId) (placed l₁ l₂ : List OpId) : Prop where
  consistent : Consistent g' gone
  record : ∀ o, g'.op o = if o ∈ placed
    then { (g.op o).mapReads fun _ => readBy gone name o with block := some b }
    else (g.op o).mapReads fun _ => readBy gone name o
  opsSize : g'.ops.size = g.ops.size
  values : g'.values = g.values
  block : ∀ c, g'.block c =
    if b = c then { g.block c with ops := l₁ ++ placed ++ op :: l₂ } else g.block c
  blocksSize : g'.blocks.size = g.blocks.size
  regions : g'.regions = g.regions

/-- In `g'` the operations `placed` stand where the operation stood, and operations that have not
been removed read values by other names. -/
structure Substituted (g g' : Graph) (gone : List OpId) (op : OpId) (b : BlockId)
    (name : ValueId → ValueId) (placed l₁ l₂ : List OpId) : Prop where
  after : Consistent g' (op :: gone)
  left : g'.op op = { (g.op op).mapReads fun _ => readBy gone name op with block := none }
  kept : ∀ o, o ≠ op → g'.op o = if o ∈ placed
    then { (g.op o).mapReads fun _ => readBy gone name o with block := some b }
    else (g.op o).mapReads fun _ => readBy gone name o
  opsSize : g'.ops.size = g.ops.size
  values : g'.values = g.values
  block : ∀ c, g'.block c =
    if b = c then { g.block c with ops := l₁ ++ placed ++ l₂ } else g.block c
  blocksSize : g'.blocks.size = g.blocks.size
  regions : g'.regions = g.regions

namespace Prepared

variable {name name' : ValueId → ValueId}

theorem start (hc : Consistent g gone) (hb : g.opsIn b = l₁ ++ op :: l₂) :
    Prepared g g gone op b id [] l₁ l₂ := by
  refine ⟨hc, fun o => ?_, rfl, rfl, fun c => ?_, rfl, rfl⟩
  · rw [if_neg List.not_mem_nil]
    exact ((g.op o).mapReads_of_forall fun _ _ _ => ite_self _).symm
  · split
    · next e =>
      subst e
      rw [List.append_nil, ← hb]
      rfl
    · rfl

section

variable (h : Prepared g g' gone op b name placed l₁ l₂)
include h

theorem results (o : OpId) : g'.results o = g.results o := by
  rw [Graph.results, h.record]
  split <;> rfl

theorem operands (o : OpId) : g'.operands o = (g.operands o).map (readBy gone name o) := by
  rw [Graph.operands, h.record]
  split <;> exact mapIdx_const ..

theorem opsIn : g'.opsIn b = (l₁ ++ placed) ++ op :: l₂ := by
  rw [Graph.opsIn, h.block, if_pos rfl]

theorem blockOf? (o : OpId) : g'.blockOf? o = if o ∈ placed then some b else g.blockOf? o := by
  rw [Graph.blockOf?, h.record]
  split <;> rfl

/-- More operations go in front. -/
theorem insert (news : List OpId) (free : ∀ n ∈ news, g.HasOp n ∧ g.blockOf? n = none)
    (nodup : (placed ++ news).Nodup) :
    ∃ g'', g'.insertAllBefore (some b) op news = .ok g'' ∧
      Prepared g g'' gone op b name (placed ++ news) l₁ l₂ := by
  obtain ⟨-, nodup, hdisjoint⟩ := List.nodup_append.mp nodup
  -- What is to be inserted was not inserted before.
  have free' : ∀ n ∈ news, g'.HasOp n ∧ g'.blockOf? n = none := by
    intro n hn
    obtain ⟨hhas, hnone⟩ := free n hn
    refine ⟨?_, ?_⟩
    · rw [HasOp, h.opsSize]
      exact hhas
    · rw [h.blockOf?, if_neg fun hp => hdisjoint n hp n hn rfl]
      exact hnone
  obtain ⟨g'', run, hc, hop, hblock, hregions, hvalues, -, hops, hblocks⟩ :=
    insertAllBefore_total news h.consistent h.opsIn free' nodup
  refine ⟨g'', run, hc, fun o => ?_, hops.trans h.opsSize, hvalues.trans h.values, fun c => ?_,
    hblocks.trans h.blocksSize, hregions.trans h.regions⟩
  · rw [hop, h.record]
    by_cases hn : o ∈ news
    · rw [if_pos hn, if_pos (List.mem_append_right _ hn)]
      split <;> rfl
    · rw [if_neg hn]
      simp only [List.mem_append, hn, or_false]
  · rw [hblock, h.block]
    split
    · simp only [List.append_assoc]
    · rfl

/-- The operation comes out, if nobody reads its results by their new names. -/
theorem retire (hop : op ∉ placed) (hb : g.blockOf? op = some b)
    (unread : ∀ w, name w ∉ g.results op) :
    ∃ g'', g'.retire (some b) op = .ok g'' ∧ Substituted g g'' gone op b name placed l₁ l₂ := by
  have hblock' : g'.blockOf? op = some b := by rw [h.blockOf?, if_neg hop, hb]
  have hmem : op ∈ g'.opsIn b := (h.consistent.places op b).mpr hblock'
  -- Only operations that are still there have entries in chains, and those read by new names.
  have huses : ∀ v ∈ g'.results op, g'.uses v = [] := by
    intro v hv
    rw [List.eq_nil_iff_forall_not_mem]
    intro u hu
    obtain ⟨hlive, hread⟩ := (h.consistent.reads v u).mp hu
    rw [h.operands, List.getElem?_map, Option.map_eq_some_iff] at hread
    obtain ⟨w, -, hw⟩ := hread
    rw [readBy, if_neg hlive] at hw
    rw [h.results] at hv
    exact unread w (hw ▸ hv)
  obtain ⟨g₁, h₁⟩ : ∃ g₁, g'.detach b op = .ok g₁ :=
    ⟨_, detach_eq_ok.mpr ⟨hasOp_of_blockOf? hblock', hasBlock_of_mem_opsIn hmem, rfl⟩⟩
  obtain ⟨-, -, hop₁, hblock₁, hregions₁, hvalues₁, hchains₁, hsize₁, hblocks₁⟩ := detach_effect h₁
  have hresults₁ : g₁.results op = g'.results op := by
    rw [Graph.results, hop₁]
    split <;> rfl
  obtain ⟨g₂, h₂⟩ : ∃ g₂, g₁.removeOp op = .ok g₂ := by
    refine ⟨_, removeOp_eq_ok.mpr ⟨?_, ?_, fun v hv => ?_, rfl⟩⟩
    · rw [HasOp, hsize₁]
      exact hasOp_of_blockOf? hblock'
    · rw [Graph.blockOf?, hop₁, if_pos ⟨rfl, hblock'⟩]
    · rw [uses, hchains₁]
      exact huses v (hresults₁ ▸ hv)
  have hc₂ := (h.consistent.detach h₁).removeOp h₂
  obtain ⟨-, -, -, rfl⟩ := removeOp_eq_ok.mp h₂
  obtain ⟨hops₂, hvalues₂, hblocks₂, hregions₂⟩ := dropUses_arenas (g := g₁) op (g₁.operands op)
  have hop₂ : ∀ o, (g₁.dropUses op (g₁.operands op)).op o = g₁.op o := fun o => by
    rw [Graph.op, Graph.op, op?, op?, hops₂]
  refine ⟨_, bind_eq_ok.mpr ⟨g₁, h₁, h₂⟩, hc₂, ?_, fun o ho => ?_, ?_, ?_, fun c => ?_, ?_, ?_⟩
  · rw [hop₂, hop₁, if_pos ⟨rfl, hblock'⟩, h.record, if_neg hop]
  · rw [hop₂, hop₁, if_neg (fun e => ho e.1.symm), h.record]
  · rw [hops₂, hsize₁, h.opsSize]
  · rw [hvalues₂, hvalues₁, h.values]
  · have hc₂ : (g₁.dropUses op (g₁.operands op)).block c = g₁.block c := by
      rw [Graph.block, Graph.block, block?, block?, hblocks₂]
    rw [hc₂, hblock₁, h.block]
    by_cases e : b = c
    · subst e
      rw [if_pos rfl, if_pos rfl, if_pos rfl]
      -- Of the whole list only the operation itself is filtered out.
      have hnodup := h.consistent.placedOnce b
      rw [h.opsIn, List.nodup_middle, List.nodup_cons] at hnodup
      have hkeep : (l₁ ++ placed ++ l₂).filter (fun o => o != op) = l₁ ++ placed ++ l₂ := by
        rw [List.filter_eq_self]
        intro x hx
        simp only [bne_iff_ne, ne_eq]
        rintro rfl
        exact hnodup.1 hx
      rw [← hkeep]
      simp
    · rw [if_neg e, if_neg e, if_neg e]
  · rw [hblocks₂, hblocks₁, h.blocksSize]
  · rw [hregions₂, hregions₁, h.regions]

end

/-- All results go by other names from now on. -/
theorem forward {values : List ValueId} (h : Prepared g g' gone op b id placed l₁ l₂)
    (hlength : (g.results op).length = values.length) (hdisjoint : ∀ w ∈ values, w ∉ g.results op) :
    ∃ g'', g'.forwardResults op values = .ok g'' ∧
      Prepared g g'' gone op b (renamedAll (g.results op) values) placed l₁ l₂ := by
  rw [← h.results] at hlength hdisjoint
  obtain ⟨g'', run, hc, hop, hvalues, hblocks, hregions, hsize⟩ :=
    forwardResults_total h.consistent hlength hdisjoint
  rw [h.results] at hop
  have hid : ∀ o, readBy gone id o = id := fun o => by
    funext w
    exact ite_self _
  refine ⟨g'', run, hc, fun o => ?_, hsize.trans h.opsSize, hvalues.trans h.values, fun c => ?_,
    by rw [hblocks, h.blocksSize], hregions.trans h.regions⟩
  · rw [hop, h.record]
    simp only [hid]
    split
    · exact congrArg (fun l => ({ g.op o with operands := l, block := some b } : Operation))
        (congrArg (List.mapIdx _) ((mapIdx_const ..).trans (List.map_id _)))
    · exact ((g.op o).mapReads_mapReads _ _)
  · rw [Graph.block, block?, hblocks]
    exact h.block c

end Prepared

/-! ## The whole splice -/

/-- What a rule wants put in place of an operation stands where it stood, in order, and the values
that stand for its results are read in place of them. -/
theorem splice_substitutes (edits : Edits) (hc : Consistent g gone)
    (hb : g.opsIn b = l₁ ++ op :: l₂)
    (free : ∀ n ∈ edits.newOps, g.HasOp n ∧ g.blockOf? n = none) (nodup : edits.newOps.Nodup)
    (hends : edits.ending ≠ .keep)
    (hlength : (g.results op).length = (edits.standIns g).length)
    (hdisjoint : ∀ w ∈ edits.standIns g, w ∉ g.results op) :
    ∃ g', g.splice op edits = .ok g' ∧ Substituted g g' gone op b
      (renamedAll (g.results op) (edits.standIns g)) edits.newOps l₁ l₂ := by
  have hblock : g.blockOf? op = some b := (hc.places op b).mp (by simp [hb])
  have hop : op ∉ edits.newOps := by
    intro h
    rw [(free op h).2] at hblock
    cases hblock
  have unread := renamedAll_not_mem (hc.nodup_results op) hlength hdisjoint
  obtain ⟨inserted, ending⟩ := edits
  unfold splice
  simp only [hblock]
  -- Both endings retire the operation; a replacement is inserted before that.
  cases ending with
  | keep => exact absurd rfl hends
  | replace new =>
    obtain ⟨g₁, h₁, hp₁⟩ := (Prepared.start hc hb).insert inserted
      (fun n hn => free n (List.mem_append_left _ hn)) (List.nodup_append.mp nodup).1
    obtain ⟨g₂, h₂, hp₂⟩ := hp₁.forward hlength hdisjoint
    obtain ⟨g₃, h₃, hp₃⟩ := hp₂.insert [new]
      (fun n hn => free n (List.mem_append_right _ hn)) nodup
    obtain ⟨g', h', hs⟩ := hp₃.retire hop hblock unread
    refine ⟨g', bind_eq_ok.mpr ⟨g₁, h₁, bind_eq_ok.mpr ⟨g₂, ?_, bind_eq_ok.mpr ⟨g₃, h₃, h'⟩⟩⟩, hs⟩
    rw [hp₁.results]
    exact h₂
  | forward values =>
    obtain ⟨g₁, h₁, hp₁⟩ := (Prepared.start hc hb).insert inserted
      (fun n hn => free n (List.mem_append_left _ hn)) (List.nodup_append.mp nodup).1
    obtain ⟨g₂, h₂, hp₂⟩ := hp₁.forward hlength hdisjoint
    obtain ⟨g', h', hs⟩ := hp₂.retire (by simpa [Edits.newOps] using hop) hblock unread
    refine ⟨g', bind_eq_ok.mpr ⟨g₁, h₁, bind_eq_ok.mpr ⟨g₂, h₂, h'⟩⟩, ?_⟩
    simpa [Edits.newOps] using hs

end Graph

end SimdLowering
