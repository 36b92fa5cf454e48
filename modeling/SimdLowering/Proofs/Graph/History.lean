/-
Histories: what a graph can become.

A history is a list of edits, carried out one after the other on the empty graph. All
that is known of a graph that somebody built is that it has a history, so this is the
form in which the other files assume a graph to be given. A history also says which
operations have been removed, and an operation may even be put back into a block after
that: the tables do not mind, since an operation that is off the chains stays off them.
-/
import SimdLowering.Proofs.Graph.Preservation
import SimdLowering.Instr.Generic

set_option autoImplicit false

namespace SimdLowering

/-- One change to a graph. -/
inductive Edit where
  | createBlock (types : List Ty)
  | createRegion (blocks : List BlockId)
  | createOp (draft : Draft ValueId)
  | append (b : BlockId) (op : OpId)
  | insertBefore (b : BlockId) (before op : OpId)
  | detach (b : BlockId) (op : OpId)
  | removeOp (op : OpId)
  | replaceUses (old new : ValueId)

namespace Edit

/-- Carry an edit out. -/
def apply (g : Graph) : Edit → Except Fault Graph
  | createBlock types => .ok (g.createBlock types).1
  | createRegion blocks => Prod.fst <$> g.createRegion blocks
  | createOp draft => Prod.fst <$> g.createOp draft
  | append b op => g.append b op
  | insertBefore b before op => g.insertBefore b before op
  | detach b op => g.detach b op
  | removeOp op => g.removeOp op
  | replaceUses old new => g.replaceUses old new

/-- The operation an edit removes, if it is a removal. -/
def removed : Edit → List OpId
  | removeOp op => [op]
  | _ => []

theorem eq_removeOp_of_mem {e : Edit} {o : OpId} (h : o ∈ e.removed) : e = .removeOp o := by
  cases e with
  | removeOp op => rw [List.mem_singleton.mp h]
  | _ => cases h

/-- The operation an edit puts into a block, if it does. -/
def placed : Edit → List OpId
  | append _ op => [op]
  | insertBefore _ _ op => [op]
  | _ => []

/-- The values an edit puts into operand slots. -/
def reads : Edit → List ValueId
  | createOp draft => draft.operands
  | replaceUses _ new => [new]
  | _ => []

/-- Carry an edit out and note what it removes. -/
def step (s : Graph × List OpId) (e : Edit) : Except Fault (Graph × List OpId) := do
  return (← e.apply s.1, e.removed ++ s.2)

/-- Carry edits out on the empty graph. Gives the graph and the operations that have
been removed. -/
def replay (edits : List Edit) : Except Fault (Graph × List OpId) :=
  edits.foldlM step (.empty, [])

/-- Carry an edit out as `step` does, but only if every value that it puts into an operand slot
exists. -/
def stepKnown (s : Graph × List OpId) (e : Edit) : Except Fault (Graph × List OpId) :=
  if ∀ v ∈ e.reads, s.1.HasValue v then step s e else .error .broken

/-- Carry edits out on the empty graph, none of which makes an operation read a value that is
still to come. -/
def replayKnown (edits : List Edit) : Except Fault (Graph × List OpId) :=
  edits.foldlM stepKnown (.empty, [])

/-- What has been removed is not put into a block again. -/
def RemovesForGood (edits : List Edit) : Prop :=
  edits.Pairwise fun e e' => ∀ op ∈ e.removed, op ∉ e'.placed

instance (edits : List Edit) : Decidable (RemovesForGood edits) :=
  inferInstanceAs (Decidable (edits.Pairwise _))

/-- What an edit has changed at most: values stay, an operation reads what it read or what the
edit has put into a slot, and lies where it lay unless the edit has placed it. -/
structure ChangesAtMost (e : Edit) (g g' : Graph) : Prop where
  values : ∀ v, g.HasValue v → g'.HasValue v
  operands : ∀ o, ∀ v ∈ g'.operands o, v ∈ g.operands o ∨ v ∈ e.reads
  blockOf? : ∀ o b, g'.blockOf? o = some b → g.blockOf? o = some b ∨ o ∈ e.placed

end Edit

namespace Graph

variable {g g' : Graph} {gone : List OpId}

/-- One edit of any sort keeps the tables in agreement. -/
theorem Consistent.apply (h : Consistent g gone) {e : Edit} (he : e.apply g = .ok g') :
    Consistent g' (e.removed ++ gone) := by
  cases e with
  | createBlock types =>
    obtain rfl := Except.ok.inj he
    exact h.createBlock types
  | createRegion blocks =>
    obtain ⟨⟨g₁, r⟩, h₁, rfl⟩ := map_eq_ok.mp he
    exact h.createRegion h₁
  | createOp draft =>
    obtain ⟨⟨g₁, op⟩, h₁, rfl⟩ := map_eq_ok.mp he
    exact h.createOp h₁
  | append b op => exact h.append he
  | insertBefore b before op => exact h.insertBefore he
  | detach b op => exact h.detach he
  | removeOp op => exact h.removeOp he
  | replaceUses old new => exact h.replaceUses he

/-- The tables of every graph that has a history agree. -/
theorem consistent_of_replay {edits : List Edit} (h : Edit.replay edits = .ok (g, gone)) :
    Consistent g gone := by
  refine foldlM_invariant (f := Edit.step) (fun _ (s : Graph × List OpId) => Consistent s.1 s.2)
    ?_ consistent_empty h
  intro e _ s s' hs hstep
  obtain ⟨g₁, h₁, h₂⟩ := bind_eq_ok.mp hstep
  obtain rfl := Except.ok.inj h₂
  exact hs.apply h₁

/-! ## What histories leave alone -/

theorem hasValue_of_values (h : g'.values = g.values) : ∀ v, g.HasValue v → g'.HasValue v := by
  intro v hv
  rw [HasValue, h]
  exact hv

/-- Edits that lose no value and leave the records of operations alone. -/
theorem changesAtMost_of_ops {e : Edit} (values : ∀ v, g.HasValue v → g'.HasValue v)
    (hops : g'.ops = g.ops) : e.ChangesAtMost g g' := by
  have hop : ∀ o, g'.op o = g.op o := by
    intro o
    rw [op, op, op?, op?, hops]
  refine ⟨values, fun o v hv => ?_, fun o b hb => ?_⟩
  · rw [operands, hop] at hv
    exact Or.inl hv
  · rw [blockOf?, hop] at hb
    exact Or.inl hb

theorem createOp_changesAtMost {draft : Draft ValueId} {o : OpId}
    (h : g.createOp draft = .ok (g', o)) : (Edit.createOp draft).ChangesAtMost g g' := by
  obtain ⟨-, -, -, -, hops, hvalues, -⟩ := createOp_effect h
  have hop : ∀ o, g'.op o = if o = g.nextOp then g.newOperation draft else g.op o := by
    intro o
    rw [← op_addOp, Graph.op, Graph.op, op?, op?, hops]
  refine ⟨fun v hv => ?_, fun o v hv => ?_, fun o b hb => ?_⟩
  -- Old values are looked up as before, and only the new operation reads anything new.
  · rw [← value?_isSome_iff, value?, hvalues]
    have hold := value?_addOp (g := g) draft v
    rw [if_pos hv, value?_eq_some hv, value?] at hold
    rw [hold]
    rfl
  · rw [operands, hop] at hv
    split at hv
    · exact Or.inr hv
    · exact Or.inl hv
  · rw [blockOf?, hop] at hb
    split at hb
    · cases hb
    · exact Or.inl hb

theorem Placed.changesAtMost {b : BlockId} {op : OpId} {f : List OpId → List OpId} {e : Edit}
    (h : Placed g g' b op f) (he : op ∈ e.placed) : e.ChangesAtMost g g' := by
  refine ⟨hasValue_of_values h.values, fun o v hv => ?_, fun o c hc => ?_⟩
  · rw [operands, h.op] at hv
    left
    split at hv <;> exact hv
  · by_cases heq : op = o
    · right
      exact heq ▸ he
    · left
      rwa [blockOf?, h.op, if_neg heq] at hc

theorem detach_changesAtMost {b : BlockId} {op : OpId} (h : g.detach b op = .ok g') :
    (Edit.detach b op).ChangesAtMost g g' := by
  obtain ⟨-, -, hop, -, -, hvalues, -⟩ := detach_effect h
  refine ⟨hasValue_of_values hvalues, fun o v hv => ?_, fun o c hc => ?_⟩
  · rw [operands, hop] at hv
    left
    split at hv <;> exact hv
  · rw [blockOf?, hop] at hc
    left
    split at hc
    · cases hc
    · exact hc

theorem ReadsAgree.replaceUses_changesAtMost (h : ReadsAgree g gone) {old new : ValueId}
    (hr : g.replaceUses old new = .ok g') : (Edit.replaceUses old new).ChangesAtMost g g' := by
  obtain ⟨g₁, hrun, hop, -, hvalues, -⟩ := h.replaceUses_total old new
  obtain rfl : g₁ = g' := Except.ok.inj (hrun.symm.trans hr)
  refine ⟨hasValue_of_values hvalues, fun o v hv => ?_, fun o b hb => ?_⟩
  · rw [operands, hop, Operation.mapReads, mapIdx_const] at hv
    obtain ⟨w, hw, rfl⟩ := List.mem_map.mp hv
    split
    · exact Or.inl hw
    · rw [renamed]
      split
      · exact Or.inr (List.mem_singleton_self new)
      · exact Or.inl hw
  · rw [blockOf?, hop] at hb
    exact Or.inl hb

/-- One edit of any sort changes no more than it says. -/
theorem Consistent.changesAtMost (h : Consistent g gone) {e : Edit} (he : e.apply g = .ok g') :
    e.ChangesAtMost g g' := by
  cases e with
  | createBlock types =>
    obtain rfl := Except.ok.inj he
    refine changesAtMost_of_ops (fun v hv => ?_) rfl
    simp only [HasValue, Graph.createBlock, addValues, Array.size_append] at hv ⊢
    omega
  | createRegion blocks =>
    obtain ⟨⟨g₁, r⟩, h₁, rfl⟩ := map_eq_ok.mp he
    obtain ⟨-, -, -, -, -, hops, hvalues, -⟩ := createRegion_effect h₁
    exact changesAtMost_of_ops (hasValue_of_values hvalues) hops
  | createOp draft =>
    obtain ⟨⟨g₁, op⟩, h₁, rfl⟩ := map_eq_ok.mp he
    exact createOp_changesAtMost h₁
  | append b op => exact (append_effect he).changesAtMost (List.mem_singleton_self op)
  | insertBefore b before op =>
    exact (insertBefore_effect he).changesAtMost (List.mem_singleton_self op)
  | detach b op => exact detach_changesAtMost he
  | removeOp op =>
    obtain ⟨-, -, -, rfl⟩ := removeOp_eq_ok.mp he
    obtain ⟨hops, hvalues, -, -⟩ := dropUses_arenas (g := g) op (g.operands op)
    exact changesAtMost_of_ops (hasValue_of_values hvalues) hops
  | replaceUses old new => exact h.toReadsAgree.replaceUses_changesAtMost he

/-- Where every operation was created, and every substitution made, with values that existed,
operands name values that exist. -/
theorem hasValue_of_replayKnown {edits : List Edit} (h : Edit.replayKnown edits = .ok (g, gone)) :
    ∀ o, ∀ v ∈ g.operands o, g.HasValue v := by
  refine (foldlM_invariant (f := Edit.stepKnown) (fun _ (s : Graph × List OpId) =>
    Consistent s.1 s.2 ∧ ∀ o, ∀ v ∈ s.1.operands o, s.1.HasValue v) ?_
    ⟨consistent_empty, fun o v hv => ?_⟩ h).2
  · rintro e _ ⟨g₀, gone₀⟩ s' ⟨hc, hknown⟩ hstep
    rw [Edit.stepKnown] at hstep
    split at hstep
    · next hreads =>
      obtain ⟨g₁, h₁, h₂⟩ := bind_eq_ok.mp hstep
      obtain rfl := Except.ok.inj h₂
      have hchange := hc.changesAtMost h₁
      refine ⟨hc.apply h₁, fun o v hv => hchange.values v ?_⟩
      rcases hchange.operands o v hv with hv | hv
      · exact hknown o v hv
      · exact hreads v hv
    · cases hstep
  · cases hasOp_of_mem_operands hv

/-- What has been removed for good lies in no block. -/
theorem blockOf?_of_replay {edits : List Edit} (h : Edit.replay edits = .ok (g, gone))
    (once : Edit.RemovesForGood edits) : ∀ o ∈ gone, g.blockOf? o = none := by
  -- What is gone lies nowhere, and nothing that is still to be carried out places it.
  have hall := foldlM_invariant (f := Edit.step) (fun rest (s : Graph × List OpId) =>
    Consistent s.1 s.2 ∧ Edit.RemovesForGood rest ∧
      ∀ o ∈ s.2, s.1.blockOf? o = none ∧ ∀ e ∈ rest, o ∉ e.placed)
    ?_ ⟨consistent_empty, once, fun _ ho => absurd ho List.not_mem_nil⟩ h
  · exact fun o ho => (hall.2.2 o ho).1
  · rintro e rest ⟨g₀, gone₀⟩ s' ⟨hc, hrest, hgone⟩ hstep
    obtain ⟨g₁, h₁, h₂⟩ := bind_eq_ok.mp hstep
    obtain rfl := Except.ok.inj h₂
    obtain ⟨hlater, hrest⟩ := List.pairwise_cons.mp hrest
    have stays : ∀ o, g₀.blockOf? o = none → o ∉ e.placed → g₁.blockOf? o = none := by
      intro o hnone hplaced
      rw [Option.eq_none_iff_forall_ne_some]
      intro b hb
      rcases (hc.changesAtMost h₁).blockOf? o b hb with hb | hb
      · rw [hnone] at hb
        cases hb
      · exact hplaced hb
    refine ⟨hc.apply h₁, hrest, fun o ho => ?_⟩
    rcases List.mem_append.mp ho with ho | ho
    · obtain rfl := Edit.eq_removeOp_of_mem ho
      have hfree := (removeOp_eq_ok.mp h₁).2.1
      exact ⟨stays o hfree List.not_mem_nil, fun e' he' => hlater e' he' o ho⟩
    · obtain ⟨hnone, hplaced⟩ := hgone o ho
      exact ⟨stays o hnone (hplaced e (List.mem_cons_self ..)),
        fun e' he' => hplaced e' (List.mem_cons_of_mem _ he')⟩

/-! ## The agreement, counted -/

theorem count_of_nodup {α : Type} [DecidableEq α] {l : List α} {x : α} {p : Prop} [Decidable p]
    (nodup : l.Nodup) (h : x ∈ l ↔ p) : l.count x = if p then 1 else 0 := by
  split
  · next hp => exact List.count_eq_one_of_mem nodup (h.mpr hp)
  · next hp => exact List.count_eq_zero_of_not_mem fun hx => hp (h.mp hx)

/-- In every graph that has a history:

* an operand slot of an operation that has not been removed is once on the chain of its
  value and on no other chain, and chains hold nothing else;
* an operation is listed once in the block it lies in and nowhere else, and likewise a
  block in its region and a region by its owner;
* a value listed among the results of an operation has this operation and this position
  as its origin, so that results in different places are different values. -/
theorem tables_agree_of_replay {edits : List Edit} (h : Edit.replay edits = .ok (g, gone)) :
    (∀ (op : OpId) (i : Nat) (v w : ValueId), op ∉ gone → (g.operands op)[i]? = some v →
      (g.uses w).count ⟨op, i⟩ = if w = v then 1 else 0) ∧
    (∀ (v : ValueId) (u : Use), u ∈ g.uses v →
      u.user ∉ gone ∧ (g.operands u.user)[u.slot]? = some v) ∧
    (∀ (op : OpId) (b : BlockId),
      (g.opsIn b).count op = if g.blockOf? op = some b then 1 else 0) ∧
    (∀ (b : BlockId) (r : RegionId),
      (g.blocksIn r).count b = if g.regionOf? b = some r then 1 else 0) ∧
    (∀ (r : RegionId) (op : OpId),
      (g.regionsOf op).count r = if g.ownerOf? r = some op then 1 else 0) ∧
    (∀ (op : OpId) (i : Nat) (v : ValueId), (g.results op)[i]? = some v →
      ∃ x, g.value? v = some x ∧ x.origin = .result op i) ∧
    ∀ (op op' : OpId) (i j : Nat) (v : ValueId), (g.results op)[i]? = some v →
      (g.results op')[j]? = some v → op = op' ∧ i = j := by
  have hc := consistent_of_replay h
  refine ⟨fun op i v w hop hv => ?_, fun v u hu => (hc.reads v u).mp hu, fun op b => ?_,
    fun b r => ?_, fun r op => ?_, fun op i v hv => ?_, fun op op' i j v hi hj => ?_⟩
  -- Tables without repetition that agree with the lists count each entry once.
  · refine count_of_nodup (hc.readOnce w) ?_
    rw [hc.reads]
    simp [hop, hv, eq_comm]
  · exact count_of_nodup (hc.placedOnce b) (hc.places op b)
  · exact count_of_nodup (hc.enclosedOnce r) (hc.encloses b r)
  · exact count_of_nodup (hc.ownedOnce op) (hc.owns r op)
  · exact Option.map_eq_some_iff.mp ((hc.defines op i v).mp hv)
  · exact hc.result_unique hi hj

/-- The history of a return that reads one argument twice, is placed, reads another value instead,
and is taken out and removed again, and of one that stays. -/
def returnHistory : List Edit :=
  [.createBlock [.i 32, .i 32], .createOp (Instr.ret [⟨0⟩, ⟨0⟩]), .append ⟨0⟩ ⟨0⟩,
    .replaceUses ⟨0⟩ ⟨1⟩, .detach ⟨0⟩ ⟨0⟩, .removeOp ⟨0⟩, .createOp (Instr.ret [⟨1⟩]),
    .append ⟨0⟩ ⟨1⟩, .createRegion [⟨0⟩], .createOp (Instr.func "second" ⟨0⟩)]

/-- The return that has been removed still lists its operands and is on no chain. -/
theorem tables_agree_of_replay_return : ∃ g, Edit.replay returnHistory = .ok (g, [⟨0⟩]) ∧
    g.operands ⟨0⟩ = [⟨1⟩, ⟨1⟩] ∧ g.uses ⟨1⟩ = [⟨⟨1⟩, 0⟩] ∧
    (∀ (op : OpId) (i : Nat) (v w : ValueId), op ∉ [(⟨0⟩ : OpId)] → (g.operands op)[i]? = some v →
      (g.uses w).count ⟨op, i⟩ = if w = v then 1 else 0) ∧
    (∀ (v : ValueId) (u : Use), u ∈ g.uses v →
      u.user ∉ [(⟨0⟩ : OpId)] ∧ (g.operands u.user)[u.slot]? = some v) ∧
    (∀ (op : OpId) (b : BlockId),
      (g.opsIn b).count op = if g.blockOf? op = some b then 1 else 0) ∧
    (∀ (b : BlockId) (r : RegionId),
      (g.blocksIn r).count b = if g.regionOf? b = some r then 1 else 0) ∧
    (∀ (r : RegionId) (op : OpId),
      (g.regionsOf op).count r = if g.ownerOf? r = some op then 1 else 0) ∧
    (∀ (op : OpId) (i : Nat) (v : ValueId), (g.results op)[i]? = some v →
      ∃ x, g.value? v = some x ∧ x.origin = .result op i) ∧
    ∀ (op op' : OpId) (i j : Nat) (v : ValueId), (g.results op)[i]? = some v →
      (g.results op')[j]? = some v → op = op' ∧ i = j :=
  ⟨_, rfl, rfl, rfl, tables_agree_of_replay (show Edit.replay returnHistory = .ok _ from rfl)⟩

end Graph

end SimdLowering
