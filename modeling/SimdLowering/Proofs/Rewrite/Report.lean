/-
What an application reports, for any rules that record what they change.

A rule is asked for no more than this: if it does not match, or matches with nothing to do, it
leaves the graph as it was, and if it does match, it adds to the graph and touches nothing that
was there. Then the graph at the end comes from the graph at the start by splices alone, and the
number of changes reported is the number of splices.

A splice takes one operation out of its block and puts others in. It never takes out one that
has been refused, because a refused operation is not tried again; so an operation that was
refused is reported once and stands at the end where it stood then. The block it stood in may
itself have come off: what matters is that the operation and its block still agree.
-/
import SimdLowering.Proofs.Rewrite.Lawful
import SimdLowering.Proofs.Rewrite.Visits

set_option autoImplicit false

namespace SimdLowering

open SimdLowering.Graph

/-! ## Rules that record what they change -/

namespace Graph

variable {g g₁ g' : Graph} {o op new : OpId} {b c : BlockId} {news : List OpId} {edits : Edits}

/-- A block lists exactly the operations that lie in it. -/
def Places (g : Graph) : Prop := ∀ o b, o ∈ g.opsIn b ↔ g.blockOf? o = some b

/-- Whatever is inside of a root lies in some block. -/
theorem Places.blockOf?_of_inside {root : OpId} (h : g.Places) (hin : g.Inside root o) :
    ∃ b, g.blockOf? o = some b := by
  obtain ⟨b, -, hmem⟩ := hin
  exact ⟨b, (h o b).mp hmem⟩

/-- Operations that were there are as they were, blocks that were there list what they listed,
and what the blocks list still lies in them. -/
structure Untouched (g g' : Graph) : Prop where
  sizes : g.ops.size ≤ g'.ops.size ∧ g.blocks.size ≤ g'.blocks.size
  op : ∀ o, g.HasOp o → g'.op o = g.op o
  opsIn : ∀ b, g.HasBlock b → g'.opsIn b = g.opsIn b
  places : g.Places → g'.Places

/-- A graph touches nothing of itself. -/
theorem Untouched.refl (g : Graph) : g.Untouched g :=
  ⟨⟨Nat.le_refl _, Nat.le_refl _⟩, fun _ _ => rfl, fun _ _ => rfl, id⟩

/-- What neither of two steps touches is not touched. -/
theorem Untouched.trans (h₁ : g.Untouched g₁) (h₂ : g₁.Untouched g') : g.Untouched g' := by
  refine ⟨⟨Nat.le_trans h₁.sizes.1 h₂.sizes.1, Nat.le_trans h₁.sizes.2 h₂.sizes.2⟩,
    fun o ho => ?_, fun b hb => ?_, fun hp => h₂.places (h₁.places hp)⟩
  · rw [h₂.op o (Nat.lt_of_lt_of_le ho h₁.sizes.1), h₁.op o ho]
  · rw [h₂.opsIn b (Nat.lt_of_lt_of_le hb h₁.sizes.2), h₁.opsIn b hb]

/-- Creating an operation touches nothing that was there. -/
theorem untouched_addOp (g : Graph) (d : Draft ValueId) : g.Untouched (g.addOp d).1 := by
  have hop : ∀ o, g.HasOp o → (g.addOp d).1.op o = g.op o := by
    intro o ho
    rw [op_addOp, if_neg]
    rintro rfl
    exact g.not_hasOp_nextOp ho
  have hlist : ∀ b, (g.addOp d).1.opsIn b = g.opsIn b := by
    intro b
    rw [opsIn, opsIn, Graph.block, Graph.block, block?, block?, blocks_addOp]
  have hsize : g.ops.size ≤ (g.addOp d).1.ops.size :=
    Nat.le_of_lt ((hasOp_addOp (o := g.nextOp) d).mpr (Or.inr rfl))
  refine ⟨⟨hsize, by rw [blocks_addOp]⟩, hop, fun b _ => hlist b, fun h o b => ?_⟩
  rw [hlist, h o b]
  by_cases ho : g.HasOp o
  · rw [blockOf?, blockOf?, hop o ho]
  · -- What was not there lay nowhere, and neither does what is new.
    rw [blockOf?, blockOf?, op_eq_default ho, op_addOp]
    split
    · rfl
    · rw [op_eq_default ho]

end Graph

/-- At the operation the rule changes the graph only if it matches and has something to do, and
then it touches nothing that was there. -/
structure Rule.RecordsAt (rule : Rule) (g : Graph) (op : OpId) : Prop where
  still : ∀ {c g' c' outcome}, rule.run g op c = .ok (g', c', outcome) →
    (∀ edits, outcome = .matched edits → edits.isEmpty = true) → g' = g
  untouched : ∀ {c g' c' edits}, rule.run g op c = .ok (g', c', .matched edits) →
    edits.isEmpty = false → g.Untouched g'

namespace Application

variable {rules : RuleSet} {target : ConversionTarget} {op : OpId} {l : List Rule}
  {s s' : Application}

/-- A rule that records and passes has changed nothing. -/
theorem still_of_passes {rule : Rule} {g : Graph} {c : AccessSizes} {outcome : Outcome}
    (h : rule.RecordsAt s.graph op) (hrun : rule.run s.graph op s.sizes = .ok (g, c, outcome))
    (hpass : outcome.Passes) : g = s.graph := by
  apply h.still hrun
  rintro edits rfl
  exact hpass

/-- What trying rules that record comes to: nothing but questions about sizes, a refusal, or a
match put in place. -/
inductive Result (op : OpId) (l : List Rule) (s : Application) : Application → Prop
  | kept {c : AccessSizes} : Result op l s { s with sizes := c }
  | refused {rule : Rule} {c c' : AccessSizes} {reason : String} : rule ∈ l →
      rule.run s.graph op c = .ok (s.graph, c', .refused reason) →
      Result op l s { s with
        sizes := c', rejected := s.rejected ++ [⟨op, s.graph.kind op, rule.name, reason⟩] }
  | rewritten {rule : Rule} {c c' : AccessSizes} {g g' : Graph} {edits : Edits}
    {c'' : AccessSizes} :
      rule ∈ l → rule.run s.graph op c = .ok (g, c', .matched edits) → edits.isEmpty = false →
      s.graph.Untouched g → g.splice op edits = .ok g' →
      Result op l s { s with graph := g', sizes := c'', changes := s.changes + 1 }

/-- Trying rules that record has one of the listed results. -/
theorem Trial.result (h : Trial op l s s') (hl : ∀ rule ∈ l, rule.RecordsAt s.graph op) :
    Result op l s s' := by
  induction h with
  | exhausted => exact .kept
  | @passed rule l s s' g c outcome hrun hpass _ ih =>
    -- Whatever the rule did while it was looking, the next one finds the same graph.
    obtain rfl := still_of_passes (hl rule (List.mem_cons_self ..)) hrun hpass
    cases ih fun r hr => hl r (List.mem_cons_of_mem _ hr) with
    | kept => exact .kept
    | refused hmem hrun => exact .refused (List.mem_cons_of_mem _ hmem) hrun
    | rewritten hmem hrun hsome hg hsplice =>
      exact .rewritten (List.mem_cons_of_mem _ hmem) hrun hsome hg hsplice
  | @refused rule l s g c reason hrun =>
    have hmem := List.mem_cons_self (a := rule) (l := l)
    obtain rfl := (hl rule hmem).still hrun fun edits h => nomatch h
    exact .refused hmem hrun
  | @rewritten rule l s s' g c edits hrun hsome hcommit =>
    have hmem := List.mem_cons_self (a := rule) (l := l)
    obtain ⟨touched, -, hcommit⟩ := bind_eq_ok.mp hcommit
    obtain ⟨g', hsplice, hcommit⟩ := bind_eq_ok.mp hcommit
    cases hcommit
    exact .rewritten hmem hrun hsome ((hl rule hmem).untouched hrun hsome) hsplice

end Application

/-! ## A splice leaves the others in place -/

namespace Graph

variable {g g₁ g₂ g' : Graph} {o op new : OpId} {b c : BlockId} {news : List OpId} {edits : Edits}
  {block : Option BlockId}

/-- Blocks and pointers still agree if they did, and nothing but the operation has left its
block. -/
structure MovesAtMost (op : OpId) (g g' : Graph) : Prop where
  places : g.Places → g'.Places
  stays : ∀ o b, o ≠ op → g.blockOf? o = some b → g'.blockOf? o = some b

namespace MovesAtMost

theorem refl (op : OpId) (g : Graph) : MovesAtMost op g g := ⟨id, fun _ _ _ h => h⟩

/-- Two steps that move one operation move only that. -/
theorem trans (h₁ : MovesAtMost op g g₁) (h₂ : MovesAtMost op g₁ g₂) : MovesAtMost op g g₂ :=
  ⟨fun h => h₂.places (h₁.places h), fun o b hne h => h₂.stays o b hne (h₁.stays o b hne h)⟩

/-- What changes neither lists nor blocks moves nothing. -/
theorem of_eq (hlist : ∀ b, g'.opsIn b = g.opsIn b) (hblock : ∀ o, g'.blockOf? o = g.blockOf? o) :
    MovesAtMost op g g' := by
  refine ⟨fun h o b => ?_, fun o b _ h => ?_⟩
  · rw [hlist, hblock]
    exact h o b
  · rw [hblock]
    exact h

/-- Putting a new operation before it does not move it. -/
theorem insertBefore (h : g.insertBefore b op new = .ok g') : MovesAtMost op g g' := by
  obtain ⟨-, -, -, hmem, -⟩ := insertBefore_eq_ok.mp h
  have hp := insertBefore_effect h
  have hblock : ∀ o, g'.blockOf? o = if new = o then some b else g.blockOf? o := by
    intro o
    rw [blockOf?, hp.op]
    split <;> rfl
  have hlist : ∀ c, g'.opsIn c = if b = c then insertBeforeIn op new
    (g.opsIn c) else g.opsIn c := by
    intro c
    rw [opsIn, hp.block]
    split <;> rfl
  refine ⟨fun hplaces o c => ?_, fun o c _ ho => ?_⟩
  · rw [hlist, hblock]
    by_cases hc : b = c
    · subst hc
      rw [if_pos rfl, mem_insertBeforeIn hmem, hplaces o b]
      by_cases ho : new = o
      · simp [ho]
      · simp [ho, Ne.symm ho]
    · rw [if_neg hc, hplaces o c]
      by_cases ho : new = o
      · subst ho
        simp [hp.free, hc]
      · simp [ho]
  · -- What is put in lay nowhere.
    rw [hblock, if_neg, ho]
    rintro rfl
    rw [hp.free] at ho
    cases ho

/-- Taking it out moves it, and nothing else. -/
theorem detach (h : g.detach b op = .ok g') : MovesAtMost op g g' := by
  obtain ⟨-, -, hop, hb, -⟩ := detach_effect h
  have hblock : ∀ o, g'.blockOf? o =
      if op = o ∧ g.blockOf? o = some b then none else g.blockOf? o := by
    intro o
    rw [blockOf?, hop]
    split <;> rfl
  have hlist : ∀ c, g'.opsIn c =
      if b = c then (g.opsIn c).filter (fun o => o != op) else g.opsIn c := by
    intro c
    rw [opsIn, hb]
    split <;> rfl
  -- Lists and blocks agree after it as before, and nobody else moves.
  refine ⟨fun hplaces o c => ?_, fun o c hne ho => ?_⟩
  · rw [hlist, hblock]
    have := hplaces o c
    by_cases hc : b = c
    · subst hc
      by_cases ho : op = o
      · subst ho
        simp
      · simp [ho, Ne.symm ho, this]
    · by_cases ho : op = o
      · subst ho
        simp only [if_neg hc, this, true_and]
        split
        · next hin => simp [hin, hc]
        · rfl
      · simp [hc, ho, this]
  · rw [hblock, if_neg (fun h => hne h.1.symm), ho]

/-- Reading something else is not moving. -/
theorem replaceUses {old new : ValueId} (h : g.replaceUses old new = .ok g') :
    MovesAtMost op g g' := by
  unfold Graph.replaceUses at h
  split at h
  · cases h
    exact .refl op g
  · -- Redirecting a reading changes an operand and a chain.
    refine .of_eq (fun b => ?_) (fun o => ?_)
    · exact foldlM_invariant (fun _ t => t.opsIn b = g.opsIn b) (fun u us t t' ht h => by
        unfold redirectUse at h
        split at h
        · cases h
          exact ht
        · cases h) rfl h
    · exact foldlM_invariant (fun _ t => t.blockOf? o = g.blockOf? o) (fun u us t t' ht h => by
        unfold redirectUse at h
        split at h
        · cases h
          rw [← ht]
          change (Graph.op _ o).block = (Graph.op _ o).block
          rw [Graph.op, Graph.op]
          change (((t.modifyOp u.user _).op? o).getD default).block = _
          rw [op?_modifyOp]
          split
          · cases t.op? o <;> rfl
          · rfl
        · cases h) rfl h

/-- Nor does it matter how many are put before it. -/
theorem insertAllBefore (h : g.insertAllBefore block op news = .ok g') : MovesAtMost op g g' := by
  cases block with
  | none =>
    cases h
    exact .refl op g
  | some b =>
    exact foldlM_invariant (fun _ t => MovesAtMost op g t)
      (fun _ _ _ _ ht h => ht.trans (.insertBefore h)) (.refl op g) h

/-- Or how many of its results are forwarded. -/
theorem forwardResults {values : List ValueId} (h : g.forwardResults op values = .ok g') :
    MovesAtMost op g g' := by
  unfold Graph.forwardResults at h
  split at h
  · exact foldlM_invariant (fun _ t => MovesAtMost op g t)
      (fun _ _ _ _ ht h => ht.trans (.replaceUses h)) (.refl op g) h
  · cases h

/-- In the end it is gone, and the others lie where they lay. -/
theorem retire (h : g.retire block op = .ok g') : MovesAtMost op g g' := by
  obtain ⟨t, hmoved, h⟩ : ∃ t, MovesAtMost op g t ∧ t.removeOp op = .ok g' := by
    cases block with
    | none => exact ⟨g, .refl op g, h⟩
    | some b =>
      obtain ⟨t, ht, h⟩ := bind_eq_ok.mp h
      exact ⟨t, .detach ht, h⟩
  obtain ⟨-, -, -, rfl⟩ := removeOp_eq_ok.mp h
  obtain ⟨hops, -, hblocks, -⟩ := dropUses_arenas (g := t) op (t.operands op)
  refine hmoved.trans (.of_eq (fun b => ?_) fun o => ?_)
  · rw [opsIn, opsIn, Graph.block, Graph.block, block?, block?, hblocks]
  · rw [blockOf?, blockOf?, Graph.op, Graph.op, op?, op?, hops]

/-- A splice takes at most the operation it is made at out of its block. -/
theorem splice (h : g.splice op edits = .ok g') : MovesAtMost op g g' := by
  obtain ⟨g₁, h₁, h⟩ := bind_eq_ok.mp h
  have hm := insertAllBefore h₁
  split at h
  · cases h
    exact hm
  · obtain ⟨g₂, h₂, h⟩ := bind_eq_ok.mp h
    obtain ⟨g₃, h₃, h⟩ := bind_eq_ok.mp h
    exact ((hm.trans (forwardResults h₂)).trans (insertAllBefore h₃)).trans (retire h)
  · obtain ⟨g₂, h₂, h⟩ := bind_eq_ok.mp h
    exact (hm.trans (forwardResults h₂)).trans (retire h)

end MovesAtMost

end Graph

/-! ## Rewrites put in place, one after the other -/

/-- A match that has been put in place: where, what the rule wanted done, and the graph it handed
back. -/
structure Rewrite where
  op : OpId
  edits : Edits
  graph : Graph

namespace RuleSet

variable {rules : RuleSet} {g g₁ g₂ g' : Graph} {log log₁ log₂ : List Rewrite} {r : Rejection}

/-- Rules have matched at placed operations, one after the other, and each match has been put in
place. -/
inductive Rewritten (rules : RuleSet) (g : Graph) : List Rewrite → Graph → Prop
  | nothing : Rewritten rules g [] g
  | more {log : List Rewrite} {g₁ g₂ g₃ : Graph} {op : OpId} {b : BlockId} {e : RuleEntry}
      {c c' : AccessSizes} {edits : Edits} : Rewritten rules g log g₁ →
      g₁.blockOf? op = some b → e ∈ rules.forKind (g₁.kind op) →
      e.rule.run g₁ op c = .ok (g₂, c', .matched edits) → edits.isEmpty = false →
      g₂.splice op edits = .ok g₃ → Rewritten rules g (log ++ [⟨op, edits, g₂⟩]) g₃

/-- One log after the other is a log. -/
theorem Rewritten.trans (h₁ : rules.Rewritten g log₁ g₁) (h₂ : rules.Rewritten g₁ log₂ g₂) :
    rules.Rewritten g (log₁ ++ log₂) g₂ := by
  induction h₂ with
  | nothing =>
    rw [List.append_nil]
    exact h₁
  | more _ hb he hrun hsome hsplice ih =>
    rw [← List.append_assoc]
    exact .more ih hb he hrun hsome hsplice

/-- Wherever rewriting leads, the rules for a placed operation record what they change. -/
def Records (rules : RuleSet) (g : Graph) : Prop :=
  ∀ log g₁, rules.Rewritten g log g₁ → ∀ op b, g₁.blockOf? op = some b →
    ∀ e ∈ rules.forKind (g₁.kind op), e.rule.RecordsAt g₁ op

/-- Rules that record wherever they are tried do so wherever rewriting leads. -/
theorem records_of_forall (h : ∀ e ∈ rules.entries, ∀ g op, e.rule.RecordsAt g op) :
    rules.Records g :=
  fun _ g₁ _ op _ _ e he => h e (mem_forKind.mp he).1 g₁ op

/-- A rule for the operation refused it on the graph, for the reason that is given. -/
def RefusedAt (rules : RuleSet) (g : Graph) (r : Rejection) : Prop :=
  r.kind = g.kind r.op ∧ ∃ e ∈ rules.forKind r.kind, e.rule.name = r.rule ∧
    ∃ c c', e.rule.run g r.op c = .ok (g, c', .refused r.reason)

/-- Somewhere on the way the operation was refused, and it stands where it stood then. -/
def Refused (rules : RuleSet) (g : Graph) (log : List Rewrite) (g' : Graph) (r : Rejection) :
    Prop :=
  ∃ log₁ log₂ g₁ b, log = log₁ ++ log₂ ∧ rules.Rewritten g log₁ g₁ ∧ rules.Rewritten g₁ log₂ g' ∧
    rules.RefusedAt g₁ r ∧ g₁.blockOf? r.op = some b ∧ g'.blockOf? r.op = some b

/-- An operation that has been refused stays so if it stays where it is. -/
theorem Refused.more {op : OpId} {b : BlockId} {e : RuleEntry} {c c' : AccessSizes} {edits : Edits}
    (h : rules.Refused g log g₁ r) (hb : g₁.blockOf? op = some b)
    (he : e ∈ rules.forKind (g₁.kind op)) (hrun : e.rule.run g₁ op c = .ok (g₂, c', .matched edits))
    (hsome : edits.isEmpty = false) (hsplice : g₂.splice op edits = .ok g')
    (hstays : ∀ b, g₁.blockOf? r.op = some b → g'.blockOf? r.op = some b) :
    rules.Refused g (log ++ [⟨op, edits, g₂⟩]) g' r := by
  obtain ⟨log₁, log₂, g₀, b', rfl, h₁, h₂, hrefused, hb₀, hb₁⟩ := h
  exact ⟨log₁, log₂ ++ [⟨op, edits, g₂⟩], g₀, b', List.append_assoc .., h₁,
    .more h₂ hb he hrun hsome hsplice, hrefused, hb₀, hstays b' hb₁⟩

end RuleSet

/-! ## What is reported is so -/

namespace Application

variable {rules : RuleSet} {target : ConversionTarget} {root op : OpId} {g : Graph} {b : BlockId}
  {s s' : Application} {log : List Rewrite}

/-- What has not been refused is not in the report. -/
theorem not_rejected_iff : s.isRejected op = false ↔ ∀ r ∈ s.rejected, r.op ≠ op := by
  simp [isRejected]

/-- The state is what rewriting has led to, with as many changes as there are splices, and what
has been refused still stands where it stood. -/
structure Reports (rules : RuleSet) (g : Graph) (s : Application) : Prop where
  places : s.graph.Places
  run : ∃ log, rules.Rewritten g log s.graph ∧ log.length = s.changes ∧
    ∀ r ∈ s.rejected, rules.Refused g log s.graph r
  once : (s.rejected.map Rejection.op).Nodup

/-- At the start there is nothing to report. -/
theorem Reports.start (h : g.Places) (sizes : AccessSizes) : Reports rules g ⟨g, sizes, [], 0⟩ :=
  ⟨h, ⟨[], .nothing, rfl, fun _ hr => nomatch hr⟩, List.nodup_nil⟩

/-- Rules record what they change wherever rewriting has led to. -/
theorem Reports.records (h : Reports rules g s) (hrules : rules.Records g)
    (hb : s.graph.blockOf? op = some b) :
    ∀ rule ∈ (rules.forKind (s.graph.kind op)).map RuleEntry.rule, rule.RecordsAt s.graph op := by
  obtain ⟨log, hlog, -⟩ := h.run
  intro rule hrule
  obtain ⟨e, he, rfl⟩ := List.mem_map.mp hrule
  exact hrules log s.graph hlog op b hb e he

/-- A visit keeps the report true. -/
theorem Reports.visit (h : Reports rules g s) (hrules : rules.Records g)
    (hb : s.graph.blockOf? op = some b) (hv : s.visitOp rules target op = .ok s') :
    Reports rules g s' := by
  obtain ⟨verdict, c, -, ⟨-, rfl⟩ | ⟨hopen, htrial⟩⟩ := visitOp_cases hv
  · exact ⟨h.places, h.run, h.once⟩
  have hne := not_rejected_iff.mp hopen
  obtain ⟨log, hlog, hlength, hrefused⟩ := h.run
  cases htrial.result (h.records hrules hb) with
  | kept => exact ⟨h.places, h.run, h.once⟩
  | @refused rule c₁ c₂ reason hrule hrun =>
    obtain ⟨e, he, rfl⟩ := List.mem_map.mp hrule
    have hat : rules.RefusedAt s.graph ⟨op, s.graph.kind op, e.rule.name, reason⟩ :=
      ⟨rfl, e, he, rfl, c₁, c₂, hrun⟩
    refine ⟨h.places, ⟨log, hlog, hlength, fun r hr => ?_⟩, ?_⟩
    · rcases List.mem_append.mp hr with hr | hr
      · exact hrefused r hr
      · obtain rfl := List.mem_singleton.mp hr
        exact ⟨log, [], s.graph, b, (List.append_nil _).symm, hlog, .nothing, hat, hb, hb⟩
    · -- An operation is refused only if it has not been refused before.
      rw [List.map_append, List.nodup_append]
      refine ⟨h.once, List.nodup_singleton _, fun o ho p hp => ?_⟩
      obtain ⟨r, hr, rfl⟩ := List.mem_map.mp ho
      obtain rfl := List.mem_singleton.mp hp
      exact hne r hr
  | @rewritten rule c₁ c₂ g₂ g' edits c₃ hrule hrun hsome huntouched hsplice =>
    -- The operation has not been refused, so those that have been are others and stay in place.
    obtain ⟨e, he, rfl⟩ := List.mem_map.mp hrule
    have hmoves := MovesAtMost.splice hsplice
    refine ⟨hmoves.places (huntouched.places h.places),
      ⟨log ++ [⟨op, edits, g₂⟩], .more hlog hb he hrun hsome hsplice, by simp [hlength],
        fun r hr => (hrefused r hr).more hb he hrun hsome hsplice fun b' hb' => ?_⟩, h.once⟩
    apply hmoves.stays r.op b' (hne r hr)
    rw [blockOf?, huntouched.op r.op (hasOp_of_blockOf? hb')]
    exact hb'

/-- No more rounds are made than are allowed. -/
theorem rounds_le {left done : Nat} {x : Application × Nat × Bool}
    (h : rounds rules target root left done s = .ok x) : x.2.1 ≤ left + done := by
  induction left generalizing done s with
  | zero =>
    cases h
    simp
  | succ left ih =>
    obtain ⟨t, -, h⟩ := bind_eq_ok.mp h
    split at h
    · cases h
      dsimp only
      omega
    · have := ih h
      omega

end Application

end SimdLowering
