/-
Rewriting as substitution in place.

If all that rules want done is substitution, then so is all that is done in the end. A log of
rewrites says for any list of operations what has become of it: each operation that was rewritten
has given way to what was put in its place, and this again if it was rewritten in turn. It also
says for any value what it is called: each result by what came to stand for it. `Carries` says
that a graph has become another one in just this way, and that nothing else has happened.

One rewrite carries the graph the rule handed back to the next one, and runs of rewrites compose;
so everything holds of the log as a whole and of each of its ends. An operation that has been
rewritten lies nowhere from then on, and what is put in place is new, so that no operation is
rewritten twice and none comes back.
-/
import SimdLowering.Proofs.Rewrite.Fixpoint

set_option autoImplicit false

namespace SimdLowering

open SimdLowering.Graph

/-! ## What a log says -/

namespace Rewrite

variable {r : Rewrite} {log log₁ log₂ : List Rewrite} {o : OpId} {l l₁ l₂ : List OpId}
  {v : ValueId}

/-- A list of operations after the rewrite: what was put in place stands where the operation
stood, what goes before it first. -/
def inList (r : Rewrite) (l : List OpId) : List OpId :=
  l.flatMap fun o => if o = r.op then r.edits.newOps else [o]

/-- What a value is called after the rewrite: the i-th result of the operation by the i-th value
that stands in. -/
def rename (r : Rewrite) : ValueId → ValueId :=
  renamedAll (r.graph.results r.op) (r.edits.standIns r.graph)

/-- A list of operations after all rewrites. -/
def listed (log : List Rewrite) (l : List OpId) : List OpId := log.foldl (fun l r => r.inList l) l

/-- What a value is called after all rewrites. -/
def named (log : List Rewrite) (v : ValueId) : ValueId := log.foldl (fun v r => r.rename v) v

/-- The operations that have been rewritten, the last one first. -/
def rewritten (log : List Rewrite) : List OpId := (log.map Rewrite.op).reverse

theorem listed_append : listed (log₁ ++ log₂) l = listed log₂ (listed log₁ l) :=
    List.foldl_append ..

theorem named_append : named (log₁ ++ log₂) v = named log₂ (named log₁ v) := List.foldl_append ..

theorem rewritten_append : rewritten (log₁ ++ log₂) = rewritten log₂ ++ rewritten log₁ := by
  simp [rewritten]

theorem inList_of_not_mem (h : r.op ∉ l) : r.inList l = l := by
  unfold inList
  induction l with
  | nil => rfl
  | cons o l ih =>
    rw [List.mem_cons, not_or] at h
    obtain ⟨ho, hl⟩ := h
    rw [List.flatMap_cons, if_neg (Ne.symm ho), ih hl]
    rfl

theorem inList_append : r.inList (l₁ ++ l₂) = r.inList l₁ ++ r.inList l₂ := List.flatMap_append

/-- In a list that names the operation once, what was put in place takes its place. -/
theorem inList_middle (h : (l₁ ++ r.op :: l₂).Nodup) :
    r.inList (l₁ ++ r.op :: l₂) = l₁ ++ r.edits.newOps ++ l₂ := by
  obtain ⟨hnot, -⟩ := List.nodup_cons.mp (List.nodup_middle.mp h)
  rw [List.mem_append, not_or] at hnot
  rw [inList_append, ← List.singleton_append, inList_append, inList_of_not_mem hnot.1,
    inList_of_not_mem hnot.2, inList, List.flatMap_singleton, if_pos rfl, List.append_assoc]

/-- Operations that have not been rewritten stay in order. -/
theorem sublist_listed : (l.filter (· ∉ rewritten log)).Sublist (listed log l) := by
  induction log generalizing l with
  | nil => simp [rewritten, listed]
  | cons r log ih =>
    -- One rewriting takes only its operation out of the list.
    have hone : (l.filter (· ≠ r.op)).Sublist (r.inList l) := by
      unfold inList
      induction l with
      | nil => simp
      | cons o l ih =>
        rw [List.flatMap_cons, List.filter_cons]
        by_cases ho : o = r.op
        · simpa [ho] using ih.trans (List.sublist_append_right ..)
        · simpa [ho] using ih
    have hsplit : l.filter (· ∉ rewritten (r :: log)) =
        (l.filter (· ≠ r.op)).filter (· ∉ rewritten log) := by
      rw [List.filter_filter]
      congr 1
      funext o
      simp [rewritten]
    rw [hsplit]
    exact (hone.filter _).trans ih

end Rewrite

namespace Graph

variable {g g₁ g' : Graph} {gone : List OpId} {log log₁ log₂ : List Rewrite} {r : Rewrite}
  {o : OpId}
  {b : BlockId} {l₁ l₂ : List OpId}

/-- Rewriting has made the second graph of the first, and nothing else has:

* nothing has gone from the arenas;
* blocks list what the log says, and take the arguments they took; regions hold the blocks they
  held;
* operations have their kind, attributes, results and regions, and values their types;
* an operation that had not been removed and has not been rewritten reads what it read, by the
  names the values have now;
* an operation that has not been rewritten lies in the block it lay in. -/
structure Carries (g g' : Graph) (gone : List OpId) (log : List Rewrite) : Prop where
  ops : g.ops.size ≤ g'.ops.size
  blocks : g.blocks.size ≤ g'.blocks.size
  regions : g.regions.size ≤ g'.regions.size
  opsIn : ∀ b, g.HasBlock b → g'.opsIn b = Rewrite.listed log (g.opsIn b)
  argsOf : ∀ b, g.HasBlock b → g'.argsOf b = g.argsOf b
  blocksIn : ∀ r, g.HasRegion r → g'.blocksIn r = g.blocksIn r
  record : ∀ o, g.HasOp o → g'.kind o = g.kind o ∧ g'.attrs o = g.attrs o ∧
    g'.results o = g.results o ∧ g'.regionsOf o = g.regionsOf o
  value? : ∀ v, g.HasValue v → g'.value? v = g.value? v
  operands : ∀ o, g.HasOp o → o ∉ gone → o ∉ Rewrite.rewritten log →
    g'.operands o = (g.operands o).map (Rewrite.named log)
  stays : ∀ o b, g.blockOf? o = some b → o ∉ Rewrite.rewritten log → g'.blockOf? o = some b

namespace Carries

theorem hasOp (h : g.Carries g' gone log) (ho : g.HasOp o) : g'.HasOp o :=
    Nat.lt_of_lt_of_le ho h.ops

theorem trans (h₁ : g.Carries g₁ gone log₁)
    (h₂ : g₁.Carries g' (Rewrite.rewritten log₁ ++ gone) log₂) :
    g.Carries g' gone (log₁ ++ log₂) := by
  refine ⟨Nat.le_trans h₁.ops h₂.ops, Nat.le_trans h₁.blocks h₂.blocks,
    Nat.le_trans h₁.regions h₂.regions, fun b hb => ?_, fun b hb => ?_, fun r hr => ?_,
    fun o ho => ?_, fun v hv => ?_, fun o ho hlive hnot => ?_, fun o b hb hnot => ?_⟩
  · rw [h₂.opsIn b (Nat.lt_of_lt_of_le hb h₁.blocks), h₁.opsIn b hb, Rewrite.listed_append]
  · rw [h₂.argsOf b (Nat.lt_of_lt_of_le hb h₁.blocks), h₁.argsOf b hb]
  · rw [h₂.blocksIn r (Nat.lt_of_lt_of_le hr h₁.regions), h₁.blocksIn r hr]
  · obtain ⟨hkind, hattrs, hresults, hregions⟩ := h₂.record o (h₁.hasOp ho)
    rw [hkind, hattrs, hresults, hregions]
    exact h₁.record o ho
  · have hv₁ : g₁.HasValue v := by
      rw [← value?_isSome_iff, h₁.value? v hv, value?_isSome_iff]
      exact hv
    rw [h₂.value? v hv₁, h₁.value? v hv]
  · -- What the first run has rewritten counts as removed for the second.
    rw [Rewrite.rewritten_append, List.mem_append, not_or] at hnot
    have hlive₁ : o ∉ Rewrite.rewritten log₁ ++ gone := by
      rw [List.mem_append, not_or]
      exact ⟨hnot.2, hlive⟩
    rw [h₂.operands o (h₁.hasOp ho) hlive₁ hnot.1, h₁.operands o ho hlive hnot.2, List.map_map]
    exact List.map_congr_left fun v _ => Rewrite.named_append.symm
  · rw [Rewrite.rewritten_append, List.mem_append, not_or] at hnot
    exact h₂.stays o b (h₁.stays o b hb hnot.2) hnot.1

/-- Creation carries a graph along with nothing rewritten. -/
theorem of_enlarged (h : g.Enlarged g') : g.Carries g' gone [] := by
  refine ⟨h.ops, h.blocks, h.regions, fun b hb => (h.block b hb).1, fun b hb => (h.block b hb).2,
    h.region, fun o ho => ?_, h.value?, fun o ho _ _ => ?_, fun o b hb _ => ?_⟩
  · rw [kind, attrs, results, Graph.regionsOf, h.op o ho]
    exact ⟨rfl, rfl, rfl, rfl⟩
  · rw [Graph.operands, h.op o ho]
    exact (List.map_id _).symm
  · rw [blockOf?, h.op o (hasOp_of_blockOf? hb)]
    exact hb

/-- A substitution carries a graph along with the one rewrite. -/
theorem of_substituted (hc : Consistent g gone) (hb : g.opsIn b = l₁ ++ r.op :: l₂)
    (free : ∀ n ∈ r.edits.newOps, g.blockOf? n = none)
    (h : Substituted g g' gone r.op b r.rename r.edits.newOps l₁ l₂) : g.Carries g' gone [r] := by
  have hsame : ∀ o, g'.kind o = g.kind o ∧ g'.attrs o = g.attrs o ∧
      g'.results o = g.results o ∧ g'.regionsOf o = g.regionsOf o := by
    intro o
    rw [kind, attrs, results, Graph.regionsOf]
    by_cases ho : o = r.op
    · rw [ho, h.left]
      exact ⟨rfl, rfl, rfl, rfl⟩
    · rw [h.kept o ho]
      split <;> exact ⟨rfl, rfl, rfl, rfl⟩
  refine ⟨Nat.le_of_eq h.opsSize.symm, Nat.le_of_eq h.blocksSize.symm, by rw [h.regions],
    fun c _ => ?_, fun c _ => ?_, fun s _ => ?_, fun o _ => hsame o, fun v _ => ?_,
    fun o _ hlive hnot => ?_, fun o c hc' hnot => ?_⟩
  · -- The operation is listed in its own block, once, and in no other.
    change g'.opsIn c = r.inList (g.opsIn c)
    rw [Graph.opsIn, h.block]
    by_cases hbc : b = c
    · subst hbc
      have hnodup := hc.placedOnce b
      rw [hb] at hnodup
      rw [if_pos rfl, hb, Rewrite.inList_middle hnodup]
    · rw [if_neg hbc, Rewrite.inList_of_not_mem]
      · rfl
      · exact fun hmem => hbc (hc.block_unique (by simp [hb]) hmem)
  · rw [Graph.argsOf, h.block]
    split <;> rfl
  · rw [Graph.blocksIn, region, region?, h.regions]
    rfl
  · rw [Graph.value?, h.values]
    rfl
  · have ho : o ≠ r.op := by simpa [Rewrite.rewritten] using hnot
    have hread : readBy gone r.rename o = r.rename := funext fun _ => if_neg hlive
    rw [Graph.operands, h.kept o ho, hread]
    split <;> exact mapIdx_const ..
  · have ho : o ≠ r.op := by simpa [Rewrite.rewritten] using hnot
    have hn : o ∉ r.edits.newOps := by
      intro hn
      rw [free o hn] at hc'
      cases hc'
    rw [blockOf?, h.kept o ho, if_neg hn]
    exact hc'

end Carries

/-- Rewriting has left the second graph of the first in order:

* nothing but rewriting has happened;
* the tables agree, where what has been rewritten has been removed;
* no operation has been rewritten twice, and none of those that have lies anywhere;
* all that has been put in place is new, and none of it has been put in place twice. -/
structure InPlace (g g' : Graph) (gone : List OpId) (log : List Rewrite) : Prop where
  carries : g.Carries g' gone log
  consistent : Consistent g' (Rewrite.rewritten log ++ gone)
  once : (Rewrite.rewritten log).Nodup
  out : ∀ o ∈ Rewrite.rewritten log, g'.blockOf? o = none
  fresh : ∀ n ∈ log.flatMap fun r => r.edits.newOps, ¬ g.HasOp n ∧ g'.HasOp n
  distinct : (log.flatMap fun r => r.edits.newOps).Nodup

end Graph

/-! ## Runs of rewrites -/

namespace RuleSet

variable {rules : RuleSet} {target : ConversionTarget} {g g₁ g₂ g' : Graph} {gone : List OpId}
  {log log₁ log₂ : List Rewrite} {r : Rewrite}

/-- A rule for a placed operation has matched on the graph, and the match has been put in place. -/
def Makes (rules : RuleSet) (g : Graph) (r : Rewrite) (g' : Graph) : Prop :=
  ∃ b, g.blockOf? r.op = some b ∧ r.edits.isEmpty = false ∧
    (∃ e ∈ rules.forKind (g.kind r.op), ∃ c c',
      e.rule.run g r.op c = .ok (r.graph, c', .matched r.edits)) ∧
    r.graph.splice r.op r.edits = .ok g'

/-- A run of rewrites can be taken apart at each of them. -/
theorem Rewritten.split (h : rules.Rewritten g log g') (hlog : log = log₁ ++ r :: log₂) :
    ∃ g₁ g₂, rules.Rewritten g log₁ g₁ ∧ rules.Makes g₁ r g₂ ∧ rules.Rewritten g₂ log₂ g' := by
  induction h generalizing log₂ with
  | nothing => simp at hlog
  | @more log g₁ g₂ g₃ op b e c c' edits h hb he hrun hsome hsplice ih =>
    rcases List.eq_nil_or_concat log₂ with rfl | ⟨log₃, x, rfl⟩
    · obtain ⟨rfl, hr⟩ := List.append_inj' hlog rfl
      obtain rfl := List.singleton_inj.mp hr
      exact ⟨g₁, g₃, h, ⟨b, hb, hsome, ⟨e, he, c, c', hrun⟩, hsplice⟩, .nothing⟩
    · rw [List.concat_eq_append, ← List.cons_append, ← List.append_assoc] at hlog
      obtain ⟨hrest, hx⟩ := List.append_inj' hlog rfl
      obtain rfl := List.singleton_inj.mp hx
      obtain ⟨k₁, k₂, h₁, hr, h₂⟩ := ih hrest
      rw [List.concat_eq_append]
      exact ⟨k₁, k₂, h₁, hr, .more h₂ hb he hrun hsome hsplice⟩

/-- One rewrite, by a rule that substitutes: it carries both the graph the rule found and the one
it handed back to the next. -/
theorem Makes.carries (h : rules.Makes g r g') (hc : Consistent g gone)
    (hrules : ∀ b, g.blockOf? r.op = some b →
      ∀ e ∈ rules.forKind (g.kind r.op), e.rule.SubstitutesAt g r.op) :
    r.edits.Substitutes g r.graph r.op ∧ r.graph.Carries g' gone [r] ∧
      Consistent g' (r.op :: gone) ∧ g.blockOf? r.op ≠ none ∧ g'.blockOf? r.op = none ∧
      ∀ o, g.HasOp o → g.blockOf? o = none → g'.blockOf? o = none := by
  obtain ⟨b, hb, hsome, ⟨e, he, c, c', hrun⟩, hsplice⟩ := h
  have hsub := (hrules b hb e he).substitutes hrun hsome
  have hg := hsub.creates.enlarged
  obtain ⟨l₁, l₂, g'', hl, run, hs⟩ := hsub.splice hc hb
  rw [hsplice] at run
  cases run
  refine ⟨hsub, .of_substituted (hc.creates hsub.creates) hl (fun n hn => (hsub.fresh n hn).2.2) hs,
    hs.after, by simp [hb], by rw [blockOf?, hs.left], fun o ho hnone => ?_⟩
  have hne : o ≠ r.op := by
    rintro rfl
    rw [hb] at hnone
    cases hnone
  rw [blockOf?, hs.kept o hne, if_neg fun hn => (hsub.fresh o hn).1 ho, hg.op o ho]
  exact hnone

/-- Substitutions leave a graph in order, all of them as each one does. -/
theorem Rewritten.inPlace (h : rules.Rewritten g log g') (hc : Consistent g gone)
    (hrules : rules.Substitutes g) : g.InPlace g' gone log := by
  induction h with
  | nothing =>
    exact ⟨.of_enlarged (.refl g), hc, List.nodup_nil, (fun _ h => nomatch h),
      (fun _ h => nomatch h),
      List.nodup_nil⟩
  | @more log g₁ g₂ g₃ op b e c c' edits h hb he hrun hsome hsplice ih =>
    -- The rule first creates, which rewrites nothing, and then what it has created is put in place.
    obtain ⟨hsub, hcarries, hc', hplaced, hout, hnone⟩ :=
      Makes.carries (r := ⟨op, edits, g₂⟩) ⟨b, hb, hsome, ⟨e, he, c, c', hrun⟩, hsplice⟩
        ih.consistent (hrules _ _ h op)
    have hcreates : g₁.Carries g₂ (Rewrite.rewritten log ++ gone) [] :=
      .of_enlarged hsub.creates.enlarged
    have hstep : g₁.Carries g₃ (Rewrite.rewritten log ++ gone) [⟨op, edits, g₂⟩] :=
      hcreates.trans hcarries
    have hlast : Rewrite.rewritten (log ++ [⟨op, edits, g₂⟩]) = op :: Rewrite.rewritten log := by
      simp [Rewrite.rewritten]
    have hmade : (log ++ [(⟨op, edits, g₂⟩ : Rewrite)]).flatMap (fun r => r.edits.newOps) =
        (log.flatMap fun r => r.edits.newOps) ++ edits.newOps := by simp
    have hnew : ∀ n ∈ edits.newOps, ¬ g₁.HasOp n ∧ g₃.HasOp n := by
      intro n hn
      obtain ⟨hnot, hhas, -⟩ := hsub.fresh n hn
      exact ⟨hnot, hcarries.hasOp hhas⟩
    refine ⟨ih.carries.trans hstep, ?_, ?_, ?_, ?_, ?_⟩
    · rw [hlast]
      exact hc'
    · -- What has been rewritten lies nowhere, and what is rewritten now lies somewhere.
      rw [hlast, List.nodup_cons]
      exact ⟨fun hmem => hplaced (ih.out op hmem), ih.once⟩
    · rw [hlast]
      intro o ho
      rcases List.mem_cons.mp ho with rfl | ho
      · exact hout
      · exact hnone o (ih.consistent.known o (List.mem_append_left _ ho)) (ih.out o ho)
    · rw [hmade]
      intro n hn
      rcases List.mem_append.mp hn with hn | hn
      · exact ⟨(ih.fresh n hn).1, hstep.hasOp (ih.fresh n hn).2⟩
      · exact ⟨fun hold => (hnew n hn).1 (ih.carries.hasOp hold), (hnew n hn).2⟩
    · rw [hmade, List.nodup_append]
      refine ⟨ih.distinct, hsub.nodup, fun n hn m hm hnm => ?_⟩
      exact (hnew m hm).1 (hnm ▸ (ih.fresh n hn).2)

theorem Rewritten.substitutes (h : rules.Rewritten g log g₁) (hrules : rules.Substitutes g) :
    rules.Substitutes g₁ :=
  fun log₂ _ h₂ => hrules (log ++ log₂) _ (h.trans h₂)

/-- What a rule has created is carried along from the moment it was put in place. -/
theorem Rewritten.created (h : rules.Rewritten g (log₁ ++ r :: log₂) g') (hc : Consistent g gone)
    (hrules : rules.Substitutes g) :
    ∃ g₁, rules.Rewritten g log₁ g₁ ∧ r.edits.Substitutes g₁ r.graph r.op ∧
      r.graph.Carries g' (Rewrite.rewritten log₁ ++ gone) (r :: log₂) := by
  obtain ⟨g₁, g₂, h₁, hr, h₂⟩ := h.split rfl
  obtain ⟨hsub, hcarries, hc₂, -⟩ :=
    hr.carries (h₁.inPlace hc hrules).consistent (hrules _ _ h₁ r.op)
  have hall : rules.Rewritten g (log₁ ++ [r]) g₂ := by
    obtain ⟨b, hb, hsome, ⟨e, he, c, c', hrun⟩, hsplice⟩ := hr
    exact .more h₁ hb he hrun hsome hsplice
  exact ⟨g₁, h₁, hsub, hcarries.trans (h₂.inPlace hc₂ (hall.substitutes hrules)).carries⟩

/-! ## When an application fails -/

/-- Asking about the operation fails, or a rule for it does, or a rule wants an operation put in
place that reads a value that is not there. -/
inductive Breaks (rules : RuleSet) (target : ConversionTarget) (g : Graph) (op : OpId) (e : Fault) :
    Prop
  | asking {c : AccessSizes} : target.legality g op c = .error e → Breaks rules target g op e
  | trying {entry : RuleEntry} {c : AccessSizes} : entry ∈ rules.forKind (g.kind op) →
      entry.rule.run g op c = .error e → Breaks rules target g op e
  | reading {entry : RuleEntry} {c c' : AccessSizes} {g₁ : Graph} {edits : Edits} {n : OpId}
      {v : ValueId} : entry ∈ rules.forKind (g.kind op) →
      entry.rule.run g op c = .ok (g₁, c', .matched edits) → n ∈ edits.newOps → v ∈ g₁.operands n →
      ¬ g₁.HasValue v → Breaks rules target g op e

end RuleSet

namespace Application

variable {rules : RuleSet} {target : ConversionTarget} {op : OpId} {b : BlockId} {l : List Rule}
  {gone : List OpId} {s : Application} {e : Fault}

/-- A match cannot be put in place where a value is not there that is read, or where the splice
fails. -/
theorem commit_eq_error {edits : Edits} (h : commit s op edits = .error e) :
    s.graph.producersOf edits.newOps = .error e ∨ s.graph.splice op edits = .error e := by
  rcases bind_eq_error.mp h with h | ⟨touched, -, h⟩
  · exact Or.inl h
  · rcases bind_eq_error.mp h with h | ⟨g, -, h⟩
    · exact Or.inr h
    · cases h

/-- Trying rules that record what they change fails where one of them does, or where a match cannot
be put in place. -/
theorem tryRules_fails (hl : ∀ rule ∈ l, rule.RecordsAt s.graph op)
    (h : tryRules op l s = .error e) :
    ∃ rule ∈ l, ∃ c, rule.run s.graph op c = .error e ∨
      ∃ g c' edits, rule.run s.graph op c = .ok (g, c', .matched edits) ∧ edits.isEmpty = false ∧
        commit { s with graph := g, sizes := c' } op edits = .error e := by
  induction l generalizing s with
  | nil => cases h
  | cons rule l ih =>
    have ih := fun c => @ih { s with sizes := c }
    have hrule := hl rule (List.mem_cons_self ..)
    -- A rule that is passed leaves the graph to the rest as it was.
    have hrest : ∀ g c outcome, rule.run s.graph op s.sizes = .ok (g, c, outcome) →
        outcome.Passes → tryRules op l { s with graph := g, sizes := c } = .error e →
        ∃ rule' ∈ rule :: l, ∃ c, rule'.run s.graph op c = .error e ∨
          ∃ g c' edits, rule'.run s.graph op c = .ok (g, c', .matched edits) ∧
            edits.isEmpty = false ∧ commit { s with graph := g, sizes := c' } op edits =
              .error e := by
      intro g c outcome hrun hpass h
      obtain rfl := still_of_passes hrule hrun hpass
      obtain ⟨rule', hmem, hrule'⟩ := ih c (fun r hr => hl r (List.mem_cons_of_mem _ hr)) h
      exact ⟨rule', List.mem_cons_of_mem _ hmem, hrule'⟩
    rcases bind_eq_error.mp h with h | ⟨⟨g, c, outcome⟩, hrun, h⟩
    · exact ⟨rule, List.mem_cons_self .., s.sizes, Or.inl h⟩
    · cases outcome with
      | declined => exact hrest g c _ hrun trivial h
      | refused reason => cases h
      | matched edits =>
        dsimp only at h
        split at h
        · next hempty => exact hrest g c _ hrun hempty h
        · next hsome =>
          exact ⟨rule, List.mem_cons_self .., s.sizes,
            Or.inr ⟨g, c, edits, hrun, Bool.not_eq_true _ ▸ hsome, h⟩⟩

/-- A visit of a placed operation fails for no other reason than these: putting a match in place
never fails. -/
theorem visitOp_fails (hc : Consistent s.graph gone) (hb : s.graph.blockOf? op = some b)
    (hrules : ∀ e ∈ rules.forKind (s.graph.kind op), e.rule.SubstitutesAt s.graph op)
    (h : s.visitOp rules target op = .error e) : rules.Breaks target s.graph op e := by
  rcases bind_eq_error.mp h with h | ⟨⟨verdict, c⟩, -, h⟩
  · exact .asking h
  dsimp only at h
  split at h
  · cases h
  · obtain ⟨rule, hrule, c₁, hfails⟩ := tryRules_fails (fun rule hrule => by
      obtain ⟨entry, hentry, rfl⟩ := List.mem_map.mp hrule
      exact (hrules entry hentry).recordsAt hc) h
    obtain ⟨entry, hentry, rfl⟩ := List.mem_map.mp hrule
    rcases hfails with hrun | ⟨g, c', edits, hrun, hsome, hcommit⟩
    · exact .trying hentry hrun
    · obtain ⟨-, -, g', -, hsplice, -⟩ := ((hrules entry hentry).substitutes hrun
        hsome).splice hc hb
      rcases commit_eq_error hcommit with hreads | hfails
      · -- If all values were there, so would be what defines them.
        by_contra hnot
        have hthere : ∀ v ∈ edits.newOps.flatMap g.operands, g.HasValue v := by
          intro v hv
          obtain ⟨n, hn, hv⟩ := List.mem_flatMap.mp hv
          by_contra hv'
          exact hnot (.reading hentry hrun hn hv hv')
        obtain ⟨found, hfound⟩ := mapM_definingOp?_total hthere
        rw [producersOf, hfound] at hreads
        cases hreads
      · cases hsplice.symm.trans hfails

end Application

/-! ## Applications -/

namespace RuleSet

variable {rules : RuleSet} {target : ConversionTarget} {g : Graph} {gone : List OpId}
  {root : OpId} {budget : Nat} {sizes : AccessSizes}

/-- Rules that substitute record what they change. -/
theorem Substitutes.records (hrules : rules.Substitutes g) (hc : Consistent g gone) :
    rules.Records g :=
  fun log g₁ h op b hb e he =>
    (hrules log g₁ h op b hb e he).recordsAt (h.inPlace hc hrules).consistent

/-- An application of rules that substitute is substitution in place:

* if it comes back, then there is a log of as many rewrites as it reports changes, and what it
  comes back with is the graph it was given with these rewrites made in place; operations that have
  not been rewritten stand in order; and from the moment an operation was put in place, it has been
  carried along like those that were there before;
* if it fails, then asking about an operation has failed that rewriting had led to, or trying a
  rule on it, or a rule wanted an operation put in place that reads a value that is not there. -/
theorem apply_inPlace {edits : List Edit} (history : Edit.replay edits = .ok (g, gone))
    (hrules : rules.Substitutes g) :
    (∀ g' sizes' result, rules.apply g root target budget sizes = .ok (g', sizes', result) →
      ∃ log, rules.Rewritten g log g' ∧ log.length = result.changes ∧ g.InPlace g' gone log ∧
        (∀ b, g.HasBlock b →
          ((g.opsIn b).filter (· ∉ Rewrite.rewritten log)).Sublist (g'.opsIn b)) ∧
        ∀ log₁ r log₂, log = log₁ ++ r :: log₂ →
          ∃ g₁, rules.Rewritten g log₁ g₁ ∧ r.edits.Substitutes g₁ r.graph r.op ∧
            r.graph.Carries g' (Rewrite.rewritten log₁ ++ gone) (r :: log₂)) ∧
    ∀ e, rules.apply g root target budget sizes = .error e →
      ∃ log g₁ op b, rules.Rewritten g log g₁ ∧ g₁.blockOf? op = some b ∧
        rules.Breaks target g₁ op e := by
  have hc := consistent_of_replay history
  have hrecords := hrules.records hc
  have hvisit : ∀ s op b s', Application.Reports rules g s → s.graph.blockOf? op = some b →
      Application.visitOp rules target s op = .ok s' → Application.Reports rules g s' :=
    fun _ _ _ _ hs hb hv => hs.visit hrecords hb hv
  have hstart : Application.Reports rules g ⟨g, sizes, [], 0⟩ := .start hc.places sizes
  -- The run has come back, or it has failed in a visit, before which the invariant held.
  constructor
  · intro g' sizes' result h
    obtain ⟨log, hlog, hlength, -⟩ := (apply_invariant hvisit hstart h).run
    have hplace := hlog.inPlace hc hrules
    refine ⟨log, hlog, hlength, hplace, fun b hb => ?_, ?_⟩
    · rw [hplace.carries.opsIn b hb]
      exact Rewrite.sublist_listed
    · rintro log₁ r log₂ rfl
      exact hlog.created hc hrules
  · intro e h
    obtain ⟨s, op, b, hs, hb, hfails⟩ := apply_fails hvisit hstart h
    obtain ⟨log, hlog, -⟩ := hs.run
    exact ⟨log, s.graph, op, b, hlog, hb,
      Application.visitOp_fails (hlog.inPlace hc hrules).consistent hb
        (hrules _ _ hlog op b hb) hfails⟩

/-- Sums are scaled: they become products with a constant, and products elementwise ones. -/
def scaling : RuleSet :=
  .ofList [(Action.expand .muli 7).toRule "Scale" [.addi] none,
    (Action.replace .mulElem false).toRule "Elementwise" [.muli] none]

/-- The graph in which the sum has given way to a constant and an elementwise product. -/
def scaledGraph : Graph where
  ops := #[⟨.addi, [⟨0⟩, ⟨1⟩], [⟨2⟩], .empty, [], none⟩,
    ⟨.subi, [⟨6⟩, ⟨1⟩], [⟨3⟩], .empty, [], some ⟨0⟩⟩, ⟨.ret, [⟨3⟩], [], .empty, [], some ⟨0⟩⟩,
    ⟨.func, [], [], .ofList [(AttrName.symName, .str "difference")], [⟨0⟩], none⟩,
    ⟨.constant, [], [⟨4⟩], .ofList [(AttrName.value, .int 7)], [], some ⟨0⟩⟩,
    ⟨.muli, [⟨0⟩, ⟨1⟩, ⟨4⟩], [⟨5⟩], .empty, [], none⟩,
    ⟨.mulElem, [⟨0⟩, ⟨1⟩, ⟨4⟩], [⟨6⟩], .empty, [], some ⟨0⟩⟩]
  values := #[⟨.argument ⟨0⟩ 0, .vector 16 (.i 32)⟩, ⟨.argument ⟨0⟩ 1, .vector 16 (.i 32)⟩,
    ⟨.result ⟨0⟩ 0, .vector 16 (.i 32)⟩, ⟨.result ⟨1⟩ 0, .vector 16 (.i 32)⟩,
    ⟨.result ⟨4⟩ 0, .i 32⟩, ⟨.result ⟨5⟩ 0, .vector 16 (.i 32)⟩,
    ⟨.result ⟨6⟩ 0, .vector 16 (.i 32)⟩]
  blocks := #[⟨[⟨0⟩, ⟨1⟩], [⟨4⟩, ⟨6⟩, ⟨1⟩, ⟨2⟩], some ⟨0⟩⟩]
  regions := #[⟨[⟨0⟩], some ⟨3⟩⟩]
  chains := #[[⟨⟨6⟩, 0⟩], [⟨⟨1⟩, 1⟩, ⟨⟨6⟩, 1⟩], [], [⟨⟨2⟩, 0⟩], [⟨⟨6⟩, 2⟩], [], [⟨⟨1⟩, 0⟩]]

/-- A sum gives way to a constant and a product, and this product to another one; the difference
that read the sum reads the last product. -/
theorem apply_inPlace_difference :
    ∃ result log, scaling.apply differenceGraph ⟨3⟩ (.ofSettings [.illegalKind .addi]) 5 .empty =
        .ok (scaledGraph, .empty, result) ∧ log.length = 2 ∧
      differenceGraph.InPlace scaledGraph [] log ∧
      Rewrite.listed log [⟨0⟩, ⟨1⟩, ⟨2⟩] = [⟨4⟩, ⟨6⟩, ⟨1⟩, ⟨2⟩] ∧
      Rewrite.named log ⟨2⟩ = ⟨6⟩ := by
  have history : Edit.replay differenceHistory = .ok (differenceGraph, []) := by cbv
  have run : scaling.apply differenceGraph ⟨3⟩ (.ofSettings [.illegalKind .addi]) 5 .empty =
      .ok (scaledGraph, .empty, ⟨3, 2, true, []⟩) := by cbv
  have substitutes : scaling.Substitutes differenceGraph := by
    intro log g _ op b hb e he
    rcases List.mem_pair.mp (mem_forKind.mp he).1 with rfl | rfl
    · exact Action.substitutesAt_toRule (hasOp_of_blockOf? hb) rfl
    · exact Action.substitutesAt_toRule (hasOp_of_blockOf? hb) rfl
  obtain ⟨log, -, hlength, hplace, -⟩ := (apply_inPlace history substitutes).1 _ _ _ run
  -- What lies in a block has not been rewritten.
  have hlive : ⟨1⟩ ∉ Rewrite.rewritten log := fun h => absurd (hplace.out ⟨1⟩ h) (by decide)
  refine ⟨_, log, run, hlength, hplace, ?_, ?_⟩
  · exact (hplace.carries.opsIn ⟨0⟩ (by decide)).symm
  · have hreads := hplace.carries.operands ⟨1⟩ (by decide) List.not_mem_nil hlive
    exact (List.cons.inj hreads).1.symm

end RuleSet

end SimdLowering
