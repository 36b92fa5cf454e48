/-
Lowering changes no type that anyone can see.

An operation that stays reads what it read, under another name where a rule has replaced it,
and rules replace a result by a value of its type. The rules arrive at that type in different
ways, from the operand, from what was declared or from an accumulator, but each of them is
lawful, and being lawful includes ending in the type of the operation. So an operation that
is there before and after reads values of the same types, and since the return of a function
is never rewritten, the function returns values of the same types.

Nothing here depends on the order of the visits. The statement about rewrites is therefore
about every state that visits can lead to, in whatever order they are made, and the lowering
is one way of making them.
-/
import SimdLowering.Proofs.Lowering.Rounds
import SimdLowering.Proofs.Rewrite.Renaming

set_option autoImplicit false

namespace SimdLowering

open SimdLowering.Graph SimdLowering.Application

namespace Graph

variable {g g' g₁ : Graph} {gone : List OpId} {func op x : OpId} {b : BlockId} {old : ValueId}
  {r : Recipe} {size : Nat}

/-- Between the two graphs the result of an operation was replaced by a value of its type, in
everything under the root that reads it. -/
def Exchanges (g g' : Graph) (root op : OpId) : Prop :=
  ∃ old new, g.results op = [old] ∧ g'.HasValue new ∧ (g'.value new).ty = (g.value old).ty ∧
    ∀ x, g.Inside root x → x ≠ op → g'.operands x = (g.operands x).map (renamed old new)

/-- What was under the root and still is reads values of the types it read, and the root
returns values of the types it returned. -/
structure SameInterfaces (g g' : Graph) (root : OpId) : Prop where
  operands : ∀ x, g.Inside root x → g'.Inside root x →
    g'.typesOf (g'.operands x) = g.typesOf (g.operands x)
  returned : g'.typesOf (g'.returnedValues root) = g.typesOf (g.returnedValues root)

section

variable (hs : Spliced g g' gone op b old r) (h : Scene g gone func) (hin : g.Inside func op)
  (hr : r.Lawful g func op)
include hs h hr

theorem Spliced.exchanges : g.Exchanges g' func op := by
  refine ⟨old, g.standIn r, hs.single, ?_, hs.value_standIn hr, fun x hx _ => ?_⟩
  · have hold : g.HasValue old := hs.before.hasValue_of_mem_results (o := op) (by simp [hs.single])
    have := hs.hasValue_renamed hold
    rwa [renamed, if_pos rfl] at this
  · exact hs.operands_of_inside h hx

theorem Spliced.typesOf_operands_of_inside (hx : g.Inside func x) :
    g'.typesOf (g'.operands x) = g.typesOf (g.operands x) :=
  hs.typesOf_operands hr (hx.hasOp h.consistent.toNestingAgrees)
    fun _ hv => h.ordered.hasValue_of_mem_operands h.consistent hx hv

omit h hr in
/-- The entry block of a function is where it was. -/
theorem Spliced.entryBlock?_eq (hf : g.HasOp func) : g'.entryBlock? func = g.entryBlock? func := by
  unfold entryBlock?
  rw [hs.kind_of_hasOp hf, hs.regionsOf_of_hasOp hf]
  congr 1
  exact congrArg _ (funext fun s => by rw [hs.blocksIn])

include hin

/-- A rewrite anywhere but at a return leaves the types of what a function returns. -/
theorem Spliced.typesOf_returnedValues (hf : g.HasOp func) (hret : g.kind op ≠ .ret) :
    g'.typesOf (g'.returnedValues func) = g.typesOf (g.returnedValues func) := by
  unfold returnedValues
  rw [hs.entryBlock?_eq hf]
  cases hentry : g.entryBlock? func with
  | none => rfl
  | some c =>
    have hholds : g.HoldsBlock func c := by
      unfold entryBlock? at hentry
      split at hentry
      · obtain ⟨s, hreg, hblock⟩ := Option.bind_eq_some_iff.mp hentry
        exact holdsBlock_of_mem_regionsOf (List.mem_of_head? hreg) (List.mem_of_head? hblock)
      · cases hentry
    -- What ends the block is what ended it, unless that was the operation that went.
    have same : ∀ last, last ≠ op → (g.opsIn c).getLast? = some last →
        g'.typesOf (if g'.kind last = .ret then g'.operands last else []) =
          g.typesOf (if g.kind last = .ret then g.operands last else []) := by
      intro last hne hlast
      have hlast : g.Inside func last := hholds.inside (List.mem_of_getLast? hlast)
      rw [hs.kind_of_hasOp (hlast.hasOp h.consistent.toNestingAgrees)]
      split
      · exact hs.typesOf_operands_of_inside h hr hlast
      · rfl
    dsimp only [Option.bind]
    obtain ⟨l₁, l₂, hl, hl', hother⟩ := hs.opsIn
    by_cases hc : c = b
    · subst hc
      cases hl₂ : l₂.getLast? with
      | none =>
        have hnil : l₂ = [] := List.getLast?_eq_none_iff.mp hl₂
        have hnews : g.nextOps r.all.length =
            g.nextOps r.steps.length ++ [⟨g.ops.size + r.steps.length⟩] := nextOps_all r
        have hlowered := (hr.steps _ _ r.getElem?_all_final).lowered
        have hfinal : r.final.kind ≠ .ret := by
          intro hk
          rw [hk] at hlowered
          cases hlowered
        rw [hl, hl', hnil, hnews, List.append_nil, ← List.append_assoc, List.getLast?_concat,
          List.getLast?_concat]
        dsimp only
        rw [if_neg hret, hs.kind_made r.getElem?_all_final, if_neg hfinal]
        rfl
      | some last =>
        have hend : (g.opsIn c).getLast? = some last := by
          rw [hl, List.getLast?_append, List.getLast?_cons, hl₂]
          rfl
        have hend' : (g'.opsIn c).getLast? = some last := by
          rw [hl', List.getLast?_append, hl₂]
          rfl
        rw [hend, hend']
        refine same last ?_ hend
        rintro rfl
        exact hs.not_mem_opsIn_left (List.mem_of_getLast? hend')
    · rw [hother c hc]
      cases hend : (g.opsIn c).getLast? with
      | none => rfl
      | some last =>
        refine same last ?_ hend
        rintro rfl
        refine hs.not_mem_opsIn_left (c := c) ?_
        rw [hother c hc]
        exact List.mem_of_getLast? hend

end

end Graph

/-! ## Visits -/

variable {o : LowerOptions} {func op : OpId} {size : Nat} {gone : List OpId}
  {s t t' : Application} {Q : AccessSizes → AccessSizes → Prop} {c₀ : AccessSizes}

/-- What one visit does to the types around it. -/
theorem Application.Visited.keeps_interfaces (h : Upright t.graph gone func size)
    (hin : t.graph.Inside func op)
    (hv : Visited o.ruleSet o.target.conversionTarget Q func gone c₀ t op t') :
    (t'.graph = t.graph ∨ t.graph.Exchanges t'.graph func op) ∧
      t.graph.SameInterfaces t'.graph func ∧ (∀ x, t.graph.HasOp x → t'.graph.HasOp x) ∧
      ∀ x, t.graph.HasOp x → t'.graph.Inside func x → t.graph.Inside func x := by
  cases hv with
  | same hg =>
    rw [hg]
    exact ⟨Or.inl rfl, ⟨fun _ _ _ => rfl, rfl⟩, fun _ hx => hx, fun _ _ hx => hx⟩
  | rewritten b old r hrw =>
    obtain ⟨e, he, hk, -⟩ := hrw.rule
    have hs := hrw.spliced
    have hret : t.graph.kind op ≠ .ret := fun e' => (o.ruleSet_lawful e he).computes.2 (e' ▸ hk)
    refine ⟨Or.inr (hs.exchanges h.scene hrw.lawful), ⟨fun x hx _ =>
        hs.typesOf_operands_of_inside h.scene hrw.lawful hx,
      hs.typesOf_returnedValues h.scene hin hrw.lawful h.root hret⟩,
      fun x hx => hs.hasOp_iff.mpr (Or.inl hx), fun x hop hx => ?_⟩
    -- What lies in the function afterwards lay there before, or it is new.
    rcases (hs.inside_iff hin).mp hx with ⟨hx, -⟩ | hnew
    · exact hx
    · exact absurd hop (nextOps_fresh hnew)

/-- Wherever visits lead, every operation that was there from the start reads values of the
types it read, and the function returns values of the types it returned. -/
theorem sameInterfaces_of_visits (h : UprightAt func size s)
    (hv : Relation.ReflTransGen (VisitTo o.ruleSet o.target.conversionTarget func) s t) :
    s.graph.SameInterfaces t.graph func ∧ (∀ x, s.graph.HasOp x → t.graph.HasOp x) ∧
      ∀ x, s.graph.HasOp x → t.graph.Inside func x → s.graph.Inside func x := by
  refine h.visits_induction
    (P := fun t => s.graph.SameInterfaces t.graph func ∧
      (∀ x, s.graph.HasOp x → t.graph.HasOp x) ∧
      ∀ x, s.graph.HasOp x → t.graph.Inside func x → s.graph.Inside func x)
    ⟨⟨fun _ _ _ => rfl, rfl⟩, fun _ hx => hx, fun _ _ hx => hx⟩
    (fun ht hin hv ⟨hsame₀, hops₀, hinside₀⟩ => ?_) hv
  obtain ⟨-, hsame, hops, hinside⟩ :=
    (LowerOptions.visited ht hin (tracks_any ..) hv).keeps_interfaces ht hin
  refine ⟨⟨fun x hx hx' => ?_, hsame.returned.trans hsame₀.returned⟩,
    fun x hx => hops x (hops₀ x hx), fun x hop hx => ?_⟩
  · obtain ⟨gone₀, h₀⟩ := h
    -- The operation cannot have been away in between.
    have hop := hops₀ x (hx.hasOp h₀.scene.consistent.toNestingAgrees)
    have hmid := hinside x hop hx'
    exact (hsame.operands x hmid hx').trans (hsame₀.operands x hx hmid)
  · exact hinside₀ x hop (hinside x (hops₀ x hop) hx)

namespace Graph

variable {g : Graph}

/-- Take any function with a history that validates, reads nothing that is still to come and in
which every operation is built as its kind demands, and any options. Whenever the lowering comes
back, with whatever answer, what was in the function and still is reads values of the types it
read, the function returns values of the types it returned, and the lowering has made visits of
which each that changes the graph replaces the result of the operation visited by a value of its
type. -/
theorem lower_keeps_types {edits : List Edit} {o : LowerOptions} {g' : Graph}
    {answer : Except LowerError LowerReport} (history : Edit.replay edits = .ok (g, gone))
    (hreads : ∀ v, g.uses v ≠ [] → g.HasValue v) (hfunc : g.HasOp func)
    (hvalid : g.Validates func) (hshaped : ∀ op, g.Inside func op → g.WellShaped op)
    (h : g.lower func o = .ok (g', answer)) :
    g.SameInterfaces g' func ∧
      ∃ s, Relation.ReflTransGen (VisitTo o.ruleSet o.target.conversionTarget func)
          (.start g .empty) s ∧ s.graph = g' ∧
        ∀ t op t', Relation.ReflTransGen (VisitTo o.ruleSet o.target.conversionTarget func)
            (.start g .empty) t → t.graph.Inside func op →
          t.visitOp o.ruleSet o.target.conversionTarget op = .ok t' →
          t'.graph = t.graph ∨ t.graph.Exchanges t'.graph func op := by
  have hg := Upright.of_replay history hreads hfunc hvalid hshaped
  have hstart : UprightAt func g.ops.size (.start g .empty) := ⟨gone, hg⟩
  obtain ⟨s, hvisits, rfl⟩ := lower_visits hg h
  refine ⟨(sameInterfaces_of_visits hstart hvisits).1, s, hvisits, rfl, fun t op t' ht hin hv => ?_⟩
  obtain ⟨gone, hup⟩ := hstart.visits ht
  exact ((LowerOptions.visited hup hin (tracks_any ..) hv).keeps_interfaces hup hin).1

/-- The sum of two vectors is still returned as one vector of the same type. -/
theorem lower_keeps_types_sum : ∃ g' answer,
    sumGraph.lower ⟨2⟩ ⟨.aieml, 0, 10, true⟩ = .ok (g', answer) ∧
      g'.typesOf (g'.returnedValues ⟨2⟩) = [.vector 16 (.i 32)] := by
  have hshaped : ∀ op, sumGraph.Inside ⟨2⟩ op → sumGraph.WellShaped op :=
    fun _ hop => (sumGraph_generic hop).wellShaped
  obtain ⟨g', answer, h⟩ := sumGraph_lower ⟨.aieml, 0, 10, true⟩
  have hkeeps := lower_keeps_types sumGraph_history sumGraph_reads (by decide) sumGraph_validates
    hshaped h
  exact ⟨g', answer, h, hkeeps.1.returned⟩

end Graph

end SimdLowering
