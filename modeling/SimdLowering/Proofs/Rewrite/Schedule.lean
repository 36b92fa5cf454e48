/-
A round, visit by visit.

A round lists the members of a block when it enters the block, and visits move the ground it
stands on: the operation visited may have left its block, and others stand where it stood.
All the same the visits of a round are fixed when it begins. They are the operations under
the root in post-order, and what a visit changes is behind the round: the operation visited,
and the list of a block that has been entered. So a round is a fold of visits over the
listing that was there at its start, and what is still to come of that listing is as it was.

Two more things are known at each visit. The operation lies under the root, and it sees no
result of an operation whose turn is still to come.
-/
import Mathlib.Logic.Relation
import SimdLowering.Proofs.Graph.Postorder
import SimdLowering.Proofs.Rewrite.Lawful
import SimdLowering.Proofs.Rewrite.Verification

set_option autoImplicit false

namespace SimdLowering

namespace Graph

variable {g g₀ g' : Graph} {gone : List OpId} {root o p q op : OpId} {b c : BlockId}
  {v old : ValueId}
  {r : Recipe} {rest : List OpId}

/-! ## Splices leave the rest of the listing alone -/

/-- Of two operations that were there, one comes before the other only if it did. -/
theorem Spliced.precedes_of (hs : Spliced g g' gone op b old r) (hp : g.HasOp p) (ho : g.HasOp o)
    (h : Precedes (g'.opsIn c) p o) : Precedes (g.opsIn c) p o := by
  obtain ⟨l₁, l₂, hl, hl', hother⟩ := hs.opsIn
  by_cases e : c = b
  · subst e
    have hold : ∀ q, g.HasOp q → q ∉ g.nextOps r.all.length := fun q hq h => nextOps_fresh h hq
    have hnews : (g.nextOps r.all.length).filter (fun q => decide (q ∉ g.nextOps r.all.length)) =
        [] := List.filter_eq_nil_iff.mpr (by simp)
    have hf := List.Sublist.filter (fun q => decide (q ∉ g.nextOps r.all.length)) h
    rw [hl', List.filter_append, List.filter_append, List.filter_cons_of_pos (by simp [hold p hp]),
      List.filter_cons_of_pos (by simp [hold o ho]), List.filter_nil, hnews, List.append_nil] at hf
    have hsub : (l₁ ++ l₂).Sublist (g.opsIn c) := by
      rw [hl]
      exact (List.sublist_append_right [op] l₂).append_left l₁
    exact (hf.trans (List.filter_sublist.append List.filter_sublist)).trans hsub
  · rwa [hother c e] at h

/-- An operation that was there sees no more of the old values than it did. -/
theorem Spliced.visible_of (hs : Spliced g g' gone op b old r) (h : g'.Visible root o v)
    (ho : g.HasOp o) (hne : o ≠ op) (hv : g.HasValue v) : g.Visible root o v := by
  induction h with
  | argument hmem harg =>
    rw [hs.argsOf] at harg
    exact .argument ((hs.mem_opsIn_of_ne ho hne).mp hmem) harg
  | @earlier c p o v hpre hmem =>
    -- New operations define new values only.
    rcases hs.hasOp_iff.mp (hasOp_of_mem_results hmem) with hp | ⟨i, d, hd, rfl⟩
    · rw [hs.results_of_hasOp hp] at hmem
      exact .earlier (hs.precedes_of hp ho hpre) hmem
    · rw [hs.results_made hd, List.mem_singleton] at hmem
      exact absurd hv (hmem ▸ not_hasValue_add i)
  | @outer q o s c v hroot hq hb hmem _ ih =>
    have hq' := (hs.mem_regionsOf).mp hq
    have hown := hasOp_of_mem_regionsOf hq'
    have hqop : q ≠ op := by
      rintro rfl
      rw [hs.bare] at hq'
      cases hq'
    rw [hs.blocksIn] at hb
    exact .outer hroot hq' hb ((hs.mem_opsIn_of_ne ho hne).mp hmem) (ih hown hqop hv)

theorem Spliced.unaware (hs : Spliced g g' gone op b old r) (ho : g.HasOp o) (hp : g.HasOp p)
    (hne : o ≠ op) (h : g.Unaware root o p) : g'.Unaware root o p := by
  refine ⟨h.1, fun v hv hvis => ?_⟩
  rw [hs.results_of_hasOp hp] at hv
  exact h.2 v hv (hs.visible_of hvis ho hne (hs.before.hasValue_of_mem_results hv))

/-- What is still to come of a listing of `g₀` is in `g` as it was: the same regions, the same
blocks around it, and the lists of blocks that no one has entered. -/
structure Pending (g₀ g : Graph) (root : OpId) (rest : List OpId) : Prop where
  blocks : ∀ r, g.blocksIn r = g₀.blocksIn r
  regions : ∀ o ∈ rest, g.regionsOf o = g₀.regionsOf o
  placed : ∀ o ∈ rest, g.blockOf? o = g₀.blockOf? o
  listed : ∀ b, (∀ o ∈ g₀.opsIn b, o ∈ rest) → g.opsIn b = g₀.opsIn b
  inside : ∀ o ∈ rest, g.Inside root o
  unaware : rest.Pairwise (g.Unaware root)

namespace Pending

/-- At its start a round has everything before it. -/
theorem start (hc : Consistent g gone) (acyclic : ¬ g.Inside root root) :
    Pending g g root (g.postorder root) :=
  ⟨fun _ => rfl, fun _ _ => rfl, fun _ _ => rfl, fun _ _ => rfl,
    fun _ ho => (mem_postorder hc acyclic).mp ho, pairwise_postorder hc acyclic⟩

variable (h : Pending g₀ g root (op :: rest))
include h

theorem tail : Pending g₀ g root rest :=
  ⟨h.blocks, fun o ho => h.regions o (List.mem_cons_of_mem _ ho),
    fun o ho => h.placed o (List.mem_cons_of_mem _ ho),
    fun b hb => h.listed b fun o ho => List.mem_cons_of_mem _ (hb o ho),
    fun o ho => h.inside o (List.mem_cons_of_mem _ ho), (List.pairwise_cons.mp h.unaware).2⟩

theorem head_not_mem : op ∉ rest := fun hmem => ((List.pairwise_cons.mp h.unaware).1 op hmem).1 rfl

/-- The operation whose turn it is sees no result of those that are still to come. -/
theorem not_visible (hq : q ∈ rest) (hv : v ∈ g.results q) : ¬ g.Visible root op v :=
  ((List.pairwise_cons.mp h.unaware).1 q hq).2 v hv

/-- A splice at the operation whose turn it is leaves the rest to come. -/
theorem spliced (hs : Spliced g g' gone op b old r) : Pending g₀ g' root rest := by
  have hne : ∀ o ∈ rest, o ≠ op := fun o ho e => h.head_not_mem (e ▸ ho)
  have hop : ∀ o ∈ rest, g.HasOp o := fun o ho =>
    (h.tail.inside o ho).hasOp hs.before.toNestingAgrees
  have hin := h.inside op (List.mem_cons_self ..)
  refine ⟨fun s => by rw [hs.blocksIn, h.blocks], fun o ho => ?_, fun o ho => ?_, fun c hc => ?_,
    fun o ho => ?_, ?_⟩
  · rw [hs.regionsOf_of_hasOp (hop o ho)]
    exact h.tail.regions o ho
  · rw [hs.blockOf?_of_ne (hop o ho) (hne o ho)]
    exact h.tail.placed o ho
  · -- The one list that changes holds the operation that has been visited.
    have hlist := h.tail.listed c hc
    have hcb : c ≠ b := by
      rintro rfl
      have hmem : op ∈ g.opsIn c := (hs.before.places op c).mpr hs.placed
      rw [hlist] at hmem
      exact h.head_not_mem (hc op hmem)
    obtain ⟨-, -, -, -, hother⟩ := hs.opsIn
    rw [hother c hcb, hlist]
  · exact (hs.inside_iff hin).mpr (Or.inl ⟨h.tail.inside o ho, hne o ho⟩)
  · exact h.tail.unaware.imp_of_mem fun ho hp hu => hs.unaware (hop _ ho) (hop _ hp) (hne _ ho) hu

end Pending

/-- What a visit may do to the graph: nothing, or a splice. -/
def Stirred (g g' : Graph) (op : OpId) : Prop :=
  g' = g ∨ ∃ gone b old r, Spliced g g' gone op b old r

theorem Pending.stirred (h : Pending g₀ g root (op :: rest)) (hs : Stirred g g' op) :
    Pending g₀ g' root rest := by
  rcases hs with rfl | ⟨gone, b, old, r, hs⟩
  · exact h.tail
  · exact h.spliced hs

end Graph

open SimdLowering.Graph

namespace Application

variable {rules : RuleSet} {target : ConversionTarget} {root op : OpId} {g₀ : Graph}
  {I : Application → Prop} {J : List OpId → Application → Prop} {rest : List OpId}
  {s s' t t' : Application}

/-- A visit to an operation under the root comes back. -/
def VisitTo (rules : RuleSet) (target : ConversionTarget) (root : OpId) (s s' : Application) :
    Prop :=
  ∃ op, s.graph.Inside root op ∧ s.visitOp rules target op = .ok s'

/-- Each visit that comes back splices at most, and keeps the invariant. -/
def VisitsKeep (rules : RuleSet) (target : ConversionTarget) (root : OpId)
    (I : Application → Prop) : Prop :=
  ∀ s op s', I s → s.graph.Inside root op → s.visitOp rules target op = .ok s' →
    I s' ∧ Stirred s.graph s'.graph op

/-! ## Folds over parts of the listing -/

/-- What each visit keeps holds wherever visits lead. -/
theorem VisitsKeep.visits (hkeep : VisitsKeep rules target root I) (hs : I s)
    (hv : Relation.ReflTransGen (VisitTo rules target root) s s') : I s' := by
  induction hv with
  | refl => exact hs
  | tail _ hstep ih =>
    obtain ⟨op, hin, hv⟩ := hstep
    exact (hkeep _ op _ ih hin hv).1

/-- The round is about to make the given visits, with the invariant in force. -/
def Due (g₀ : Graph) (root : OpId) (I : Application → Prop) (rest : List OpId) (s : Application) :
    Prop :=
  Pending g₀ s.graph root rest ∧ I s

section

variable (hkeep : VisitsKeep rules target root I)
include hkeep

theorem Due.visit (h : Due g₀ root I (op :: rest) s) (hv : s.visitOp rules target op = .ok s') :
    Due g₀ root I rest s' :=
  have hstep := hkeep s op s' h.2 (h.1.inside op (List.mem_cons_self ..)) hv
  ⟨h.1.stirred hstep.2, hstep.1⟩

theorem Due.visits {l : List OpId} (h : Due g₀ root I (l ++ rest) s)
    (hv : l.foldlM (visitOp rules target) s = .ok s') : Due g₀ root I rest s' :=
  foldlM_invariant (fun l s => Due g₀ root I (l ++ rest) s)
    (fun _ _ _ _ h hv => Due.visit hkeep h hv) h hv

/-- A run over a list that makes certain visits at each member makes all of them in turn. -/
theorem foldlM_visits {α : Type} {F : Application → α → Except Fault Application}
    {f : α → List OpId} {l : List α}
    (hF : ∀ x ∈ l, ∀ rest s, Due g₀ root I (f x ++ rest) s →
      F s x = (f x).foldlM (visitOp rules target) s)
    (h : Due g₀ root I (l.flatMap f ++ rest) s) :
    l.foldlM F s = (l.flatMap f).foldlM (visitOp rules target) s := by
  induction l generalizing s with
  | nil => rfl
  | cons x l ih =>
    rw [List.flatMap_cons, List.append_assoc] at h
    rw [List.foldlM_cons, List.flatMap_cons, List.foldlM_append,
      hF x (List.mem_cons_self ..) _ s h]
    cases hx : (f x).foldlM (visitOp rules target) s with
    | error e => rfl
    | ok t =>
      exact ih (fun y hy => hF y (List.mem_cons_of_mem _ hy)) (Due.visits hkeep h hx)

variable (hn : NestingAgrees g₀)
include hn

/-- A region is visited in post-order. -/
theorem visitRegion_eq_foldlM {d : Nat} {r : RegionId}
    (h : Due g₀ root I ((g₀.opsOfRegion r).flatMap (g₀.postorderWithin d) ++ rest) s) :
    visitRegion rules target d s r =
      ((g₀.opsOfRegion r).flatMap (g₀.postorderWithin d)).foldlM (visitOp rules target) s := by
  induction d generalizing r rest s with
  | zero =>
    have hnil : (g₀.opsOfRegion r).flatMap (g₀.postorderWithin 0) = [] :=
      List.flatMap_eq_nil_iff.mpr fun _ _ => rfl
    rw [hnil]
    rfl
  | succ d ih =>
    have visitMember : ∀ b, ∀ op ∈ g₀.opsIn b, ∀ rest s,
        Due g₀ root I (g₀.postorderWithin (d + 1) op ++ rest) s →
        (if s.graph.blockOf? op ≠ some b then .ok s
          else do
            let s ← (s.graph.regionsOf op).foldlM (visitRegion rules target d) s
            if s.graph.blockOf? op ≠ some b then return s
            else s.visitOp rules target op) =
          (g₀.postorderWithin (d + 1) op).foldlM (visitOp rules target) s := by
      intro b op hop rest s h
      have hplace := (hn.places op b).mp hop
      have hself : op ∈ g₀.postorderWithin (d + 1) op ++ rest :=
        List.mem_append_left _ (List.mem_append_right _ (List.mem_singleton_self op))
      have hblock : s.graph.blockOf? op = some b := (h.1.placed op hself).trans hplace
      rw [if_neg (not_not_intro hblock), h.1.regions op hself]
      rw [postorderWithin, innerOps, List.flatMap_assoc, List.append_assoc] at h
      have hregions : (g₀.regionsOf op).foldlM (visitRegion rules target d) s =
          ((g₀.regionsOf op).flatMap fun r =>
            (g₀.opsOfRegion r).flatMap (g₀.postorderWithin d)).foldlM (visitOp rules target) s :=
        foldlM_visits hkeep (fun r _ rest s h => ih h) h
      rw [postorderWithin, innerOps, List.flatMap_assoc, List.foldlM_append, hregions]
      cases hinner : ((g₀.regionsOf op).flatMap fun r =>
          (g₀.opsOfRegion r).flatMap (g₀.postorderWithin d)).foldlM (visitOp rules target) s with
      | error e => rfl
      | ok t =>
        -- What the operation holds has been visited, and it still lies where it lay.
        have ht := Due.visits hkeep h hinner
        have hblock : t.graph.blockOf? op = some b :=
          (ht.1.placed op (List.mem_cons_self ..)).trans hplace
        simp only [bind, Except.bind, List.foldlM_cons, List.foldlM_nil]
        rw [if_neg (not_not_intro hblock)]
        cases t.visitOp rules target op <;> rfl
    rw [opsOfRegion, List.flatMap_assoc] at h ⊢
    rw [visitRegion, h.1.blocks]
    refine foldlM_visits hkeep (fun b _ rest s h => ?_) h
    have hlist : s.graph.opsIn b = g₀.opsIn b := h.1.listed b fun o ho =>
      List.mem_append_left _ (List.mem_flatMap.mpr
        ⟨o, ho, List.mem_append_right _ (List.mem_singleton_self o)⟩)
    rw [hlist]
    exact foldlM_visits hkeep (visitMember b) h

end

/-! ## Rounds -/

section

variable (hkeep : VisitsKeep rules target root I)
  (hground : ∀ s, I s → ∃ gone, Consistent s.graph gone ∧ ¬ s.graph.Inside root root)
include hkeep hground

/-- The visits of a round are those to the operations under the root as it begins. -/
theorem round_eq_foldlM (hs : I s) : s.round rules target root =
    (s.graph.postorder root).foldlM (visitOp rules target) s := by
  obtain ⟨gone, hc, acyclic⟩ := hground s hs
  have hdue : Due s.graph root I (s.graph.postorder root ++ []) s := by
    rw [List.append_nil]
    exact ⟨.start hc acyclic, hs⟩
  rw [postorder, innerOps, List.flatMap_assoc] at hdue ⊢
  exact foldlM_visits hkeep (fun r _ rest t h =>
    visitRegion_eq_foldlM hkeep hc.toNestingAgrees h) hdue

/-- What holds at the start of a round and goes from visit to visit holds at its end. Each
visit may count on the invariant and on what is pending. -/
theorem round_induction (hs : I s) (start : J (s.graph.postorder root) s)
    (step : ∀ op rest t t', I t → Pending s.graph t.graph root (op :: rest) → J (op :: rest) t →
      t.visitOp rules target op = .ok t' → J rest t')
    (h : s.round rules target root = .ok s') : J [] s' ∧ I s' := by
  obtain ⟨gone, hc, acyclic⟩ := hground s hs
  rw [round_eq_foldlM hkeep hground hs] at h
  have := foldlM_invariant (fun rest t => Due s.graph root I rest t ∧ J rest t)
    (fun op rest t t' ⟨hdue, hJ⟩ hv =>
      ⟨Due.visit hkeep hdue hv, step op rest t t' hdue.2 hdue.1 hJ hv⟩)
    ⟨⟨.start hc acyclic, hs⟩, start⟩ h
  exact ⟨this.2, this.1.2⟩

/-- A round is a sequence of visits. -/
theorem round_visits (hs : I s) (h : s.round rules target root = .ok s') :
    Relation.ReflTransGen (VisitTo rules target root) s s' ∧ I s' :=
  round_induction (J := fun _ t => Relation.ReflTransGen (VisitTo rules target root) s t) hkeep
    hground hs .refl (fun op _ _ _ _ hp hJ hv =>
      hJ.tail ⟨op, hp.inside op (List.mem_cons_self ..), hv⟩) h

/-- So are all rounds together. -/
theorem rounds_visits {left done : Nat} {x : Application × Nat × Bool} (hs : I s)
    (h : rounds rules target root left done s = .ok x) :
    Relation.ReflTransGen (VisitTo rules target root) s x.1 ∧ I x.1 := by
  induction left generalizing done s with
  | zero =>
    cases h
    exact ⟨.refl, hs⟩
  | succ left ih =>
    obtain ⟨t, ht, h⟩ := bind_eq_ok.mp h
    obtain ⟨hst, htI⟩ := round_visits hkeep hground hs ht
    split at h
    · cases h
      exact ⟨hst, htI⟩
    · obtain ⟨htx, hx⟩ := ih htI h
      exact ⟨hst.trans htx, hx⟩

/-- What goes from round to round goes through all of them. -/
theorem rounds_keep {K : Application → Prop}
    (later : ∀ t t', I t → K t → t.round rules target root = .ok t' → I t' → K t')
    {left done : Nat} {x : Application × Nat × Bool} (hs : I s) (hK : K s)
    (h : rounds rules target root left done s = .ok x) : K x.1 := by
  induction left generalizing done s with
  | zero =>
    cases h
    exact hK
  | succ left ih =>
    obtain ⟨t, ht, h⟩ := bind_eq_ok.mp h
    have hI := (round_visits hkeep hground hs ht).2
    have hK := later s t hs hK ht hI
    split at h
    · cases h
      exact hK
    · exact ih hI hK h

/-- What holds after the first round and goes from round to round holds at the end, unless no
round was allowed. -/
theorem rounds_induction {K : Application → Prop} (hs : I s)
    (first : ∀ t, s.round rules target root = .ok t → I t → K t)
    (later : ∀ t t', I t → K t → t.round rules target root = .ok t' → I t' → K t')
    {left done : Nat} {x : Application × Nat × Bool}
    (h : rounds rules target root left done s = .ok x) : x.1 = s ∨ K x.1 := by
  cases left with
  | zero =>
    cases h
    exact Or.inl rfl
  | succ left =>
    obtain ⟨t, ht, h⟩ := bind_eq_ok.mp h
    have hI := (round_visits hkeep hground hs ht).2
    have hK := first t ht hI
    split at h
    · cases h
      exact Or.inr hK
    · exact Or.inr (rounds_keep hkeep hground later hI hK h)

end

end Application

end SimdLowering
