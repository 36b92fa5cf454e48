/-
What verification looks at.

A walk that passes over nothing sees the pre-order listing, so to verify a root is to ask
for a verdict on each nested operation in that order, with the sizes handed on from one to
the next.
-/
import SimdLowering.Proofs.Rewrite.Lawful

set_option autoImplicit false

namespace SimdLowering

/-- What a walk found, as a run that fails with the answer it was stopped with. -/
def walkRun {σ β : Type} : σ × Option β → Except β σ
  | (s, none) => .ok s
  | (_, some b) => .error b

/-- One visit, as a run that fails where the visitor wants to stop. -/
def visitRun {σ β : Type} : σ × Visit β → Except β σ
  | (_, .stop b) => .error b
  | (s, _) => .ok s

namespace Graph

variable {σ β α : Type} {g : Graph} {f : OpId → σ → σ × Visit β}

/-- Visiting each member of a list is a fold. -/
theorem walkRun_visitEach {visit : α → σ → σ × Option β} {l : List α} {s : σ} :
    walkRun (visitEach visit l s) = l.foldlM (fun s x => walkRun (visit x s)) s := by
  induction l generalizing s with
  | nil => rfl
  | cons x xs ih =>
    rw [visitEach, List.foldlM_cons]
    rcases visit x s with ⟨s', none | b⟩
    · exact ih
    · rfl

theorem foldlM_congr {ε : Type} {f f' : σ → α → Except ε σ} {l : List α} {s : σ}
    (h : ∀ s x, f s x = f' s x) : l.foldlM f s = l.foldlM f' s := by
  rw [funext fun s => funext (h s)]

theorem foldlM_flatMap {ε γ : Type} {f : σ → α → Except ε σ} {k : γ → List α} {l : List γ}
    {s : σ} : (l.flatMap k).foldlM f s = l.foldlM (fun s x => (k x).foldlM f s) s := by
  induction l generalizing s with
  | nil => rfl
  | cons x xs ih =>
    rw [List.flatMap_cons, List.foldlM_append, List.foldlM_cons]
    exact congrArg _ (funext fun _ => ih)

section

variable (descends : ∀ o s, (f o s).2 ≠ .skip)
include descends

/-- A walk that passes over nothing visits the pre-order listing. -/
theorem walkRun_walkWithin {d : Nat} {o : OpId} {s : σ} :
    walkRun (g.walkWithin f d o s) =
      (g.preorderWithin d o).foldlM (fun s x => visitRun (f x s)) s := by
  induction d generalizing o s with
  | zero => rfl
  | succ d ih =>
    rw [walkWithin, preorderWithin, List.foldlM_cons]
    have hskip := descends o s
    generalize f o s = r at hskip ⊢
    obtain ⟨s', visit⟩ := r
    cases visit with
    | skip => exact absurd rfl hskip
    | stop b => rfl
    | descend =>
      dsimp only
      rw [walkRun_visitEach, foldlM_congr fun s x => ih, ← foldlM_flatMap]
      rfl

theorem walkRun_walkInside {root : OpId} {s : σ} :
    walkRun (g.walkInside f root s) =
      (g.nested root).foldlM (fun s x => visitRun (f x s)) s := by
  have ops : ∀ b s, walkRun (g.walkBlock f b s) =
      (g.opsIn b).foldlM (fun s x => (g.preorder x).foldlM (fun s x => visitRun (f x s)) s) s := by
    intro b s
    rw [walkBlock, walkRun_visitEach]
    exact foldlM_congr fun s x => walkRun_walkWithin descends
  have blocks : ∀ r s, walkRun (g.walkRegion f r s) = (g.opsOfRegion r).foldlM
      (fun s x => (g.preorder x).foldlM (fun s x => visitRun (f x s)) s) s := by
    intro r s
    rw [walkRegion, walkRun_visitEach, opsOfRegion, foldlM_flatMap]
    exact foldlM_congr fun s b => ops b s
  rw [walkInside, walkRun_visitEach, nested, foldlM_flatMap, innerOps, foldlM_flatMap]
  exact foldlM_congr fun s r => blocks r s

end

end Graph

namespace ConversionTarget

variable {t : ConversionTarget} {g : Graph} {gone : List OpId} {root : OpId}

/-- Ask for a verdict on an operation, and note it if it may not stay. -/
def note (t : ConversionTarget) (g : Graph) (s : List IllegalOp × AccessSizes) (op : OpId) :
    Except Fault (List IllegalOp × AccessSizes) := do
  let (verdict, sizes) ← t.legality g op s.2
  return (if verdict = .illegal then s.1 ++ [⟨op, g.kind op⟩] else s.1, sizes)

/-- To verify is to ask for a verdict on each nested operation in turn. -/
theorem verify_eq_foldlM {sizes : AccessSizes} :
    t.verify g root sizes = (g.nested root).foldlM (t.note g) ([], sizes) := by
  have descends : ∀ o s, (t.inspect g o s).2 ≠ .skip := by
    intro o s
    unfold inspect
    split <;> simp
  have visits : ∀ s o, visitRun (t.inspect g o s) = t.note g s o := by
    intro s o
    unfold inspect note
    cases t.legality g o s.2 with
    | error e => rfl
    | ok p =>
      obtain ⟨verdict, sizes⟩ := p
      cases verdict <;> rfl
  have h : walkRun (g.walkInside (t.inspect g) root ([], sizes)) = _ :=
    Graph.walkRun_walkInside descends
  rw [Graph.foldlM_congr visits] at h
  rw [← h, verify]
  rcases g.walkInside (t.inspect g) root ([], sizes) with ⟨s, none | e⟩ <;> rfl

/-- The verdicts on some operations, each asked for with the sizes that are known after the ones
before. -/
def verdicts (t : ConversionTarget) (g : Graph) :
    List OpId → AccessSizes → Except Fault (List (OpId × Legality) × AccessSizes)
  | [], c => .ok ([], c)
  | o :: l, c => do
    let (verdict, c) ← t.legality g o c
    let (rest, c) ← t.verdicts g l c
    return ((o, verdict) :: rest, c)

end ConversionTarget

/-- The operations that are illegal by their verdicts, in order. -/
def Graph.refused (g : Graph) (verdicts : List (OpId × Legality)) : List IllegalOp :=
  (verdicts.filter fun v => v.2 = .illegal).map fun v => ⟨v.1, g.kind v.1⟩

namespace ConversionTarget

variable {t : ConversionTarget} {g : Graph} {gone : List OpId} {root : OpId} {c : AccessSizes}

theorem foldlM_note {l : List OpId} {found : List IllegalOp} :
    l.foldlM (t.note g) (found, c) =
      (t.verdicts g l c).map fun s => (found ++ g.refused s.1, s.2) := by
  induction l generalizing found c with
  | nil => simp [verdicts, Graph.refused, pure, Except.pure, Except.map]
  | cons o l ih =>
    rw [List.foldlM_cons, verdicts, note]
    cases t.legality g o c with
    | error e => rfl
    | ok answer =>
      obtain ⟨verdict, c'⟩ := answer
      change l.foldlM (t.note g) _ = _
      rw [ih]
      change _ = (t.verdicts g l c' >>= fun s => .ok ((o, verdict) :: s.1, s.2)).map _
      cases t.verdicts g l c' with
      | error e => rfl
      | ok s =>
        apply congrArg Except.ok
        by_cases hverdict : verdict = .illegal <;> simp [Graph.refused, hverdict]

/-- Verification reports the operations that are illegal by the verdicts on all that is nested,
asked for in pre-order. -/
theorem verify_eq_verdicts : t.verify g root c =
    (t.verdicts g (g.nested root) c).map fun s => (g.refused s.1, s.2) := by
  rw [verify_eq_foldlM, foldlM_note]
  rfl

/-- Verdicts that do not depend on what one can come to know of the sizes are given in any
order. -/
theorem verdicts_of_verdict {verdict : OpId → Legality} {l : List OpId} (K : AccessSizes → Prop)
    (h : ∀ o ∈ l, ∀ c, K c → ∃ c', t.legality g o c = .ok (verdict o, c') ∧ K c') (hc : K c) :
    ∃ c', K c' ∧ t.verdicts g l c = .ok (l.map fun o => (o, verdict o), c') := by
  induction l generalizing c with
  | nil => exact ⟨c, hc, rfl⟩
  | cons o l ih =>
    obtain ⟨c₁, hfirst, hc₁⟩ := h o (List.mem_cons_self ..) c hc
    obtain ⟨c₂, hc₂, hrest⟩ := ih (fun p hp => h p (List.mem_cons_of_mem _ hp)) hc₁
    refine ⟨c₂, hc₂, ?_⟩
    rw [verdicts, hfirst]
    change (t.verdicts g l c₁ >>= _) = _
    rw [hrest]
    rfl

/-- Then verification reports all that is illegal. -/
theorem verify_of_verdict {verdict : OpId → Legality} (K : AccessSizes → Prop)
    (h : ∀ o ∈ g.nested root, ∀ c, K c → ∃ c', t.legality g o c = .ok (verdict o, c') ∧ K c')
    (hc : K c) : ∃ c', K c' ∧ t.verify g root c =
      .ok (((g.nested root).filter fun o => verdict o = .illegal).map fun o => ⟨o, g.kind o⟩,
        c') := by
  obtain ⟨c', hc', hverdicts⟩ := verdicts_of_verdict K h hc
  refine ⟨c', hc', ?_⟩
  rw [verify_eq_verdicts, hverdicts]
  apply congrArg Except.ok
  change (g.refused _, c') = _
  rw [Graph.refused, List.filter_map, List.map_map]
  rfl

/-- Verification reports each nested operation that is illegal whatever sizes are known. -/
theorem mem_of_verify {sizes sizes' : AccessSizes} {ops : List IllegalOp} {op : OpId}
    (h : t.verify g root sizes = .ok (ops, sizes')) (hop : op ∈ g.nested root)
    (hillegal : ∀ c v c', t.legality g op c = .ok (v, c') → v = .illegal) :
    ⟨op, g.kind op⟩ ∈ ops := by
  rw [verify_eq_foldlM] at h
  have hend := foldlM_invariant (I := fun rest s => op ∈ rest ∨ ⟨op, g.kind op⟩ ∈ s.1)
    (fun x rest s s' hI hnote => ?_) (Or.inl hop) h
  · exact hend.resolve_left List.not_mem_nil
  · obtain ⟨⟨verdict, c⟩, hlegal, hnote⟩ := bind_eq_ok.mp hnote
    cases hnote
    rcases hI with hmem | hmem
    · rcases List.mem_cons.mp hmem with rfl | hmem
      · right
        simp [hillegal _ _ _ hlegal]
      · exact Or.inl hmem
    · right
      dsimp only
      split
      · exact List.mem_append_left _ hmem
      · exact hmem

/-- In a scene, a target that has a verdict on everything can be verified, unless a number is too
large. -/
theorem verify_total (ht : t.Total) (h : Graph.Scene g gone root) (sizes : AccessSizes) :
    YieldsUnless (g.OverflowsUnder root) (t.verify g root sizes) fun _ => True := by
  rw [verify_eq_foldlM]
  refine .foldlM fun o ho s => ?_
  have hin := Graph.mem_nested_iff.mp ho
  exact ((ht g gone root o s.2 h hin).weaken fun _ he => he.under hin).bind fun _ _ => .pure trivial

end ConversionTarget

end SimdLowering
