/-
Reasoning about plans.

A plan threads the list of steps emitted so far, and what is to be proved of a recipe is
proved of each step in turn: that it only reads what exists by then, or which value it
computes from the values before it. Both have the same shape, so it is fixed here once.
To every step an entry is noted that describes its result, the entries so far are the
context, and `G` says which entry a step may get in a context. A plan `Makes` a result if,
started in a context, all steps it emits get entries, and its answer has the wanted
property in the context at the end.

The context has the length of the list of steps, so that a step is read by its position
in either.
-/
import SimdLowering.Proofs.Rewrite.Creation

set_option autoImplicit false

namespace SimdLowering

variable {α β γ : Type} {G : List γ → Step → γ → Prop} {Γ Δ Θ : List γ}

/-- The steps get entries one after the other, each in the context of those before. -/
inductive Threads (G : List γ → Step → γ → Prop) : List γ → List Step → List γ → Prop
  | nil {Γ : List γ} : Threads G Γ [] Γ
  | cons {Γ Δ : List γ} {d : Step} {ds : List Step} {y : γ} :
      G Γ d y → Threads G (Γ ++ [y]) ds Δ → Threads G Γ (d :: ds) Δ

theorem Threads.append {ds es : List Step} (h₁ : Threads G Γ ds Δ) (h₂ : Threads G Δ es Θ) :
    Threads G Γ (ds ++ es) Θ := by
  induction h₁ with
  | nil => exact h₂
  | cons hd _ ih => exact .cons hd (ih h₂)

theorem Threads.length {ds : List Step} (h : Threads G Γ ds Δ) :
    Δ.length = Γ.length + ds.length := by
  induction h with
  | nil => rfl
  | cons _ _ ih =>
    rw [ih, List.length_append, List.length_singleton, List.length_cons]
    omega

/-- A context only grows. -/
theorem Threads.exists_append {ds : List Step} (h : Threads G Γ ds Δ) : ∃ Θ, Δ = Γ ++ Θ := by
  induction h with
  | nil => exact ⟨[], by simp⟩
  | @cons Γ Δ d ds y _ _ ih =>
    obtain ⟨Θ, rfl⟩ := ih
    exact ⟨y :: Θ, by simp⟩

/-- Every step got its entry in the context of the steps before it. -/
theorem Threads.getElem? {ds : List Step} (h : Threads G Γ ds Δ) {i : Nat} {d : Step}
    (hd : ds[i]? = some d) :
    ∃ y, Δ[Γ.length + i]? = some y ∧ G (Δ.take (Γ.length + i)) d y := by
  induction h generalizing i with
  | nil => cases hd
  | @cons Γ Δ e ds y hG ht ih =>
    obtain ⟨Θ, rfl⟩ := ht.exists_append
    cases i with
    | zero =>
      obtain rfl := Option.some.inj hd
      refine ⟨y, ?_, ?_⟩
      · simp
      · simpa using hG
    | succ i =>
      obtain ⟨z, hz, hGz⟩ := ih hd
      have hlen : (Γ ++ [y]).length + i = Γ.length + (i + 1) := by
        rw [List.length_append, List.length_singleton]
        omega
      rw [hlen] at hz hGz
      exact ⟨z, hz, hGz⟩

namespace Plan

/-! ## Running -/

theorem run_bind (p : Plan α) (f : α → Plan β) (l : List Step) :
    (p >>= f).run l = (f (p.run l).1).run (p.run l).2 := rfl

theorem run_emit (d : Step) (l : List Step) :
    (emit d).run l = (⟨.step l.length, d.resultType⟩, l ++ [d]) := rfl

/-! ## What every step satisfies -/

/-- Started in a context, the plan gives entries to all steps it emits, and its answer
has the property in the context it ends with. -/
def Makes (G : List γ → Step → γ → Prop) (p : Plan α) (Γ : List γ)
    (Q : List γ → α → Prop) : Prop :=
  ∀ l : List Step, l.length = Γ.length →
    ∃ new Δ, (p.run l).2 = l ++ new ∧ Threads G Γ new Δ ∧ Q Δ (p.run l).1

theorem Makes.pure {Q : List γ → α → Prop} {a : α} (h : Q Γ a) :
    Makes G (Pure.pure a : Plan α) Γ Q := by
  intro l _
  exact ⟨[], Γ, (List.append_nil l).symm, .nil, h⟩

theorem Makes.bind {p : Plan α} {f : α → Plan β} {P : List γ → α → Prop}
    {Q : List γ → β → Prop} (hp : Makes G p Γ P)
    (hf : ∀ Δ a, (∃ Θ, Δ = Γ ++ Θ) → P Δ a → Makes G (f a) Δ Q) : Makes G (p >>= f) Γ Q := by
  intro l hl
  obtain ⟨new, Δ, hrun, ht, ha⟩ := hp l hl
  have hlen : (p.run l).2.length = Δ.length := by
    rw [hrun, ht.length, List.length_append, hl]
  obtain ⟨new', Θ, hrun', ht', hb⟩ := hf Δ _ ht.exists_append ha _ hlen
  refine ⟨new ++ new', Θ, ?_, ht.append ht', hb⟩
  change ((f (p.run l).1).run (p.run l).2).2 = _
  rw [hrun', hrun, List.append_assoc]

/-- An emitted step is read by its position. -/
theorem Makes.emit {Q : List γ → Operand Source → Prop} {d : Step} {y : γ} (hd : G Γ d y)
    (h : Q (Γ ++ [y]) ⟨.step Γ.length, d.resultType⟩) : Makes G (Plan.emit d) Γ Q := by
  intro l hl
  refine ⟨[d], Γ ++ [y], rfl, .cons hd .nil, ?_⟩
  rw [← hl] at h
  exact h

theorem Makes.mono {p : Plan α} {P Q : List γ → α → Prop} (h : Makes G p Γ P)
    (hPQ : ∀ Δ a, (∃ Θ, Δ = Γ ++ Θ) → P Δ a → Q Δ a) : Makes G p Γ Q := by
  intro l hl
  obtain ⟨new, Δ, hrun, ht, ha⟩ := h l hl
  exact ⟨new, Δ, hrun, ht, hPQ Δ _ ht.exists_append ha⟩

/-- Emit a step and go on with its result. -/
theorem Makes.emit_bind {f : Operand Source → Plan β} {Q : List γ → β → Prop} {d : Step} {y : γ}
    (hd : G Γ d y) (h : Makes G (f ⟨.step Γ.length, d.resultType⟩) (Γ ++ [y]) Q) :
    Makes G (Plan.emit d >>= f) Γ Q := by
  refine Makes.bind (P := fun Δ a => Δ = Γ ++ [y] ∧ a = ⟨.step Γ.length, d.resultType⟩)
    (.emit hd ⟨rfl, rfl⟩) ?_
  rintro Δ a - ⟨rfl, rfl⟩
  exact h

/-- A fold of plans keeps what each of its rounds keeps. -/
theorem Makes.foldlM {f : α → β → Plan α} {I : List β → List γ → α → Prop}
    (step : ∀ x xs Γ a, I (x :: xs) Γ a → Makes G (f a x) Γ (I xs)) {l : List β} {a : α}
    (h : I l Γ a) : Makes G (l.foldlM f a) Γ (I []) := by
  induction l generalizing Γ a with
  | nil => exact .pure h
  | cons x xs ih =>
    rw [List.foldlM_cons]
    exact (step x xs Γ a h).bind fun Δ a' _ ha' => ih ha'

/-- The steps of a recipe made by a plan got entries, and the last step has the property
in the context of all others. -/
theorem Makes.toRecipe {p : Plan Step} {Q : List γ → Step → Prop} (h : Makes G p [] Q) :
    ∃ Δ, Threads G [] p.toRecipe.steps Δ ∧ Q Δ p.toRecipe.final := by
  obtain ⟨new, Δ, hrun, ht, hQ⟩ := h [] rfl
  have hsteps : p.toRecipe.steps = new := hrun
  exact ⟨Δ, by rw [hsteps]; exact ht, hQ⟩

/-- What is asked of every step alone, in no matter which context, is true of all of the recipe. -/
theorem Makes.forall_mem {p : Plan Step} {P : Step → Prop}
    (h : Makes (fun (_ : List Unit) d _ => P d) p [] fun _ d => P d) : ∀ d ∈ p.toRecipe.all,
      P d := by
  obtain ⟨Δ, hsteps, hfinal⟩ := h.toRecipe
  intro d hd
  rcases List.mem_append.mp hd with hd | hd
  · obtain ⟨i, hi⟩ := List.mem_iff_getElem?.mp hd
    obtain ⟨-, -, hP⟩ := hsteps.getElem? hi
    exact hP
  · rw [List.mem_singleton.mp hd]
    exact hfinal

end Plan

end SimdLowering
