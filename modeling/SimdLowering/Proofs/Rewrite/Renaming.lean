/-
What goes by another name after a splice.

A splice changes one name: where the result of the operation that goes was read, the result
of the last new operation is read now. Under that name the value has the type it had, and
whatever else was known of an operation under the root, its operands sorted out or the
readers of its results, is known still.
-/
import SimdLowering.Proofs.Rewrite.Lawful

set_option autoImplicit false

namespace SimdLowering

/-- The same access to other things. -/
def MemAccess.map {α β : Type} (f : α → β) (a : MemAccess α) : MemAccess β :=
  ⟨f a.source, a.indices.map f, a.trailing.map f⟩

namespace Graph

variable {g g' : Graph} {gone : List OpId} {func op d p : OpId} {b : BlockId}
  {v w old : ValueId} {r : Recipe} {k : OpKind}

theorem valueTy_of_hasValue (hv : g.HasValue v) : g.valueTy v = .ok (g.value v).ty := by
  rw [valueTy, lookup, value?_eq_some hv]
  rfl

section

variable (hs : Spliced g g' gone op b old r) (h : Scene g gone func)
  (hr : r.Lawful g func op)
include hs

/-- A value that was there, under its new name, is defined by what defined it, or it is the
old result and the last of the new operations defines it. -/
theorem Spliced.mem_results_renamed (hw : g.HasValue w) :
    renamed old (g.standIn r) w ∈ g'.results p ↔
      (w ≠ old ∧ w ∈ g.results p) ∨ (w = old ∧ p = ⟨g.ops.size + r.steps.length⟩) := by
  have hfresh : ¬ g.HasValue (g.standIn r) := not_hasValue_add r.steps.length
  have hstand : ∀ i, (⟨g.values.size + i⟩ : ValueId) = g.standIn r → i = r.steps.length := by
    intro i e
    simp only [standIn, ValueId.mk.injEq] at e
    omega
  constructor
  · intro hp
    -- The results of an operation that was there are kept; a made one has its own new value.
    rcases hs.hasOp_iff.mp (hasOp_of_mem_results hp) with hop | ⟨i, e, he, rfl⟩
    · rw [hs.results_of_hasOp hop] at hp
      have hval := hs.before.hasValue_of_mem_results hp
      unfold renamed at hp hval
      split at hp
      · next e =>
        rw [if_pos e] at hval
        exact absurd hval hfresh
      · next hne => exact Or.inl ⟨hne, hp⟩
    · rw [hs.results_made he, List.mem_singleton] at hp
      unfold renamed at hp
      split at hp
      · next e => exact Or.inr ⟨e, by rw [hstand i hp.symm]⟩
      · rw [hp] at hw
        exact absurd hw (not_hasValue_add i)
  · rintro (⟨hne, hp⟩ | ⟨rfl, rfl⟩)
    · rw [renamed, if_neg hne, hs.results_of_hasOp (hasOp_of_mem_results hp)]
      exact hp
    · rw [renamed, if_pos rfl, hs.results_made r.getElem?_all_final]
      exact List.mem_singleton_self _

include hr

theorem Spliced.kind_final (hk : k.isLowered = false ∨ k = .constant) :
    g'.kind ⟨g.ops.size + r.steps.length⟩ ≠ k := by
  rw [hs.kind_made r.getElem?_all_final]
  rintro rfl
  rcases hk with hk | hk
  · have := (hr.steps _ _ r.getElem?_all_final).lowered
    rw [hk] at this
    cases this
  · exact hr.ends hk

/-- A value that is a constant now was one before. -/
theorem Spliced.constantInt?_renamed (hw : g.HasValue w) {n : Int}
    (hc : g'.constantInt? (renamed old (g.standIn r) w) = .ok (some n)) :
    g.constantInt? w = .ok (some n) ∧ w ≠ old := by
  obtain ⟨p, hp, hk, hn⟩ := (constantInt?_eq_some hs.after).mp hc
  rcases (hs.mem_results_renamed hw).mp hp with ⟨hne, hp⟩ | ⟨-, rfl⟩
  · have hop := hasOp_of_mem_results hp
    rw [hs.kind_of_hasOp hop] at hk
    rw [hs.attrs_of_hasOp hop] at hn
    exact ⟨(constantInt?_eq_some hs.before).mpr ⟨p, hp, hk, hn⟩, hne⟩
  · exact absurd hk (hs.kind_final hr (Or.inr rfl))

theorem Spliced.ty_renamed_of_hasValue (hw : g.HasValue w) :
    (g'.value (renamed old (g.standIn r) w)).ty = (g.value w).ty := by
  unfold renamed
  split
  · next e => rw [hs.value_standIn hr, e]
  · rw [hs.value_of_hasValue hw]

omit hr in
theorem Spliced.hasValue_renamed (hw : g.HasValue w) :
    g'.HasValue (renamed old (g.standIn r) w) := by
  unfold renamed
  split
  · rw [HasValue, hs.valuesSize, standIn, r.length_all]
    exact Nat.add_lt_add_left (Nat.lt_succ_self _) _
  · exact hs.hasValue hw

include h

omit hr in
/-- What an operation under the function reads goes by the new name. -/
theorem Spliced.operands_of_inside (hd : g.Inside func d) :
    g'.operands d = (g.operands d).map (renamed old (g.standIn r)) := by
  rw [hs.operands_of_hasOp (hd.hasOp h.consistent.toNestingAgrees)]
  refine List.map_congr_left fun w hw => if_neg fun hgone => ?_
  rw [h.ordered.live d hd hgone] at hw
  cases hw

/-- The operands of a read, sorted out, are the ones it had, under their new names. -/
theorem Spliced.memAccess?_eq (hd : g.Inside func d) : g'.memAccess? d =
    Option.map (MemAccess.map (renamed old (g.standIn r))) <$> g.memAccess? d := by
  unfold memAccess?
  rw [hs.operands_of_inside h hd]
  cases hops : g.operands d with
  | nil => rfl
  | cons source rest =>
    have hsource : g.HasValue source :=
      h.ordered.hasValue_of_mem_operands h.consistent hd (by simp [hops])
    rw [List.map_cons, MemAccess.split?, MemAccess.split?,
      valueTy_of_hasValue (hs.hasValue_renamed hsource), hs.ty_renamed_of_hasValue hr hsource,
      valueTy_of_hasValue hsource]
    simp only [bind, Except.bind, pure, Except.pure, Functor.map, Except.map, List.length_map]
    split
    · rfl
    · simp [MemAccess.map]

theorem Spliced.memAccess?_of_eq_ok (hd : g.Inside func d) {access' : MemAccess ValueId}
    (ha : g'.memAccess? d = .ok (some access')) : ∃ access, g.memAccess? d = .ok (some access) ∧
      access' = access.map (renamed old (g.standIn r)) := by
  rw [hs.memAccess?_eq h hr hd] at ha
  obtain ⟨x, hx, ha⟩ := map_eq_ok.mp ha
  obtain ⟨access, rfl, rfl⟩ := Option.map_eq_some_iff.mp ha
  exact ⟨access, hx, rfl⟩

end

end Graph

end SimdLowering
