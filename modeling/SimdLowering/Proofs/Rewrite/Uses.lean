/-
Who reads what after a splice.

Rules and checks look at the readers of a value: a product may stay while a single sum reads
it, and what a load contributes depends on the loads that carry it. After a splice a value that was
there is read by whom it was, less the operation that goes, and by the new operations that name
it, and the result of a step is read by the later steps that name the step. A rule names only
values that are at hand, so a value whose readers are neither the operation visited nor of a kind
that rules look through gets no new readers.
-/
import SimdLowering.Proofs.Graph.Postorder
import SimdLowering.Proofs.Rewrite.Renaming

set_option autoImplicit false

namespace SimdLowering

namespace Graph

variable {g g' : Graph} {gone : List OpId} {func op d p : OpId} {b : BlockId} {i : Nat}
  {v w old : ValueId} {r : Recipe} {k : OpKind} {u : Use} {R : ValueId → Prop}

/-! ## Chains as sets -/

/-- No reader is on a chain twice, so a chain with one member has length one. -/
theorem Consistent.uses_eq_singleton (hc : Consistent g gone) :
    g.uses v = [u] ↔ ∀ w, w ∈ g.uses v ↔ w = u := by
  constructor
  · intro h w
    rw [h, List.mem_singleton]
  · intro h
    refine List.perm_singleton.mp ((List.perm_ext_iff_of_nodup (hc.readOnce v)
      (List.nodup_singleton u)).mpr fun w => ?_)
    rw [h, List.mem_singleton]

/-- A value read by an operation that has not been removed has that reader on its chain. -/
theorem Consistent.mem_uses_of_mem_operands (hc : Consistent g gone) (hd : d ∉ gone)
    (hv : v ∈ g.operands d) : ∃ u ∈ g.uses v, u.user = d := by
  obtain ⟨i, hi⟩ := List.mem_iff_getElem?.mp hv
  exact ⟨⟨d, i⟩, (hc.reads v ⟨d, i⟩).mpr ⟨hd, hi⟩, rfl⟩

theorem Consistent.mem_operands_of_mem_uses (hc : Consistent g gone) (hu : u ∈ g.uses v) :
    v ∈ g.operands u.user :=
  List.mem_of_getElem? ((hc.reads v u).mp hu).2

theorem hasSingleUseBy_iff : g.hasSingleUseBy op k = true ↔
    ∃ v u, (g.results op).head? = some v ∧ g.uses v = [u] ∧ g.kind u.user = k := by
  unfold hasSingleUseBy
  cases (g.results op).head? with
  | none => simp
  | some v =>
    cases huses : g.uses v with
    | nil => simp [huses]
    | cons u rest =>
      cases rest with
      | nil => simp [huses]
      | cons u' rest => simp [huses]

/-- What operations under the root read is read by operations that have not been removed. -/
theorem Scene.not_mem_gone (h : Scene g gone func) (hd : g.Inside func d)
    (hv : v ∈ g.operands d) : d ∉ gone := by
  intro hgone
  rw [h.ordered.live d hd hgone] at hv
  cases hv

/-! ## Readers after a splice -/

/-- Under its new name an operand that was there is an old value exactly if it was. -/
theorem renamed_eq_iff (hv : g.HasValue v) (hne : v ≠ old) :
    renamed old (g.standIn r) w = v ↔ w = v := by
  have hfresh : g.standIn r ≠ v := by
    rintro rfl
    exact not_hasValue_add _ hv
  unfold renamed
  split
  · next e => exact iff_of_false hfresh fun h => hne (h.symm.trans e)
  · rfl

namespace Spliced

variable (hs : Spliced g g' gone op b old r)
include hs

/-- The result that goes is a result of nothing else. -/
theorem eq_of_old_mem_results (hold : old ∈ g.results d) : d = op :=
  hs.before.eq_of_mem_results hold (by simp [hs.single])

/-- The result of a step has no other name. -/
theorem renamed_step (j : Nat) :
    renamed old (g.standIn r) ⟨g.values.size + j⟩ = ⟨g.values.size + j⟩ := by
  refine if_neg ?_
  rintro rfl
  exact not_hasValue_add j hs.hasValue_old

/-- Whoever reads a value now read something before that goes by its name now, or is one of
the new operations. -/
theorem mem_uses_iff : u ∈ g'.uses v ↔
    (u.user ≠ op ∧ ∃ w, u ∈ g.uses w ∧ renamed old (g.standIn r) w = v) ∨
      ∃ i d source, r.all[i]? = some d ∧ u.user = ⟨g.ops.size + i⟩ ∧
        d.operands[u.slot]? = some source ∧
        renamed old (g.standIn r) (source.valueFrom g.values.size) = v := by
  rw [hs.after.reads, List.mem_cons, not_or]
  constructor
  -- A reader was there before and follows the renaming, or it was made and reads its sources.
  · rintro ⟨⟨hop, hgone⟩, hslot⟩
    rcases hs.hasOp_iff.mp (hasOp_of_mem_operands (List.mem_of_getElem? hslot)) with
      ho | ⟨i, d, hd, huser⟩
    · rw [hs.operands_of_hasOp ho, List.getElem?_map] at hslot
      obtain ⟨w, hw, hread⟩ := Option.map_eq_some_iff.mp hslot
      rw [readAs, if_neg hgone] at hread
      exact Or.inl ⟨hop, w, (hs.before.reads w u).mpr ⟨hgone, hw⟩, hread⟩
    · rw [huser, hs.operands_made hd, List.getElem?_map, List.getElem?_map, Option.map_map] at hslot
      obtain ⟨source, hsource, hread⟩ := Option.map_eq_some_iff.mp hslot
      exact Or.inr ⟨i, d, source, hd, huser, hsource, hread⟩
  · rintro (⟨hop, w, hu, hread⟩ | ⟨i, d, source, hd, huser, hslot, hread⟩)
    · obtain ⟨hgone, hslot⟩ := (hs.before.reads w u).mp hu
      refine ⟨⟨hop, hgone⟩, ?_⟩
      rw [hs.operands_of_hasOp (hasOp_of_mem_operands (List.mem_of_getElem? hslot)),
        List.getElem?_map, hslot, Option.map_some, readAs, if_neg hgone, hread]
    · have hnew : ¬ g.HasOp u.user := huser ▸ not_hasOp_add i
      refine ⟨⟨fun e => hnew (e ▸ hs.hasOp_op), fun hgone => hnew (hs.before.known _ hgone)⟩, ?_⟩
      rw [huser, hs.operands_made hd, List.getElem?_map, List.getElem?_map, hslot]
      exact congrArg some hread

/-- The readers of a value that was there. -/
theorem mem_uses_of_hasValue (hv : g.HasValue v) (hne : v ≠ old) :
    u ∈ g'.uses v ↔ (u ∈ g.uses v ∧ u.user ≠ op) ∨ ∃ i d, r.all[i]? = some d ∧
      u.user = ⟨g.ops.size + i⟩ ∧ d.operands[u.slot]? = some (.value v) := by
  rw [hs.mem_uses_iff]
  constructor
  · rintro (⟨hop, w, hu, hread⟩ | ⟨i, d, source, hd, huser, hslot, hread⟩)
    · rw [renamed_eq_iff hv hne] at hread
      exact Or.inl ⟨hread ▸ hu, hop⟩
    · rw [renamed_eq_iff hv hne] at hread
      cases source with
      | value w =>
        have hread : w = v := hread
        exact Or.inr ⟨i, d, hd, huser, hread ▸ hslot⟩
      | step j => exact absurd hv (hread ▸ not_hasValue_add j)
  · rintro (⟨hu, hop⟩ | ⟨i, d, hd, huser, hslot⟩)
    · exact Or.inl ⟨hop, v, hu, (renamed_eq_iff hv hne).mpr rfl⟩
    · exact Or.inr ⟨i, d, _, hd, huser, hslot, (renamed_eq_iff hv hne).mpr rfl⟩

section

variable (hr : r.Fine (g.Visible func op))
  (hreads : ∀ o, o ∉ gone → ∀ v ∈ g.operands o, g.HasValue v)
include hr hreads

/-- The readers of the result of a step that is not the last one. -/
theorem mem_uses_step (hi : i < r.steps.length) :
    u ∈ g'.uses ⟨g.values.size + i⟩ ↔ ∃ j d, r.all[j]? = some d ∧
      u.user = ⟨g.ops.size + j⟩ ∧ d.operands[u.slot]? = some (.step i) := by
  -- No value that was there goes by the name of the result.
  have hnew : ∀ w, g.HasValue w → renamed old (g.standIn r) w ≠ ⟨g.values.size + i⟩ := by
    intro w hw hread
    unfold renamed at hread
    split at hread
    · rw [standIn, ValueId.mk.injEq] at hread
      omega
    · exact not_hasValue_add i (hread ▸ hw)
  rw [hs.mem_uses_iff]
  constructor
  · rintro (⟨-, w, hu, hread⟩ | ⟨j, d, source, hd, huser, hslot, hread⟩)
    · obtain ⟨hgone, hslot⟩ := (hs.before.reads w u).mp hu
      exact absurd hread (hnew w (hreads _ hgone w (List.mem_of_getElem? hslot)))
    · refine ⟨j, d, hd, huser, ?_⟩
      cases source with
      | value w =>
        have hvis : g.Visible func op w := (hr j d hd).reads _ (List.mem_of_getElem? hslot)
        exact absurd hread (hnew w (hvis.hasValue hs.before))
      | step l =>
        rw [Source.valueFrom, hs.renamed_step, ValueId.mk.injEq, Nat.add_left_cancel_iff] at hread
        rw [hslot, hread]
  · rintro ⟨j, d, hd, huser, hslot⟩
    exact Or.inr ⟨j, d, _, hd, huser, hslot, hs.renamed_step i⟩

end

/-- A value that the operation visited does not read, nor anyone that rules look through,
keeps its readers and gets no new ones. -/
theorem mem_uses_of_opaque (hin : g.Inside func op) (hr : r.Lawful g func op)
    (hv : g.HasValue v) (hne : v ≠ old)
    (hread : ∀ d, g.Inside func d → v ∈ g.operands d →
      d ≠ op ∧ (g.kind d).isTransparent = false) : u ∈ g'.uses v ↔ u ∈ g.uses v := by
  rw [hs.mem_uses_of_hasValue hv hne]
  constructor
  · rintro (⟨hu, -⟩ | ⟨i, d, hd, -, hslot⟩)
    · exact hu
    · have hhand : g.AtHand func op v := (hr.fine i d hd).reads _ (List.mem_of_getElem? hslot)
      obtain ⟨x, hx, hvx, hkind⟩ := hhand.reader
      obtain ⟨hxop, hkept⟩ := hread x hx hvx
      rcases hkind with rfl | hkind
      · exact absurd rfl hxop
      · rw [hkept] at hkind
        cases hkind
  · intro hu
    refine Or.inl ⟨hu, fun e => ?_⟩
    have hmem := hs.before.mem_operands_of_mem_uses hu
    exact (hread op hin (e ▸ hmem)).1 rfl

end Spliced

end Graph

end SimdLowering
