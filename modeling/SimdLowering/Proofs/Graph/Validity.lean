/-
What it takes to validate.

Of a graph whose tables agree, validation asks three things: that every operation under
the root reads only what it can see, that none of them has been removed from the chains,
and that whoever reads a value defined under the root lies under the root too. The last
is what a rewrite has to care about most: an operation that a rule creates and nobody
places is a reader outside the root.
-/
import SimdLowering.Proofs.Graph.Order

set_option autoImplicit false

namespace SimdLowering

namespace Graph

variable {g g' : Graph} {gone : List OpId} {root o p : OpId} {b : BlockId} {v : ValueId}

/-- The value is an argument of a block under the root or a result of an operation
there. -/
def DefinedUnder (g : Graph) (root : OpId) (v : ValueId) : Prop :=
  (∃ b, g.HoldsBlock root b ∧ v ∈ g.argsOf b) ∨ ∃ o, g.Inside root o ∧ v ∈ g.results o

/-- What is under the root is in order. The first condition is not a matter of
validation, which does not come back from a root that lies inside itself. -/
structure Ordered (g : Graph) (root : OpId) (gone : List OpId) : Prop where
  acyclic : ¬ g.Inside root root
  visible : ∀ o, g.Inside root o → ∀ v ∈ g.operands o, g.Visible root o v
  live : ∀ o, g.Inside root o → o ∈ gone → g.operands o = []

/-- What is under the root is in order, and nobody outside reads it. -/
structure Valid (g : Graph) (root : OpId) (gone : List OpId) : Prop
    extends Ordered g root gone where
  enclosed : ∀ v o, g.DefinedUnder root v → o ∉ gone → v ∈ g.operands o → g.Inside root o

/-! ## Readers outside the root -/

/-- The values defined under the root, in the order in which they were created. -/
def definedUnder (g : Graph) (root : OpId) : List ValueId :=
  ((List.range g.values.size).map ValueId.mk).filter fun v => v ∈ g.valuesUnder root

/-- The readings of a value by operations that do not lie under the root, in the order of the
chain. -/
def readsOutside (g : Graph) (root : OpId) (v : ValueId) : List Use :=
  (g.uses v).filter fun u => u.user ∉ g.nested root

theorem DefinedUnder.hasValue (hc : Consistent g gone) (h : g.DefinedUnder root v) :
    g.HasValue v := by
  rcases h with ⟨b, -, hv⟩ | ⟨p, -, hv⟩
  · obtain ⟨i, hi⟩ := List.mem_iff_getElem?.mp hv
    exact hasValue_of_originOf? ((hc.takes b i v).mp hi)
  · exact hc.hasValue_of_mem_results hv

theorem mem_definedUnder (hc : Consistent g gone) (acyclic : ¬ g.Inside root root) :
    v ∈ g.definedUnder root ↔ g.DefinedUnder root v := by
  rw [definedUnder, List.mem_filter, decide_eq_true_iff]
  constructor
  · intro h
    exact (mem_valuesUnder hc.toNestingAgrees acyclic).mp h.2
  · intro h
    have hrange := List.mem_range.mpr (h.hasValue hc)
    exact ⟨List.mem_map.mpr ⟨v.index, hrange, rfl⟩,
      (mem_valuesUnder hc.toNestingAgrees acyclic).mpr h⟩

theorem mem_readsOutside (hc : Consistent g gone) {u : Use} :
    u ∈ g.readsOutside root v ↔
      u.user ∉ gone ∧ ¬ g.Inside root u.user ∧ (g.operands u.user)[u.slot]? = some v := by
  rw [readsOutside, List.mem_filter, decide_eq_true_iff, hc.reads, mem_nested_iff]
  tauto

theorem flatMap_filter_ite {α β : Type} (l : List α) (p : α → Prop) [DecidablePred p]
    (f : α → List β) :
    (l.filter fun a => p a).flatMap f = l.flatMap fun a => if p a then f a else [] := by
  induction l with
  | nil => rfl
  | cons a l ih =>
    rw [List.filter_cons, List.flatMap_cons, ← ih]
    by_cases h : p a
    · simp [h]
    · simp [h]

/-- Whatever stands on a chain is a slot that holds the value, so a reading can be stale for one
reason only: its operation lies outside the root. -/
theorem staleUses_eq (hc : Consistent g gone) :
    g.staleUses root = (g.definedUnder root).flatMap fun v =>
      (g.readsOutside root v).map fun u => .staleUse v u.user u.slot := by
  have outside : ∀ v, (g.uses v).filter (fun u => !g.isLiveUse (g.nested root) v u) =
      g.readsOutside root v := by
    intro v
    refine List.filter_congr fun u hu => ?_
    obtain ⟨-, hslot⟩ := (hc.reads v u).mp hu
    simp [isLiveUse, hslot]
  rw [staleUses, definedUnder, flatMap_filter_ite]
  simp only [outside]

/-! ## The conditions -/

section

variable (hc : Consistent g gone) (acyclic : ¬ g.Inside root root)
include hc acyclic

omit acyclic in
theorem missingUses_eq_nil : g.missingUses root = [] ↔
    ∀ o, g.Inside root o → o ∈ gone → g.operands o = [] := by
  simp only [missingUses, List.flatMap_eq_nil_iff, List.filterMap_eq_nil_iff, Prod.forall,
    mem_nested_iff]
  refine forall_congr' fun o => forall_congr' fun _ => ?_
  constructor
  · intro h hg
    rw [List.eq_nil_iff_forall_not_mem]
    intro v hv
    obtain ⟨i, hi⟩ := List.mem_iff_getElem?.mp hv
    -- What is gone is in no chain, so any operand of it would be reported.
    have hmem : (⟨o, i⟩ : Use) ∉ g.uses v := fun hu => ((hc.reads v _).mp hu).1 hg
    have := h v i (List.mk_mem_zipIdx_iff_getElem?.mpr hi)
    rw [if_neg hmem] at this
    cases this
  · intro h v i hi
    have hi := List.mk_mem_zipIdx_iff_getElem?.mp hi
    have hg : o ∉ gone := fun hg => by
      rw [h hg] at hi
      cases hi
    rw [if_pos ((hc.reads v ⟨o, i⟩).mpr ⟨hg, hi⟩)]

/-- Nobody outside the root reads a value defined under it exactly when no reading is stale. -/
theorem staleUses_eq_nil : g.staleUses root = [] ↔
    ∀ v o, g.DefinedUnder root v → o ∉ gone → v ∈ g.operands o → g.Inside root o := by
  rw [staleUses_eq hc, List.flatMap_eq_nil_iff]
  constructor
  · intro h v o hv hg ho
    obtain ⟨i, hi⟩ := List.mem_iff_getElem?.mp ho
    by_contra hout
    have hnone := List.map_eq_nil_iff.mp (h v ((mem_definedUnder hc acyclic).mpr hv))
    have hread : (⟨o, i⟩ : Use) ∈ g.readsOutside root v :=
      (mem_readsOutside hc).mpr ⟨hg, hout, hi⟩
    rw [hnone] at hread
    cases hread
  · intro h v hv
    rw [List.map_eq_nil_iff, List.eq_nil_iff_forall_not_mem]
    intro u hu
    obtain ⟨hg, hout, hslot⟩ := (mem_readsOutside hc).mp hu
    have hdef := (mem_definedUnder hc acyclic).mp hv
    exact hout (h v u.user hdef hg (List.mem_of_getElem? hslot))

/-- Validation finds nothing exactly when what is under the root is in order. -/
theorem validationErrors_eq_nil : g.validationErrors root = .ok [] ↔ g.Valid root gone := by
  constructor
  -- No errors in each of the two reports, and so none of each kind.
  · intro h
    obtain ⟨order, h₁, h₂⟩ := bind_eq_ok.mp h
    obtain ⟨horder, hchain⟩ := List.append_eq_nil_iff.mp (Except.ok.inj h₂)
    obtain ⟨hmissing, hstale⟩ := List.append_eq_nil_iff.mp hchain
    subst horder
    unfold orderErrors at h₁
    split at h₁
    · exact ⟨⟨acyclic, (orderErrorsWithin_root_eq_nil hc acyclic).mp (Except.ok.inj h₁),
        (missingUses_eq_nil hc).mp hmissing⟩, (staleUses_eq_nil hc acyclic).mp hstale⟩
    · cases h₁
  · intro h
    have hreads : g.readsExist root = true := by
      simp only [readsExist, List.all_eq_true, mem_nested_iff]
      intro o ho v hv
      exact value?_isSome_iff.mpr ((h.visible o ho v hv).hasValue hc)
    unfold validationErrors orderErrors chainErrors
    rw [if_pos hreads, (orderErrorsWithin_root_eq_nil hc acyclic).mpr h.visible,
      (missingUses_eq_nil hc).mpr h.live, (staleUses_eq_nil hc acyclic).mpr h.enclosed]
    rfl

/-- The demand to be valid at the end of a pass is met exactly by what is in order. -/
theorem requireValid_eq_ok {pass : String} :
    g.requireValid root pass = .ok () ↔ g.Valid root gone := by
  rw [← validationErrors_eq_nil hc acyclic, requireValid, bind_eq_ok]
  constructor
  · rintro ⟨errors, h, hcheck⟩
    cases errors with
    | nil => exact h
    | cons e errors => cases hcheck
  · intro h
    exact ⟨[], h, rfl⟩

end

/-- Validation of a root comes back, which it does not where the root lies inside itself,
and finds nothing. -/
def Validates (g : Graph) (root : OpId) : Prop :=
  ¬ g.Inside root root ∧ g.validationErrors root = .ok []

theorem validates_iff (hc : Consistent g gone) : g.Validates root ↔ g.Valid root gone :=
  ⟨fun h => (validationErrors_eq_nil hc h.1).mp h.2,
    fun h => ⟨h.acyclic, (validationErrors_eq_nil hc h.acyclic).mpr h⟩⟩

/-- What an operation under the root reads exists. -/
theorem Ordered.hasValue_of_mem_operands (hc : Consistent g gone) (h : g.Ordered root gone)
    (ho : g.Inside root o) (hv : v ∈ g.operands o) : g.HasValue v :=
  (h.visible o ho v hv).hasValue hc

/-- The readers of a value defined under the root are exactly the slots under the root
that hold it. -/
theorem Valid.mem_uses (hc : Consistent g gone) (h : g.Valid root gone)
    (hv : g.DefinedUnder root v) {u : Use} :
    u ∈ g.uses v ↔ g.Inside root u.user ∧ (g.operands u.user)[u.slot]? = some v := by
  rw [hc.reads]
  constructor
  · rintro ⟨hg, hs⟩
    exact ⟨h.enclosed v u.user hv hg (List.mem_of_getElem? hs), hs⟩
  · rintro ⟨hin, hs⟩
    refine ⟨fun hg => ?_, hs⟩
    rw [h.live _ hin hg] at hs
    cases hs

end Graph

end SimdLowering
