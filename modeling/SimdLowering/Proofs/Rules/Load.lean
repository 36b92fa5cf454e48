/-
The rules for reads from memory are lawful.
-/
import SimdLowering.Proofs.Rules.Steps
import SimdLowering.Rules.Load

set_option autoImplicit false

namespace SimdLowering

namespace Rules

open SimdLowering.Graph

variable {g : Graph} {gone : List OpId} {root op : OpId} {v old : ValueId} {ty indexTy : Ty}
  {R : Site} {Γ : List Ty} {a : Source} {indices outer : List Source}

theorem stepOk_loadStep (hload : R.loads ty) (ha : Readable R Γ a)
    (hi : ∀ s ∈ indices, Readable R Γ s) : StepOk R Γ.length (loadStep ty a indices) :=
  stepOk_upd hload (Int.le_refl 0) ha hi (by simp)

/-- The innermost index is a step that has just been emitted, the others are as given. -/
theorem readable_index {s : Source} (ho : ∀ x ∈ outer, Readable R Γ x) (hs : Readable R Γ s) :
    ∀ x ∈ outer ++ [s], Readable R Γ x := by
  intro x hx
  rcases List.mem_append.mp hx with hx | hx
  · exact ho x hx
  · rw [List.mem_singleton.mp hx]
    exact hs

theorem wholePlan_makes {aligned : Int} (hload : R.loads ty) (ha : Readable R Γ a)
    (ho : ∀ s ∈ outer, Readable R Γ s) :
    (wholePlan ty a outer indexTy aligned).Makes (Builds R) Γ (EndsAs R ty) := by
  refine Makes.step (stepOk_constantInt _) ?_
  exact Makes.final (stepOk_loadStep hload ha.snoc
    (readable_index (fun s hs => (ho s hs).snoc) .last)) rfl nofun

theorem windowPlan_makes {aligned next bytes : Int} (hload : R.loads ty) (ha : Readable R Γ a)
    (ho : ∀ s ∈ outer, Readable R Γ s) :
    (windowPlan ty a outer indexTy aligned next bytes).Makes (Builds R) Γ (EndsAs R ty) := by
  have ha₁ : Readable R (Γ ++ [indexTy]) a := ha.snoc
  have ho₁ : ∀ s ∈ outer, Readable R (Γ ++ [indexTy]) s := fun s hs => (ho s hs).snoc
  refine Makes.step (stepOk_constantInt _) ?_
  refine Makes.step (stepOk_loadStep hload ha₁ (readable_index ho₁ .last)) ?_
  refine Makes.step (stepOk_constantInt _) ?_
  refine Makes.step (stepOk_loadStep hload ha₁.snoc.snoc
    (readable_index (fun s hs => (ho₁ s hs).snoc.snoc) .last)) ?_
  refine Makes.step (stepOk_constantInt _) ?_
  exact Makes.final (stepOk_shift Readable.last.snoc.snoc.snoc Readable.last.snoc .last false)
    rfl nofun

/-- Either way the plan can be followed, if the numbers in it are not too large. -/
theorem alignedPlan_yields {lanes elemBits : Nat} {value : Int} (hk : g.kind op = .transferRead)
    (hload : R.loads ty) (ha : Readable R [] a) (ho : ∀ s ∈ outer, Readable R [] s) :
    YieldsUnless (g.Overflows op) (alignedPlan ty lanes elemBits a outer indexTy value)
      fun p => p.Makes (Builds R) [] (EndsAs R ty) := by
  have hmay : g.MayOverflow op := .access (Or.inl hk)
  refine (fitI64_yields hmay).bind fun bits _ => ?_
  dsimp only
  split
  · exact .pure (wholePlan_makes hload ha ho)
  · exact (fitI64_yields hmay).bind fun next _ => .pure (windowPlan_makes hload ha ho)

theorem splitPlan_makes {bits : Nat} (hload : R.loads ty) (ha : Readable R Γ a)
    (hi : ∀ s ∈ indices, Readable R Γ s) :
    (splitPlan ty a indices bits).Makes (Builds R) Γ (EndsAs R ty) := by
  refine Makes.step (stepOk_loadStep hload ha hi) (Makes.final (stepOk_upd hload
    (by omega) ha.snoc (fun s hs => (hi s hs).snoc) ?_) rfl nofun)
  simpa using Readable.last

theorem readable_map {l : List ValueId} (h : ∀ v ∈ l, R.reads v) :
    ∀ s ∈ l.map Source.value, Readable R Γ s := by
  intro s hs
  obtain ⟨v, hv, rfl⟩ := List.mem_map.mp hs
  exact .value (h v hv)

theorem loads_of_kind (hold : g.results op = [old])
    (hk : g.kind op = .transferRead ∨ g.kind op = .upd) :
    (g.site root op).loads (g.value old).ty := by
  refine ⟨hk, fun v hv => ?_⟩
  rw [hold, List.mem_singleton] at hv
  rw [hv]

theorem readPlan_spec (h : Scene g gone root) (hin : g.Inside root op)
    (hk : g.kind op = .transferRead)
    (hload : (g.site root op).loads (g.value old).ty)
    {access : MemAccess ValueId} {innermost : ValueId} {shape : VectorShape}
    (hs : g.AtHand root op access.source) (hi : ∀ v ∈ access.indices, g.AtHand root op v)
    (hm : innermost ∈ access.indices) (hold : g.results op = [old])
    (hshape : g.resultShape? op = some shape) :
    YieldsUnless (g.Excuses op) (readPlan g access innermost (g.value old).ty shape)
      (Decision.Lawful g root op) := by
  unfold readPlan
  have hconst : Yields (g.constantInt? innermost) fun _ => True :=
    (h.definedBy? hin (hi _ hm) .constant rfl).bind fun _ _ => .pure trivial
  refine hconst.unless.bind fun value _ => ?_
  dsimp only
  -- Without a constant index the load is made as it stands; otherwise it may be split into two.
  split
  · exact .pure
      (.of_makes hold (Makes.final (stepOk_loadStep hload (.value hs) (readable_map hi)) rfl nofun))
  · split
    · next hzero => exact .error fun hlanes => absurd hzero (hlanes hk shape hshape)
    · rw [h.valueTy_eq (hi _ hm)]
      refine YieldsUnless.bind (P := fun _ => True) (.ok trivial) fun indexTy _ => ?_
      refine (excused (alignedPlan_yields hk hload (.value hs) (readable_map fun v hv => ?_))).bind
        fun p hp => .pure (.of_makes hold hp)
      exact hi v (List.mem_of_mem_dropLast hv)

theorem transferReadToUpd_lawful (target : ConversionTarget) : transferReadToUpd.Lawful target := by
  refine .ofSizedDecision (by decide) fun g gone root op sizes h hin hk _ => ?_
  have hkind : g.kind op = .transferRead := List.mem_singleton.mp hk
  obtain ⟨old, hold⟩ := h.single_of_kind hin (by rw [hkind]; decide) (by rw [hkind]; decide)
  refine YieldsUnless.bind (P := Decision.Lawful g root op) ?_ fun d hd => .pure hd
  refine (h.memAccess? hin).unless.bind fun access? haccess => ?_
  cases access? with
  | none => exact .pure trivial
  | some access =>
    obtain ⟨hs, hi, -, -⟩ := haccess access rfl
    -- Each check declines, and what is left is the plan of the read.
    dsimp only
    split
    · exact .pure trivial
    split
    · exact .pure trivial
    split
    · exact .pure trivial
    rw [firstResultType_eq hold]
    split
    · next shape innermost hshape hlast =>
      have hm : innermost ∈ access.indices := List.mem_of_getLast? hlast
      exact readPlan_spec h hin hkind (loads_of_kind hold (Or.inl hkind)) hs hi hm hold hshape
    · exact .pure trivial

/-- The size of a load is computed, if the numbers on the way are not too large. -/
theorem accessSize_yields (hold : g.results op = [old]) (hmay : g.MayOverflow op) :
    YieldsUnless (g.Overflows op) (g.accessSize op) fun _ => True := by
  unfold accessSize
  rw [hold]
  have htotal : YieldsUnless (g.Overflows op) (g.resultBits op) fun _ => True := by
    unfold resultBits
    split
    · exact (fitU32_yields fun _ => hmay).mono fun _ _ => trivial
    · exact .ok trivial
  have hdownstream : ∀ (l : List Use) (start : Int), YieldsUnless (g.Overflows op)
      (l.foldlM (fun sum u => fitI64 (sum + g.updOffset u.user)) start) fun _ => True := by
    intro l
    induction l with
    | nil => exact fun _ => .pure trivial
    | cons u l ih =>
      intro start
      rw [List.foldlM_cons]
      exact (fitI64_yields hmay).bind fun sum _ => ih sum
  refine htotal.bind fun total _ => (hdownstream _ 0).bind fun downstream _ => ?_
  refine (fitI64_yields hmay).bind fun rest _ => ?_
  exact (fitI64_yields hmay).bind fun bits _ => .pure trivial

theorem query_yields (sizes : AccessSizes) (hold : g.results op = [old]) (hk : g.kind op = .upd) :
    YieldsUnless (g.Overflows op) (sizes.query g op) fun _ => True := by
  unfold AccessSizes.query
  cases sizes.get? op with
  | some n => exact .ok trivial
  | none => exact (accessSize_yields hold (.access (Or.inr hk))).bind fun n _ => .pure trivial

theorem splitUpd_lawful (target : ConversionTarget) (bits : Nat) :
    (splitUpd bits).Lawful target := by
  refine .ofSizedDecision (by decide) fun g gone root op sizes h hin hk _ => ?_
  have hkind : g.kind op = .upd := List.mem_singleton.mp hk
  obtain ⟨old, hold⟩ := h.single_of_kind hin (by rw [hkind]; decide) (by rw [hkind]; decide)
  refine excused ((query_yields sizes hold hkind).bind fun ⟨size, sizes'⟩ _ => ?_)
  refine (fitU32_yields fun _ => .access (Or.inr hkind)).bind fun most _ => ?_
  dsimp only
  split
  · exact .pure trivial
  refine (h.memAccess? hin).unless.bind fun access? haccess => ?_
  cases access? with
  | none => exact .pure trivial
  | some access =>
    obtain ⟨hs, hi, -, -⟩ := haccess access rfl
    dsimp only
    rw [firstResultType_eq hold]
    exact .pure (.of_makes hold (splitPlan_makes (loads_of_kind hold (Or.inr hkind)) (.value hs)
      (readable_map hi)))

end Rules

end SimdLowering
