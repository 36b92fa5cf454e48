/-
What rules given as data change.

All but one of them either leave the graph alone or add operations to it and say so, which is what
results about rule sets ask of rules. The one that takes an operation out of its block by itself
shows that they ask for something. None of them asks for a size.
-/
import SimdLowering.Proofs.Rewrite.Enlarging
import SimdLowering.Proofs.Rewrite.Memo
import SimdLowering.Rewrite.Action

set_option autoImplicit false

namespace SimdLowering

open SimdLowering.Graph

namespace Action

variable {action : Action} {name : String} {roots : List OpKind} {arity : Option Nat} {g g' : Graph}
  {op : OpId} {c c' : AccessSizes} {outcome : Outcome}

/-- What a rule given as data does is not a matter of sizes. -/
theorem run_toRule : (action.toRule name roots arity).run g op c =
    (fun x => (x.1, c, x.2)) <$>
      (if arity.any fun n => n != (g.operands op).length then .ok (g, .declined)
        else action.perform g op) := by
  unfold toRule
  dsimp only
  split
  · rfl
  · cases action.perform g op <;> rfl

theorem run_toRule_eq_ok : (action.toRule name roots arity).run g op c = .ok (g', c', outcome) ↔
    (if arity.any fun n => n != (g.operands op).length then .ok (g, .declined)
      else action.perform g op) = .ok (g', outcome) ∧ c' = c := by
  rw [run_toRule, map_eq_ok]
  constructor
  · rintro ⟨⟨x, y⟩, hx, h⟩
    cases h
    exact ⟨hx, rfl⟩
  · rintro ⟨hx, rfl⟩
    exact ⟨_, hx, rfl⟩

theorem memoized_toRule : AccessSizes.Memoized g ((action.toRule name roots arity).asks g op) :=
  AccessSizes.memoized_of_silent fun _ _ _ => run_toRule_eq_ok

/-- Whether the outcome says all that the action does. It does not say that an operation has been
taken out of its block. -/
def isRecorded : Action → Bool
  | unlink _ => false
  | _ => true

/-- Whether the action, if it does anything, puts one operation in the place of another. -/
def isSubstitution : Action → Bool
  | forward _ | constantBefore _ | unlink _ => false
  | _ => true

/-- A rule given as data whose outcome tells all records what it changes. -/
theorem recordsAt_toRule (haction : action.isRecorded = true) :
    (action.toRule name roots arity).RecordsAt g op := by
  -- It is enough to look at what each action does; the guard on the operands is added below.
  have hperform : ∀ {g' outcome}, action.perform g op = .ok (g', outcome) → g.Untouched g' ∧
      ((∀ edits, outcome = .matched edits → edits.isEmpty = true) → g' = g) := by
    intro g' outcome h
    cases action with
    | decline | matchOnly | refuse reason =>
      cases h
      exact ⟨.refl g, fun _ => rfl⟩
    | replace kind reverse =>
      cases h
      exact ⟨untouched_addOp .., fun hedits => nomatch hedits _ rfl⟩
    | forward slot =>
      obtain ⟨v, -, h⟩ := bind_eq_ok.mp h
      cases h
      exact ⟨.refl g, fun _ => rfl⟩
    | constantBefore value =>
      cases h
      exact ⟨untouched_addOp .., fun hedits => nomatch hedits _ rfl⟩
    | expand kind value =>
      cases h
      exact ⟨(untouched_addOp g _).trans (untouched_addOp ..), fun hedits => nomatch hedits _ rfl⟩
    | unlink victim => cases haction
  have hrun : ∀ {c g' c' outcome}, (action.toRule name roots arity).run g op c =
    .ok (g', c', outcome) →
      g.Untouched g' ∧ ((∀ edits, outcome = .matched edits → edits.isEmpty = true) → g' = g) := by
    intro c g' c' outcome h
    have hx := (run_toRule_eq_ok.mp h).1
    split at hx
    · cases hx
      exact ⟨.refl g, fun _ => rfl⟩
    · exact hperform hx
  exact ⟨fun h => (hrun h).2, fun h _ => (hrun h).1⟩

/-- A rule that takes another operation out of its block does not. -/
theorem not_recordsAt_unlink {victim : OpId} {b : BlockId} (hvictim : g.HasOp victim)
    (hb : g.blockOf? victim = some b) (hblock : g.HasBlock b) :
    ¬ ((unlink victim).toRule name roots none).RecordsAt g op := by
  intro h
  obtain ⟨g', hdetach⟩ : ∃ g', g.detach b victim = .ok g' :=
    ⟨_, detach_eq_ok.mpr ⟨hvictim, hblock, rfl⟩⟩
  have hperform : (unlink victim).perform g op = .ok (g', .declined) := by
    simp only [perform, op?_eq_some hvictim, show (g.op victim).block = some b from hb, hdetach]
    rfl
  have hsame : g' = g :=
    h.still (run_toRule_eq_ok.mpr ⟨hperform, (rfl : AccessSizes.empty = .empty)⟩) fun _ he => by
      cases he
  have hout := (detach_effect hdetach).2.2.1 victim
  rw [if_pos ⟨rfl, hb⟩, hsame] at hout
  exact absurd ((congrArg Operation.block hout).symm.trans hb) (by simp)

theorem length_results_addOp (g : Graph) (d : Draft ValueId) :
    ((g.addOp d).1.results g.nextOp).length = d.results.length := by
  rw [results, op_addOp, if_pos rfl]
  simp [newOperation, nextValues]

theorem length_resultTypes (g : Graph) (op : OpId) :
    (g.resultTypes op).length = (g.results op).length := by
  simp [resultTypes, typesOf]

theorem blockOf?_addOp (g : Graph) (d : Draft ValueId) : (g.addOp d).1.blockOf? g.nextOp =
    none := by
  rw [blockOf?, op_addOp, if_pos rfl]
  rfl

/-- A rule given as data that replaces the operation, if it does anything, substitutes. -/
theorem substitutesAt_toRule (hop : g.HasOp op) (haction : action.isSubstitution = true) :
    (action.toRule name roots arity).SubstitutesAt g op := by
  have hperform : ∀ {g' edits}, action.perform g op = .ok (g', .matched edits) →
      edits.isEmpty = false → edits.Substitutes g g' op := by
    intro g' edits h hsome
    cases action with
    | decline | refuse reason => cases h
    | matchOnly =>
      cases h
      cases hsome
    | forward slot | constantBefore value | unlink victim => cases haction
    | replace kind reverse =>
      generalize hd : likeDraft g op kind
        (if reverse then (g.operands op).reverse else g.operands op) = d
      have hregions : d.regions = [] := by
        rw [← hd]
        rfl
      have hlength : d.results.length = (g.results op).length := by
        rw [← hd]
        exact length_resultTypes g op
      simp only [perform, hd] at h
      cases h
      refine ⟨(Creates.refl g).addOp hregions, fun n hn => ?_, List.nodup_singleton _,
        (fun h => nomatch h), (hlength ▸ length_results_addOp g d).symm, (fun _ h => nomatch h)⟩
      obtain rfl := List.mem_singleton.mp hn
      exact ⟨g.not_hasOp_nextOp, (hasOp_addOp d).mpr (Or.inr rfl), blockOf?_addOp g d⟩
    | expand kind value =>
      -- Two operations are made here, and the second on a graph that has the first.
      simp only [perform] at h
      generalize hg : (g.addOp (constantDraft value)).1 = g₁ at h
      generalize hd : likeDraft g₁ op kind
        (g₁.operands op ++ g₁.results (g.addOp (constantDraft value)).2) = d at h
      have huntouched := g.untouched_addOp (constantDraft value)
      rw [hg] at huntouched
      have hregions : d.regions = [] := by
        rw [← hd]
        rfl
      have hlength : d.results.length = (g.results op).length := by
        rw [← hd]
        exact (length_resultTypes g₁ op).trans
          (congrArg (fun x => x.results.length) (huntouched.op op hop))
      have hconst : g₁.HasOp g.nextOp := by
        rw [← hg]
        exact (hasOp_addOp _).mpr (Or.inr rfl)
      cases h
      have hcreates : g.Creates g₁ := hg ▸ (Creates.refl g).addOp rfl
      refine ⟨hcreates.addOp hregions, fun n hn => ?_, ?_, (fun h => nomatch h),
        (hlength ▸ length_results_addOp g₁ d).symm, (fun _ h => nomatch h)⟩
      · rcases List.mem_pair.mp hn with rfl | rfl
        · have hfree : g₁.blockOf? g.nextOp = none := hg ▸ blockOf?_addOp g _
          have hsame := (g₁.untouched_addOp d).op g.nextOp hconst
          exact ⟨g.not_hasOp_nextOp, (hasOp_addOp d).mpr (Or.inl hconst),
            (congrArg Operation.block hsame).trans hfree⟩
        · exact ⟨fun h => g₁.not_hasOp_nextOp (hcreates.enlarged.hasOp h),
            (hasOp_addOp d).mpr (Or.inr rfl), blockOf?_addOp g₁ d⟩
      · -- The constant is there when the other one is made.
        refine List.nodup_cons.mpr ⟨fun h => ?_, List.nodup_singleton _⟩
        have heq : g.nextOp = g₁.nextOp := List.mem_singleton.mp h
        exact g₁.not_hasOp_nextOp (heq ▸ hconst)
  have hrecorded : action.isRecorded = true := by
    cases action with
    | unlink victim => cases haction
    | _ => rfl
  refine ⟨(recordsAt_toRule hrecorded).still, fun h hsome => ?_⟩
  have hx := (run_toRule_eq_ok.mp h).1
  split at hx
  · cases hx
  · exact hperform hx hsome

end Action

end SimdLowering
