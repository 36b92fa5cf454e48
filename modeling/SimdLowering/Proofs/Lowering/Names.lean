/-
The names that values go by after visits.

A visit that rewrites an operation gives its result a new name, and whoever read the old name
reads the new one from then on. However many visits there are, the names they gave add up to one
map on the values that were there at the start. Values whose operation stays keep their names,
parameters do, and whatever has a new name is given by an operation that visits created.
-/
import SimdLowering.Proofs.Lowering.Rounds
import SimdLowering.Proofs.Rewrite.Simulation
import SimdLowering.Proofs.Rewrite.Uses

set_option autoImplicit false

namespace SimdLowering

open SimdLowering.Graph SimdLowering.Application

namespace Graph

variable {g₀ g g' : Graph} {gone : List OpId} {func op o : OpId} {b : BlockId} {v w old : ValueId}
  {r : Recipe} {ren : ValueId → ValueId} {k : OpKind}

/-- The graph `g` has what `g₀` had, as far as it is still under the root, and values are read
by their new names. -/
structure Renames (g₀ g : Graph) (root : OpId) (ren : ValueId → ValueId) : Prop where
  hasOp : ∀ {o}, g₀.HasOp o → g.HasOp o
  kind : ∀ {o}, g₀.HasOp o → g.kind o = g₀.kind o
  attrs : ∀ {o}, g₀.HasOp o → g.attrs o = g₀.attrs o
  results : ∀ {o}, g₀.HasOp o → g.results o = g₀.results o
  argsOf : ∀ b, g.argsOf b = g₀.argsOf b
  inside : ∀ {o}, g₀.HasOp o → g.Inside root o → g₀.Inside root o
  operands : ∀ {o}, g₀.HasOp o → g.Inside root o → g.operands o = (g₀.operands o).map ren
  typed : ∀ {v}, g₀.HasValue v → (g.value? (ren v)).map Value.ty = (g₀.value? v).map Value.ty
  param : ∀ {b v}, v ∈ g₀.argsOf b → ren v = v
  kept : ∀ {o v}, g₀.HasOp o → g.Inside root o → v ∈ g₀.results o → ren v = v
  renewed : ∀ {v}, g₀.HasValue v → ren v = v ∨ ∀ o, ren v ∈ g.results o → ¬ g₀.HasOp o

namespace Renames

theorem refl (g : Graph) (root : OpId) : g.Renames g root id where
  hasOp h := h
  kind _ := rfl
  attrs _ := rfl
  results _ := rfl
  argsOf _ := rfl
  inside _ h := h
  operands _ _ := (List.map_id _).symm
  typed _ := rfl
  param _ := rfl
  kept _ _ _ := rfl
  renewed _ := Or.inl rfl

variable (h : g₀.Renames g func ren)
include h

/-- A value has a value's record under its new name too. -/
theorem hasValue (hv : g₀.HasValue v) : g.HasValue (ren v) := by
  have hty := h.typed hv
  rw [value?_eq_some hv, Option.map_some] at hty
  obtain ⟨x, hx, -⟩ := Option.map_eq_some_iff.mp hty
  exact value?_isSome_iff.mp (by rw [hx]; rfl)

theorem ty_eq (hv : g₀.HasValue v) : (g.value (ren v)).ty = (g₀.value v).ty := by
  have hty := h.typed hv
  rw [value?_eq_some hv, value?_eq_some (h.hasValue hv)] at hty
  exact Option.some.inj hty

/-- What was given by an operation that was there goes by its old name, if it is still given by
one that was. -/
theorem eq_of_mem_results (hv : g₀.HasValue v) (ho : g₀.HasOp o) (hres : ren v ∈ g.results o) :
    ren v = v := by
  rcases h.renewed hv with hsame | hnew
  · exact hsame
  · exact absurd ho (hnew o hres)

/-- One more rewrite adds one more name. -/
theorem spliced (hscene : Scene g gone func) (hin : g.Inside func op)
    (hs : Spliced g g' gone op b old r) (hr : r.Lawful g func op) :
    g₀.Renames g' func fun v => renamed old (g.standIn r) (ren v) where
  hasOp ho := hs.hasOp_iff.mpr (Or.inl (h.hasOp ho))
  kind ho := (hs.kind_of_hasOp (h.hasOp ho)).trans (h.kind ho)
  attrs ho := (hs.attrs_of_hasOp (h.hasOp ho)).trans (h.attrs ho)
  results ho := (hs.results_of_hasOp (h.hasOp ho)).trans (h.results ho)
  argsOf b := (hs.argsOf b).trans (h.argsOf b)
  inside ho hin' := by
    rcases (hs.inside_iff hin).mp hin' with ⟨hbefore, -⟩ | hnew
    · exact h.inside ho hbefore
    · exact absurd (h.hasOp ho) (nextOps_fresh hnew)
  operands ho hin' := by
    rcases (hs.inside_iff hin).mp hin' with ⟨hbefore, -⟩ | hnew
    · rw [hs.operands_of_inside hscene hbefore, h.operands ho hbefore, List.map_map]
      rfl
    · exact absurd (h.hasOp ho) (nextOps_fresh hnew)
  typed hv := (hs.ty_renamed (hs.value_standIn hr) (h.hasValue hv)).trans (h.typed hv)
  param {b v} hv := by
    have harg : v ∈ g.argsOf b := (h.argsOf b).symm ▸ hv
    rw [h.param hv, renamed, if_neg]
    rintro rfl
    exact hs.before.not_mem_results_of_mem_argsOf harg (o := op) (by simp [hs.single])
  kept ho hin' hv := by
    rcases (hs.inside_iff hin).mp hin' with ⟨hbefore, hne⟩ | hnew
    · rw [h.kept ho hbefore hv, renamed, if_neg]
      rintro rfl
      exact hne (hs.eq_of_old_mem_results ((h.results ho).symm ▸ hv))
    · exact absurd (h.hasOp ho) (nextOps_fresh hnew)
  renewed {v} hv := by
    by_cases hold : ren v = old
    · -- What goes by the newest name is given by the last operation created.
      right
      intro o hres
      rcases (hs.mem_results_renamed (h.hasValue hv)).mp hres with ⟨hne, -⟩ | ⟨-, rfl⟩
      · exact absurd hold hne
      · exact fun ho => not_hasOp_add _ (h.hasOp ho)
    · rcases h.renewed hv with hsame | hnew
      · left
        rw [renamed, if_neg hold, hsame]
      · right
        intro o hres
        rcases (hs.mem_results_renamed (h.hasValue hv)).mp hres with ⟨-, hbefore⟩ | ⟨hold', -⟩
        · exact hnew o hbefore
        · exact absurd hold' hold

/-- What a rule cannot have created was there, and what it gives has its old name. -/
theorem definer {d : OpId} (hup : Upright g gone func g₀.ops.size) (hv : g₀.HasValue v)
    (hd : ren v ∈ g.results d) (hk : (g.kind d).isLowered = false) :
    g₀.HasOp d ∧ ren v = v ∧ v ∈ g₀.results d ∧ g₀.kind d = g.kind d := by
  have hop : g₀.HasOp d := by
    by_contra hnew
    have hlowered := hup.lowered d (Nat.le_of_not_lt hnew) (hasOp_of_mem_results hd)
    rw [hk] at hlowered
    cases hlowered
  have hsame := h.eq_of_mem_results hv hop hd
  refine ⟨hop, hsame, ?_, (h.kind hop).symm⟩
  rw [← h.results hop, ← hsame]
  exact hd

end Renames

end Graph

/-- Visits to operations under the root have led from `s` to `t`. Each visit that rewrote an
operation put the result of the last operation created in the place of the old result, and `ren`
says what is in the place of each value in the end. -/
inductive Replaces (rules : RuleSet) (target : ConversionTarget) (root : OpId) (s : Application) :
    Application → (ValueId → ValueId) → Prop
  | start : Replaces rules target root s s id
  | same {t t' : Application} {op : OpId} {ren : ValueId → ValueId} :
      Replaces rules target root s t ren → t.graph.Inside root op →
      t.visitOp rules target op = .ok t' → t'.graph = t.graph → Replaces rules target root s t' ren
  | rewritten {t t' : Application} {op : OpId} {ren : ValueId → ValueId} {gone : List OpId}
      {b : BlockId} {old : ValueId} {r : Recipe} :
      Replaces rules target root s t ren → t.graph.Inside root op →
      t.visitOp rules target op = .ok t' → Spliced t.graph t'.graph gone op b old r →
      Replaces rules target root s t' fun v => renamed old (t.graph.standIn r) (ren v)

end SimdLowering
