/-
Instructions in their place.

What a rule puts into a block stays there until something rewrites it. Splices elsewhere change
none of its parts but the names of what it reads. So an operation is described here by the draft
it agrees with now, over the values it reads now, and by the block it stands in.
-/
import SimdLowering.Instr.Target
import SimdLowering.Proofs.Rewrite.Uses

set_option autoImplicit false

namespace SimdLowering

/-! ## Drafts under other names -/

namespace Instr

variable {α β : Type} (f : α → β) (ty : Ty) (a b c : α) (l : List α) (n : Int) (s : Shuffle)
  (fmsub : Bool)

theorem mapOperands_concat : (concat ty l).mapOperands f = concat ty (l.map f) := rfl

theorem mapOperands_ups : (ups ty a n).mapOperands f = ups ty (f a) n := rfl

theorem mapOperands_srs : (srs ty a n).mapOperands f = srs ty (f a) n := rfl

theorem mapOperands_fma :
    (fma ty a b c s fmsub).mapOperands f = fma ty (f a) (f b) (f c) s fmsub := rfl

theorem mapOperands_fmaElem :
    (fmaElem a b ⟨c, ty⟩ fmsub).mapOperands f = fmaElem (f a) (f b) ⟨f c, ty⟩ fmsub := rfl

end Instr

/-! ## Operations in a block -/

namespace Graph

variable {g g' : Graph} {gone : List OpId} {func op o : OpId} {blk b : BlockId} {v old : ValueId}
  {r : Recipe} {i : Nat} {e : Draft ValueId}

/-- In the block stands the operation, which is the given instruction and gives the value. -/
structure Stands (g : Graph) (blk : BlockId) (e : Draft ValueId) (o : OpId) (v : ValueId) :
    Prop where
  mem : o ∈ g.opsIn blk
  kind : g.kind o = e.kind
  attrs : g.attrs o = e.attrs
  operands : g.operands o = e.operands
  results : g.results o = [v]
  typed : (g.value? v).map Value.ty = some e.resultType

theorem Stands.hasOp (h : g.Stands blk e o v) (hc : Consistent g gone) : g.HasOp o :=
  hasOp_of_blockOf? ((hc.places o blk).mp h.mem)

theorem Stands.eq_of_mem_results (h : g.Stands blk e o v) (hc : Consistent g gone)
    (hv : v ∈ g.results op) : op = o :=
  hc.eq_of_mem_results hv (by simp [h.results])

namespace Spliced

variable (hs : Spliced g g' gone op b old r)
include hs

/-- An instruction that stays reads what it read, by the names that has now. -/
theorem stands_of_ne (hscene : Scene g gone func) (h : g.Stands blk e o v)
    (hin : g.Inside func o) (hne : o ≠ op) :
    g'.Stands blk (e.mapOperands (renamed old (g.standIn r))) o v := by
  have hop := h.hasOp hs.before
  have hv : g.HasValue v := hs.before.hasValue_of_mem_results (o := o) (by simp [h.results])
  refine ⟨(hs.mem_opsIn_of_ne hop hne).mpr h.mem, (hs.kind_of_hasOp hop).trans h.kind,
    (hs.attrs_of_hasOp hop).trans h.attrs, ?_, (hs.results_of_hasOp hop).trans h.results, ?_⟩
  · -- Of all that the draft says, only the names of the operands may change.
    rw [hs.operands_of_inside hscene hin, h.operands]
    rfl
  · rw [hs.value?_of_hasValue hv]
    exact h.typed

/-- Each step of a recipe stands where the operation stood. -/
theorem stands_made {d : Step} (hd : r.all[i]? = some d) :
    g'.Stands b ((d.mapOperands (Source.valueFrom g.values.size)).mapOperands
      (renamed old (g.standIn r))) ⟨g.ops.size + i⟩ ⟨g.values.size + i⟩ := by
  have hnew : ⟨g.ops.size + i⟩ ∈ g.nextOps r.all.length := mem_nextOps_all.mpr ⟨i, d, hd, rfl⟩
  refine ⟨(hs.mem_opsIn_made hnew).mpr rfl, hs.kind_made hd, hs.attrs_made hd,
    hs.operands_made hd, hs.results_made hd, ?_⟩
  rw [hs.value?_made hd]
  rfl

/-- A result that stays keeps its name. -/
theorem renamed_of_stands (h : g.Stands blk e o v) (hne : o ≠ op) :
    renamed old (g.standIn r) v = v := by
  refine if_neg ?_
  rintro rfl
  exact hne (hs.eq_of_old_mem_results (by simp [h.results]))

end Spliced

end Graph

end SimdLowering
