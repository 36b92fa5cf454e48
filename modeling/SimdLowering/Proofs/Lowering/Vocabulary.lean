/-
Functions in the generic vocabulary.

What a lowering promises, it promises for functions made of generic instructions, each made
by its constructor. A constructor decides the number of operands and, for most kinds, the
type of the result, and that is all the rules rely on.
-/
import SimdLowering.Instr.Generic
import SimdLowering.Proofs.Rewrite.Scene

set_option autoImplicit false

namespace SimdLowering

open SimdLowering.Instr

/-- The kinds of binary operations that have the type of their left operand. -/
def binaryKinds : List OpKind :=
  [.addi, .addf, .subi, .subf, .muli, .mulf, .minsi, .maxsi, .minf, .maxf]

theorem of_mem_binaryKinds {k : OpKind} (h : k ∈ binaryKinds) :
    k.dialect ≠ .aievec ∧ k ≠ .func ∧ k ≠ .ret ∧ k.arity = 2 ∧
      ∀ tys, k.resultTyOf tys = tys[0]? := by
  revert h
  cases k <;> intro h <;>
    first
    | exact ⟨by decide, by decide, by decide, rfl, fun _ => rfl⟩
    | exact absurd h (by decide)

/-- The draft is what a constructor of the generic vocabulary makes of values that have the
given types. -/
inductive IsGeneric (ty : ValueId → Ty) : Draft ValueId → Prop
  | ret (values : List ValueId) : IsGeneric ty (ret values)
  | func (name : String) (body : RegionId) : IsGeneric ty (func name body)
  | unrealizedCast (v : ValueId) (t : Ty) : IsGeneric ty (unrealizedCast v t)
  | constantInt (t : Ty) (value : Int) : IsGeneric ty (constantInt t value)
  | constantFloat (t : Ty) (value : Float) : IsGeneric ty (constantFloat t value)
  | binary (kind : OpKind) (lhs rhs : ValueId) :
      kind ∈ binaryKinds → IsGeneric ty (binary kind ⟨lhs, ty lhs⟩ rhs)
  | cmpi (p : IntPredicate) (lhs rhs : ValueId) : IsGeneric ty (cmpi p ⟨lhs, ty lhs⟩ rhs)
  | cmpf (p : FloatPredicate) (lhs rhs : ValueId) : IsGeneric ty (cmpf p ⟨lhs, ty lhs⟩ rhs)
  | select (cond onTrue onFalse : ValueId) :
      IsGeneric ty (select cond ⟨onTrue, ty onTrue⟩ onFalse)
  | extsi (v : ValueId) (t : Ty) : IsGeneric ty (extsi v t)
  | extf (v : ValueId) (t : Ty) : IsGeneric ty (extf v t)
  | reduction (kind : CombiningKind) (v : ValueId) : IsGeneric ty (reduction kind ⟨v, ty v⟩)
  | broadcast (scalar : ValueId) (t : Ty) : IsGeneric ty (broadcast scalar t)
  | extract (v : ValueId) (position : Int) : IsGeneric ty (extract ⟨v, ty v⟩ position)
  | transferRead (t : Ty) (source : ValueId) (indices : List ValueId) (map : AccessMap)
      (mask : Option ValueId) : IsGeneric ty (transferRead t source indices map mask)

/-- No constructor makes an instruction of the target. -/
theorem IsGeneric.dialect_ne {ty : ValueId → Ty} {d : Draft ValueId} (h : IsGeneric ty d) :
    d.kind.dialect ≠ .aievec := by
  cases h with
  | binary kind lhs rhs hk => exact (of_mem_binaryKinds hk).1
  | _ => exact fun e => by cases e

namespace Graph

variable {g : Graph} {gone : List OpId} {root o : OpId} {d : Draft ValueId}

/-- The operation is as the draft says. -/
structure Matches (g : Graph) (o : OpId) (d : Draft ValueId) : Prop where
  kind : g.kind o = d.kind
  operands : g.operands o = d.operands
  resultTypes : g.resultTypes o = d.results
  attrs : g.attrs o = d.attrs
  regions : g.regionsOf o = d.regions

/-- The operation was made by a constructor of the generic vocabulary. -/
def Made (g : Graph) (o : OpId) : Prop :=
  ∃ d, IsGeneric (fun v => (g.value v).ty) d ∧ g.Matches o d

/-- The operation was made by a constructor of the generic vocabulary, and if its result is
a vector, the vector has lanes. -/
structure Generic (g : Graph) (o : OpId) : Prop where
  made : ∃ d, IsGeneric (fun v => (g.value v).ty) d ∧ g.Matches o d
  lanes : ∀ n elem, .vector n elem ∈ g.resultTypes o → n ≠ 0

theorem exists_result_of_resultTypes {t : Ty} (h : g.resultTypes o = [t]) :
    ∃ v, g.results o = [v] := by
  rw [resultTypes, typesOf] at h
  exact List.length_eq_one_iff.mp (by rw [← List.length_map, h]; rfl)

theorem Generic.hasLanes (h : g.Generic o) : g.HasLanes o := by
  intro _ shape hs
  obtain ⟨t, ht, hs⟩ := Option.bind_eq_some_iff.mp hs
  cases t with
  | vector n elem =>
    obtain ⟨bits, -, rfl⟩ := Option.map_eq_some_iff.mp hs
    exact h.lanes n elem (List.mem_of_head? ht)
  | _ => cases hs

/-- What a constructor makes is well shaped. -/
theorem Made.wellShaped (h : g.Made o) : g.WellShaped o := by
  obtain ⟨d, hd, hm⟩ := h
  obtain ⟨hkind, hoperands, htypes, -, hregions⟩ := hm
  -- One case for each draft; most constructors fix all four fields by computation.
  refine ⟨fun hk => ?_, fun hf hr => ?_, ?_, fun t ht => ?_⟩
  · rw [hkind] at hk
    rw [hregions]
    cases hd with
    | func name body => exact absurd rfl hk
    | _ => rfl
  · rw [hkind] at hf hr
    cases hd with
    | func name body => exact absurd rfl hf
    | ret values => exact absurd rfl hr
    | _ => exact exists_result_of_resultTypes htypes
  · rw [hkind, hoperands]
    cases hd with
    | binary kind lhs rhs hk => exact Nat.le_of_eq (of_mem_binaryKinds hk).2.2.2.1
    | transferRead t source indices map mask => exact Nat.succ_le_succ (Nat.zero_le _)
    | _ => exact Nat.le_of_ble_eq_true rfl
  · rw [hkind, hoperands] at ht
    rw [htypes]
    cases hd with
    | binary kind lhs rhs hk =>
      rw [show (Instr.binary kind ⟨lhs, (g.value lhs).ty⟩ rhs).kind = kind from rfl,
        (of_mem_binaryKinds hk).2.2.2.2] at ht
      exact congrArg (fun t => [t]) (Option.some.inj ht)
    | cmpi | cmpf | select | reduction | extract =>
      exact congrArg (fun t => [t]) (Option.some.inj ht)
    | _ => cases ht

theorem Generic.wellShaped (h : g.Generic o) : g.WellShaped o := Made.wellShaped h.made

end Graph

end SimdLowering
