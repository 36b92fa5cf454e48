/-
What the second generation sees of an operation.

Whether a rule has something to do at an operation depends on little: the kind and the
attributes of the operation, the lanes of its result, the types of its operands, and which of
the operands are products, extensions or extracted lanes. Only for a product it also matters
who reads the result. So if all this is the same in two graphs, what is left alone in one is
left alone in the other, however the rest may differ and by whatever names the operands go.

The two looks are compared side by side, and only where both succeed. That neither fails is
known elsewhere.
-/
import SimdLowering.Proofs.Rewrite.Renaming
import SimdLowering.Proofs.Target.Lawful

set_option autoImplicit false

namespace SimdLowering

/-! ## Two runs side by side -/

/-- Where both runs succeed their answers are related. -/
def Together {ε α β : Type} (R : α → β → Prop) (x : Except ε α) (y : Except ε β) : Prop :=
  ∀ a b, x = .ok a → y = .ok b → R a b

namespace Together

variable {ε α α' β β' : Type} {R R' : α → α' → Prop} {S : β → β' → Prop} {x : Except ε α}
  {x' : Except ε α'}

/-- Two answers are together if they are related. -/
theorem ok {a : α} {a' : α'} (h : R a a') : Together R (.ok a : Except ε α) (.ok a') := by
  rintro _ _ ⟨⟩ ⟨⟩
  exact h

theorem pure {a : α} {a' : α'} (h : R a a') :
    Together R (Pure.pure a : Except ε α) (Pure.pure a') := ok h

/-- Steps are together if their parts are. -/
theorem bind {f : α → Except ε β} {f' : α' → Except ε β'} (hx : Together R x x')
    (hf : ∀ a a', R a a' → Together S (f a) (f' a')) : Together S (x >>= f) (x' >>= f') := by
  intro b b' hb hb'
  obtain ⟨a, ha, hb⟩ := bind_eq_ok.mp hb
  obtain ⟨a', ha', hb'⟩ := bind_eq_ok.mp hb'
  exact hf a a' (hx a a' ha ha') b b' hb hb'

/-- A relation may be weakened. -/
theorem mono (hx : Together R x x') (h : ∀ a a', R a a' → R' a a') : Together R' x x' :=
  fun a a' ha ha' => h a a' (hx a a' ha ha')

/-- Nothing is asked of the answers. -/
theorem any : Together (fun _ _ => True) x x' := fun _ _ _ _ => trivial

/-- An answer is together with itself. -/
theorem refl (x : Except ε α) : Together (· = ·) x x := by
  intro a b ha hb
  exact Except.ok.inj (ha.symm.trans hb)

end Together

/-- The decision is to rewrite. -/
def Decision.isRewrite : Decision → Bool
  | rewrite _ => true
  | _ => false

/-- The answer is a match. -/
def Outcome.isMatch : Outcome → Bool
  | matched _ => true
  | _ => false

/-- A rule matches exactly if it was decided to rewrite. -/
theorem Decision.isMatch_perform (g : Graph) (d : Decision) :
    (d.perform g).2.isMatch = d.isRewrite := by
  cases d <;> rfl

namespace Graph

variable {g g' : Graph} {x op : OpId} {v v' : ValueId} {i : Nat} {k : OpKind}

/-! ## Views -/

/-- The kinds that are looked for behind an operand. -/
def watchedKinds : List OpKind := [.muli, .mulf, .extf, .extract]

/-- Two operands look the same: they have the same type, and if something that is looked for
defines one, it defines the other, with the same attributes, and reads operands of the same
types. -/
structure SameOperand (g g' : Graph) (v v' : ValueId) : Prop where
  ty : Together (· = ·) (g.valueTy v) (g'.valueTy v')
  definer : ∀ k ∈ watchedKinds, Together (· = ·) (g.definedBy? v k) (g'.definedBy? v' k)
  attrs : ∀ k ∈ watchedKinds, ∀ d, g.definedBy? v k = .ok (some d) → g'.attrs d = g.attrs d
  behind : ∀ k ∈ watchedKinds, ∀ d i, g.definedBy? v k = .ok (some d) →
    Together (fun w w' => Together (· = ·) (g.valueTy w) (g'.valueTy w'))
      (g.operandAt d i) (g'.operandAt d i)

/-- The operation looks the same in two graphs. A product that is left for the sum that reads it
in the first one is left for it in the second. -/
structure SameView (g g' : Graph) (x : OpId) : Prop where
  kind : g'.kind x = g.kind x
  attrs : g'.attrs x = g.attrs x
  shape : g'.resultShape? x = g.resultShape? x
  access : Together (fun a a' => ∃ f, a' = Option.map (MemAccess.map f) a)
    (g.memAccess? x) (g'.memAccess? x)
  arity : (g'.operands x).length = (g.operands x).length
  operands : ∀ (i : Nat) v v', (g.operands x)[i]? = some v → (g'.operands x)[i]? = some v' →
    SameOperand g g' v v'
  product : g.kind x = .muli → g.hasSingleUseBy x .addi = true → g'.hasSingleUseBy x .addi = true
  floatProduct : g.kind x = .mulf → g.hasSingleUseBy x .addf = true →
    g'.hasSingleUseBy x .addf = true

/-- A value looks like itself. -/
theorem SameOperand.refl (g : Graph) (v : ValueId) : SameOperand g g v v where
  ty := .refl _
  definer _ _ := .refl _
  attrs _ _ _ _ := rfl
  behind _ _ d i _ := (Together.refl (g.operandAt d i)).mono fun _ _ h => h ▸ .refl _

/-- And so does a graph. -/
theorem SameView.refl (g : Graph) (x : OpId) : SameView g g x where
  kind := rfl
  attrs := rfl
  shape := rfl
  access := by
    refine (Together.refl (g.memAccess? x)).mono fun a a' h => ⟨id, ?_⟩
    rw [← h]
    cases a with
    | none => rfl
    | some a => simp [MemAccess.map]
  arity := rfl
  operands i v v' hv hv' := by
    obtain rfl := Option.some.inj (hv.symm.trans hv')
    exact .refl g v
  product _ := id
  floatProduct _ := id

namespace SameOperand

variable (h : SameOperand g g' v v')
include h

/-- Operands that look alike have the same shape. -/
theorem valueShape? : Together (· = ·) (g.valueShape? v) (g'.valueShape? v') :=
  h.ty.bind fun _ _ hty => .pure (congrArg Ty.vectorShape hty)

/-- And the same type. -/
theorem source : Together (fun o o' => o.ty = o'.ty) (g.source v) (g'.source v') :=
  h.ty.bind fun _ _ hty => .pure hty

/-- What an extension extends has the same type. -/
theorem extensionSource? (hk : k ∈ watchedKinds) :
    Together (fun w w' => w.isSome = w'.isSome ∧ ∀ u u', w = some u → w' = some u' →
        Together (· = ·) (g.valueTy u) (g'.valueTy u'))
      (g.extensionSource? v k) (g'.extensionSource? v' k) := by
  intro a a' ha ha'
  obtain ⟨d, hd, ha⟩ := bind_eq_ok.mp ha
  obtain ⟨d', hd', ha'⟩ := bind_eq_ok.mp ha'
  obtain rfl := h.definer k hk d d' hd hd'
  cases d with
  | none =>
    cases ha
    cases ha'
    exact ⟨rfl, nofun⟩
  | some d =>
    obtain ⟨w, hw, ha⟩ := bind_eq_ok.mp ha
    obtain ⟨w', hw', ha'⟩ := bind_eq_ok.mp ha'
    cases ha
    cases ha'
    refine ⟨rfl, ?_⟩
    rintro _ _ ⟨⟩ ⟨⟩
    exact h.behind k hk d 0 hd w w' hw hw'

end SameOperand

namespace SameView

variable (h : SameView g g' x)
include h

/-- Operands in the same place look alike. -/
theorem operandAt (i : Nat) :
    Together (SameOperand g g') (g.operandAt x i) (g'.operandAt x i) := by
  intro v v' hv hv'
  exact h.operands i v v' (operandAt_eq_ok.mp hv) (operandAt_eq_ok.mp hv')

/-- Both of them do. -/
theorem binaryOperands : Together (fun p p' => SameOperand g g' p.1 p'.1 ∧
    SameOperand g g' p.2 p'.2)
    (g.binaryOperands x) (g'.binaryOperands x) :=
  (h.operandAt 0).bind fun _ _ hl => (h.operandAt 1).bind fun _ _ hr => .pure ⟨hl, hr⟩

/-- So they have the same shapes. -/
theorem operandShape? (i : Nat) :
    Together (· = ·) (g.operandShape? x i) (g'.operandShape? x i) := by
  unfold Graph.operandShape?
  have hlen := h.arity
  cases hi : (g.operands x)[i]? with
  | none =>
    have hi' : (g'.operands x)[i]? = none := by
      rw [List.getElem?_eq_none_iff] at hi ⊢
      omega
    rw [hi']
    exact .ok rfl
  | some v =>
    cases hi' : (g'.operands x)[i]? with
    | none =>
      rw [List.getElem?_eq_none_iff] at hi'
      rw [List.getElem?_eq_some_iff] at hi
      obtain ⟨hi, -⟩ := hi
      omega
    | some v' => exact (h.operands i v v' hi hi').valueShape?

end SameView

/-- A product among two operands is one in either graph. -/
theorem macOperands?_together {l l' r r' : ValueId} (hl : SameOperand g g' l l')
    (hr : SameOperand g g' r r') :
    Together (fun m m' => m.isSome = m'.isSome) (g.macOperands? l r) (g'.macOperands? l' r') := by
  refine (hl.definer .muli (by decide)).bind fun a a' ha => ?_
  refine (hr.definer .muli (by decide)).bind fun b b' hb => ?_
  subst ha hb
  cases a with
  | none =>
    cases b with
    | none => exact .pure rfl
    | some d => exact Together.any.bind fun _ _ _ => Together.any.bind fun _ _ _ => .pure rfl
  | some d =>
    cases b with
    | none => exact Together.any.bind fun _ _ _ => Together.any.bind fun _ _ _ => .pure rfl
    | some d' => exact .pure rfl

end Graph

end SimdLowering
