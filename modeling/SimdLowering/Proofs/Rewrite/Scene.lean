/-
The ground a rewrite stands on.

Rules look at an operation, at what defines its operands, at what defines the operands of
those. None of these looks can fail where three things hold of what is under the root: the
tables agree, everything is read after it is defined, and every operation has as many
operands and results as its kind asks for. This is a `Scene`. The lemmas of this file say,
for each way a rule looks at the graph, that the look succeeds in a scene and that whatever
it finds can itself be read at the operation.

A look is a run that may fail, and a rule is a sequence of looks, so the lemmas come as
`Yields`: the run succeeds and its answer has a property.
-/
import SimdLowering.Proofs.Graph.Validity
import SimdLowering.Proofs.Rewrite.PlanLogic
import SimdLowering.Rules.Match
import SimdLowering.Instr.View

set_option autoImplicit false

namespace SimdLowering

/-! ## Runs that succeed -/

/-- The run succeeds, and its answer has the property. -/
def Yields {ε α : Type} (x : Except ε α) (P : α → Prop) : Prop := ∃ a, x = .ok a ∧ P a

namespace Yields

variable {ε α β : Type} {x : Except ε α} {P P' : α → Prop} {Q : β → Prop}

theorem pure {a : α} (h : P a) : Yields (Pure.pure a : Except ε α) P := ⟨a, rfl, h⟩

theorem ok {a : α} (h : P a) : Yields (.ok a : Except ε α) P := ⟨a, rfl, h⟩

/-- One answer after the other is an answer. -/
theorem bind {f : α → Except ε β} (hx : Yields x P) (hf : ∀ a, P a → Yields (f a) Q) :
    Yields (x >>= f) Q := by
  obtain ⟨a, ha, hP⟩ := hx
  obtain ⟨b, hb, hQ⟩ := hf a hP
  exact ⟨b, bind_eq_ok.mpr ⟨a, ha, hb⟩, hQ⟩

/-- An answer may be worked on. -/
theorem map {f : α → β} (hx : Yields x P) (hf : ∀ a, P a → Q (f a)) : Yields (f <$> x) Q := by
  obtain ⟨a, ha, hP⟩ := hx
  exact ⟨f a, map_eq_ok.mpr ⟨a, ha, rfl⟩, hf a hP⟩

/-- A property may be weakened. -/
theorem mono (hx : Yields x P) (h : ∀ a, P a → P' a) : Yields x P' := by
  obtain ⟨a, ha, hP⟩ := hx
  exact ⟨a, ha, h a hP⟩

/-- The answer of a run that succeeds has the property. -/
theorem of_eq_ok {a : α} (hx : Yields x P) (h : x = .ok a) : P a := by
  obtain ⟨b, hb, hP⟩ := hx
  rw [hb] at h
  exact Except.ok.inj h ▸ hP

end Yields

/-- The run succeeds, and its answer has the property, unless it fails in one of the given ways. -/
def YieldsUnless {ε α : Type} (F : ε → Prop) (x : Except ε α) (P : α → Prop) : Prop :=
  Yields x P ∨ ∃ e, F e ∧ x = .error e

/-- Where there is an answer, no fault needs an excuse. -/
theorem Yields.unless {ε α : Type} {F : ε → Prop} {x : Except ε α} {P : α → Prop}
    (h : Yields x P) : YieldsUnless F x P := Or.inl h

namespace YieldsUnless

variable {ε α β : Type} {F F' : ε → Prop} {x : Except ε α} {P P' : α → Prop} {Q : β → Prop}

theorem pure {a : α} (h : P a) : YieldsUnless F (Pure.pure a : Except ε α) P :=
    (Yields.pure h).unless

theorem ok {a : α} (h : P a) : YieldsUnless F (.ok a : Except ε α) P := (Yields.ok h).unless

theorem error {e : ε} (h : F e) : YieldsUnless F (.error e : Except ε α) P := Or.inr ⟨e, h, rfl⟩

theorem bind {f : α → Except ε β} (hx : YieldsUnless F x P)
    (hf : ∀ a, P a → YieldsUnless F (f a) Q) : YieldsUnless F (x >>= f) Q := by
  rcases hx with ⟨a, rfl, hP⟩ | ⟨e, he, rfl⟩
  · exact hf a hP
  · exact .error he

theorem mono (hx : YieldsUnless F x P) (h : ∀ a, P a → P' a) : YieldsUnless F x P' :=
  hx.imp_left fun hx => hx.mono h

/-- Whatever the ways to fail, a property of the answer is all there is to show. -/
theorem of_forall (h : ∀ a, x = .ok a → P a) : YieldsUnless (fun _ => True) x P := by
  cases hx : x with
  | ok a => exact .ok (h a hx)
  | error e => exact .error trivial

/-- More ways to fail may be allowed. -/
theorem weaken (hx : YieldsUnless F x P) (h : ∀ e, F e → F' e) : YieldsUnless F' x P :=
  hx.imp_right fun ⟨e, he, hx⟩ => ⟨e, h e he, hx⟩

/-- Where there is no way to fail the run succeeds. -/
theorem yields (hx : YieldsUnless F x P) (h : ∀ e, ¬F e) : Yields x P :=
  hx.resolve_right fun ⟨e, he, _⟩ => h e he

/-- A fold succeeds unless one of its steps fails. -/
theorem foldlM {σ : Type} {f : σ → α → Except ε σ} {l : List α}
    (h : ∀ x ∈ l, ∀ s, YieldsUnless F (f s x) fun _ => True) {s : σ} :
    YieldsUnless F (l.foldlM f s) fun _ => True := by
  induction l generalizing s with
  | nil => exact .ok trivial
  | cons x l ih =>
    rw [List.foldlM_cons]
    exact (h x (List.mem_cons_self ..) s).bind fun _ _ =>
      ih fun y hy => h y (List.mem_cons_of_mem _ hy)

/-- The answer of a run that succeeds has the property. -/
theorem of_eq_ok {a : α} (hx : YieldsUnless F x P) (h : x = .ok a) : P a := by
  rcases hx with hx | ⟨e, -, he⟩
  · exact hx.of_eq_ok h
  · rw [he] at h
    cases h

end YieldsUnless

/-! ## Operands and results by kind -/

namespace OpKind

/-- The number of operands that rules and checks take for granted. -/
def arity : OpKind → Nat
  | addi | addf | subi | subf | muli | mulf | minsi | maxsi | minf | maxf | cmpi | cmpf => 2
  | select | fma => 3
  | extsi | extf | reduction | broadcast | extract | concat | upd | transferRead => 1
  | _ => 0

/-- The type that the operands of a generic operation give its result, where they do: a
binary operation has that of its left operand, a select that of its first branch, and a
comparison, reduction or extract has one made from the vector it reads. -/
def resultTyOf (k : OpKind) (operands : List Ty) : Option Ty :=
  match k with
  | addi | addf | subi | subf | muli | mulf | minsi | maxsi | minf | maxf => operands[0]?
  | select => operands[1]?
  | cmpi | cmpf => operands[0]?.map Instr.truthType
  | reduction | extract => operands[0]?.map Ty.elementType
  | _ => none

/-- The kinds that rules and checks look through: where an operation of such a kind defines
what they go for, they go for what it reads as well. -/
def isTransparent : OpKind → Bool
  | muli | mulf | constant | extsi | extf | concat | broadcast | extract => true
  | _ => false

/-- The kinds that rules create. -/
def isLowered (k : OpKind) : Bool := k.dialect == .aievec || k == constant || k == unrealizedCast

end OpKind

namespace Graph

variable {g : Graph} {gone : List OpId} {root o op : OpId} {v w : ValueId} {i : Nat} {k : OpKind}

/-- The operation is built as its kind demands: regions belong to functions only, all but
functions and returns have one result, no operand is missing, and the result has the type
that the operands give it. -/
structure WellShaped (g : Graph) (o : OpId) : Prop where
  bare : g.kind o ≠ .func → g.regionsOf o = []
  single : g.kind o ≠ .func → g.kind o ≠ .ret → ∃ v, g.results o = [v]
  arity : (g.kind o).arity ≤ (g.operands o).length
  typed : ∀ ty, (g.kind o).resultTyOf (g.typesOf (g.operands o)) = some ty → g.resultTypes o = [ty]

/-- The operation is no read of a vector without lanes. Only an overflow can bring a rule down
elsewhere: to align such a read is to divide by its number of lanes. -/
def HasLanes (g : Graph) (o : OpId) : Prop :=
  g.kind o = .transferRead → ∀ shape, g.resultShape? o = some shape → shape.lanes ≠ 0

/-- A number that is computed on behalf of the operation may miss its machine word. This is so for
reads and loads, which come with indices and offsets, and for vectors that are too long where the
bits of a vector are counted or its lanes are doubled. -/
inductive MayOverflow (g : Graph) (o : OpId) : Prop
  | access : g.kind o = .transferRead ∨ g.kind o = .upd → MayOverflow g o
  | doubled {shape : VectorShape} : g.kind o = .addi → g.resultShape? o = some shape →
      twoPow 32 ≤ shape.lanes * 2 → MayOverflow g o
  | result {shape : VectorShape} : g.kind o ∈ [OpKind.minsi, .maxsi, .minf, .maxf, .select] →
      g.resultShape? o = some shape → twoPow 32 ≤ shape.bits → MayOverflow g o
  | operand {ty : Ty} {shape : VectorShape} : g.kind o ∈ [OpKind.cmpi, .cmpf] →
      (g.typesOf (g.operands o))[0]? = some ty → ty.vectorShape = some shape →
      twoPow 32 ≤ shape.bits → MayOverflow g o

/-- The form in which a check comes upon the shape of its operand. -/
theorem MayOverflow.of_operandShape {shape : VectorShape} (hk : g.kind o ∈ [OpKind.cmpi, .cmpf])
    (h : ((g.operands o)[0]?.bind fun v => (g.value v).ty.vectorShape) = some shape)
    (hlong : twoPow 32 ≤ shape.bits) : g.MayOverflow o := by
  obtain ⟨v, hv, hshape⟩ := Option.bind_eq_some_iff.mp h
  have hty : (g.typesOf (g.operands o))[0]? = some (g.value v).ty := by
    rw [typesOf, List.getElem?_map, hv]
    rfl
  exact .operand hk hty hshape hlong

/-- The same, one case after the other, so that it can be decided. -/
theorem mayOverflow_iff : g.MayOverflow o ↔
    (g.kind o = .transferRead ∨ g.kind o = .upd) ∨
    (g.kind o = .addi ∧ ∃ shape ∈ g.resultShape? o, twoPow 32 ≤ shape.lanes * 2) ∨
    (g.kind o ∈ [OpKind.minsi, .maxsi, .minf, .maxf, .select] ∧
      ∃ shape ∈ g.resultShape? o, twoPow 32 ≤ shape.bits) ∨
    (g.kind o ∈ [OpKind.cmpi, .cmpf] ∧ ∃ ty ∈ (g.typesOf (g.operands o))[0]?,
      ∃ shape ∈ ty.vectorShape, twoPow 32 ≤ shape.bits) := by
  constructor
  · intro h
    cases h with
    | access hk => exact Or.inl hk
    | doubled hk hshape hlong => exact Or.inr (Or.inl ⟨hk, _, hshape, hlong⟩)
    | result hk hshape hlong => exact Or.inr (Or.inr (Or.inl ⟨hk, _, hshape, hlong⟩))
    | operand hk hty hshape hlong =>
      exact Or.inr (Or.inr (Or.inr ⟨hk, _, hty, _, hshape, hlong⟩))
  · rintro (hk | ⟨hk, _, hshape, hlong⟩ | ⟨hk, _, hshape, hlong⟩ | ⟨hk, _, hty, _, hshape, hlong⟩)
    · exact .access hk
    · exact .doubled hk hshape hlong
    · exact .result hk hshape hlong
    · exact .operand hk hty hshape hlong

instance : Decidable (g.MayOverflow o) := decidable_of_iff' _ mayOverflow_iff

/-- There is such an operation under the root. -/
def MayOverflowUnder (g : Graph) (root : OpId) : Prop := ∃ o, g.Inside root o ∧ g.MayOverflow o

/-- For a whole function it can be decided, too. -/
theorem mayOverflowUnder_iff : g.MayOverflowUnder root ↔ ∃ o ∈ g.nested root, g.MayOverflow o := by
  simp only [MayOverflowUnder, mem_nested_iff]

instance : Decidable (g.MayOverflowUnder root) := decidable_of_iff' _ mayOverflowUnder_iff

/-- The fault is that a number is too large, and at the operation this may be. -/
def Overflows (g : Graph) (o : OpId) (e : Fault) : Prop := e = .overflow ∧ g.MayOverflow o

/-- The fault is that a number is too large, and somewhere under the root this may be. -/
def OverflowsUnder (g : Graph) (root : OpId) (e : Fault) : Prop :=
  e = .overflow ∧ g.MayOverflowUnder root

/-- What happens at an operation happens under the root. -/
theorem Overflows.under {e : Fault} (hin : g.Inside root o) (h : g.Overflows o e) :
    g.OverflowsUnder root e := ⟨h.1, o, hin, h.2⟩

/-- The ways to fail at an operation: anything can happen at a read without lanes, and at all others
a number may be too large. -/
def Excuses (g : Graph) (o : OpId) (e : Fault) : Prop := g.HasLanes o → g.Overflows o e

/-- What is under the root is consistent, in order and well shaped. -/
structure Scene (g : Graph) (gone : List OpId) (root : OpId) : Prop where
  consistent : Consistent g gone
  ordered : g.Ordered root gone
  shaped : ∀ o, g.Inside root o → g.WellShaped o

/-- The value can be read at `op`, and is one of those that rules go for: `op` reads it, or
an operation that rules look through does. What a sum adds or a load carries is nobody
else's affair. -/
structure AtHand (g : Graph) (root op : OpId) (v : ValueId) : Prop where
  visible : g.Visible root op v
  reader : ∃ d, g.Inside root d ∧ v ∈ g.operands d ∧ (d = op ∨ (g.kind d).isTransparent = true)

/-- The operation defines the value, has the given kind, and all it reads is at hand at
`op` as well. -/
structure Reaches (g : Graph) (root op : OpId) (v : ValueId) (d : OpId) (k : OpKind) :
    Prop where
  inside : g.Inside root d
  kind : g.kind d = k
  defines : v ∈ g.results d
  readable : ∀ w ∈ g.operands d, g.AtHand root op w

/-- The first result is the only one. -/
theorem firstResultType_eq {old : ValueId} (hold : g.results op = [old]) :
    g.firstResultType op = .ok (g.value old).ty := by
  rw [firstResultType, resultTypes, hold]
  rfl

/-- And its shape is that of the operation. -/
theorem resultShape?_eq {old : ValueId} (hold : g.results op = [old]) :
    g.resultShape? op = (g.value old).ty.vectorShape := by
  rw [resultShape?, resultTypes, hold]
  rfl

/-- A number that can only be too large where the operation may overflow is computed. -/
theorem fitU32_yields {n : Nat} (h : twoPow 32 ≤ n → g.MayOverflow o) :
    YieldsUnless (g.Overflows o) (fitU32 n) (· = n) := by
  by_cases hn : n < twoPow 32
  · exact Or.inl ⟨n, fitU32_eq_ok.mpr ⟨hn, rfl⟩, rfl⟩
  · exact Or.inr ⟨.overflow, ⟨rfl, h (Nat.not_lt.mp hn)⟩,
      fitU32_eq_error.mpr ⟨Nat.not_lt.mp hn, rfl⟩⟩

/-- A number that does not fit is an overflow, which is excused where it may be. -/
theorem fitI64_yields {n : Int} (h : g.MayOverflow o) :
    YieldsUnless (g.Overflows o) (fitI64 n) (· = n) := by
  by_cases hn : -(twoPow 63 : Int) ≤ n ∧ n < twoPow 63
  · exact Or.inl ⟨n, fitI64_eq_ok.mpr ⟨hn, rfl⟩, rfl⟩
  · exact Or.inr ⟨.overflow, ⟨rfl, h⟩, fitI64_eq_error.mpr ⟨hn, rfl⟩⟩

/-- An overflow is one of the excuses. -/
theorem excused {α : Type} {x : Except Fault α} {P : α → Prop}
    (h : YieldsUnless (g.Overflows o) x P) : YieldsUnless (g.Excuses o) x P :=
  h.weaken fun _ he _ => he

/-- An operand is found exactly if it is there. -/
theorem operandAt_eq_ok : g.operandAt o i = .ok v ↔ (g.operands o)[i]? = some v := by
  unfold Graph.operandAt
  split <;> simp [*]

/-- The two operands a rule asks for are the first two of the operation. -/
theorem binaryOperands_eq {lhs rhs : ValueId} {rest : List ValueId}
    (h : g.operands o = lhs :: rhs :: rest) : g.binaryOperands o = .ok (lhs, rhs) := by
  simp only [Graph.binaryOperands, Graph.operandAt, h, bind, Except.bind]
  rfl

/-- The position of an extract is what its evaluation reads. -/
theorem intOrZero_of_extractPosition? {position : Int} (h : g.extractPosition? o = some position) :
    (g.attrs o).intOrZero AttrName.position = position := by
  rw [AttrDict.intOrZero, show (g.attrs o).int? AttrName.position = some position from h]
  rfl

/-- A slot below the number of operands of a definition that was reached holds a value
that can be read. -/
theorem Reaches.operandAt {d : OpId} (hd : g.Reaches root op v d k)
    (hi : i < (g.operands d).length) :
    Yields (g.operandAt d i) fun w => (g.operands d)[i]? = some w ∧ g.AtHand root op w := by
  refine ⟨(g.operands d)[i], ?_, List.getElem?_eq_getElem hi, ?_⟩
  · rw [Graph.operandAt, List.getElem?_eq_getElem hi]
  · exact hd.readable _ (List.getElem_mem hi)

/-! ## What defines a value -/

/-- A value is a result of the operation that it names as its origin. -/
theorem mem_results_iff (hc : Consistent g gone) {d : OpId} :
    v ∈ g.results d ↔ g.HasValue v ∧ (g.value v).origin.op? = some d := by
  constructor
  · intro hv
    obtain ⟨i, hi⟩ := List.mem_iff_getElem?.mp hv
    have hval := hc.hasValue_of_mem_results hv
    have horigin := (hc.defines d i v).mp hi
    rw [originOf?_of_hasValue hval, Option.some.injEq] at horigin
    exact ⟨hval, by rw [horigin]; rfl⟩
  · rintro ⟨hval, horigin⟩
    cases ho : (g.value v).origin with
    | argument b i =>
      rw [ho] at horigin
      cases horigin
    | result p i =>
      rw [ho] at horigin
      obtain rfl : p = d := Option.some.inj horigin
      refine List.mem_of_getElem? ((hc.defines p i v).mpr ?_)
      rw [originOf?_of_hasValue hval, ho]

/-- A value is defined by an operation of a kind exactly if it is a result of one. -/
theorem definedBy?_eq_some (hc : Consistent g gone) {d : OpId} :
    g.definedBy? v k = .ok (some d) ↔ v ∈ g.results d ∧ g.kind d = k := by
  rw [mem_results_iff hc]
  unfold definedBy? definingOp? lookup
  by_cases hv : g.HasValue v
  · rw [value?_eq_some hv]
    simp only [bind, Except.bind, pure, Except.pure, Except.ok.injEq, Option.filter_eq_some_iff,
      beq_iff_eq, hv, true_and]
  · rw [value?_eq_none hv]
    exact ⟨nofun, fun h => absurd h.1.1 hv⟩

/-- What an extension extends is its first operand. -/
theorem extensionSource?_eq_some (hc : Consistent g gone) :
    g.extensionSource? v k = .ok (some w) ↔
      ∃ d, v ∈ g.results d ∧ g.kind d = k ∧ (g.operands d)[0]? = some w := by
  unfold extensionSource?
  constructor
  · intro h
    obtain ⟨x, hx, h⟩ := bind_eq_ok.mp h
    cases x with
    | none => cases h
    | some d =>
      obtain ⟨hd, hk⟩ := (definedBy?_eq_some hc).mp hx
      obtain ⟨u, hu, h⟩ := bind_eq_ok.mp h
      obtain rfl := Option.some.inj (Except.ok.inj h)
      exact ⟨d, hd, hk, operandAt_eq_ok.mp hu⟩
  · rintro ⟨d, hd, hk, hslot⟩
    rw [(definedBy?_eq_some hc).mpr ⟨hd, hk⟩]
    simp only [bind, Except.bind, operandAt, hslot]
    rfl

/-- A constant is known by the operation that defines it. -/
theorem constantInt?_eq_some (hc : Consistent g gone) {n : Int} :
    g.constantInt? v = .ok (some n) ↔
      ∃ d, v ∈ g.results d ∧ g.kind d = .constant ∧ (g.attrs d).int? AttrName.value = some n := by
  unfold constantInt?
  constructor
  · intro h
    obtain ⟨x, hx, h⟩ := bind_eq_ok.mp h
    cases x with
    | none => cases h
    | some d =>
      obtain ⟨hd, hk⟩ := (definedBy?_eq_some hc).mp hx
      exact ⟨d, hd, hk, Except.ok.inj h⟩
  · rintro ⟨d, hd, hk, hn⟩
    rw [(definedBy?_eq_some hc).mpr ⟨hd, hk⟩]
    exact congrArg Except.ok hn

namespace Scene

variable (h : Scene g gone root) (hin : g.Inside root op)
include h

/-- What an operation reads is at hand for it. -/
theorem atHand_of_mem_operands (hin : g.Inside root op) (hv : v ∈ g.operands op) :
    g.AtHand root op v :=
  ⟨h.ordered.visible op hin v hv, op, hin, hv, Or.inl rfl⟩

/-- All but functions and returns have one result. -/
theorem single_of_kind (hin : g.Inside root op) (hf : g.kind op ≠ .func)
    (hr : g.kind op ≠ .ret) : ∃ old, g.results op = [old] :=
  (h.shaped op hin).single hf hr

/-- An operation that has a result has no other. -/
theorem results_eq (hin : g.Inside root op) (hf : g.kind op ≠ .func) (hr : g.kind op ≠ .ret)
    (hv : v ∈ g.results op) : g.results op = [v] := by
  obtain ⟨old, hold⟩ := h.single_of_kind hin hf hr
  rw [hold] at hv ⊢
  rw [List.mem_singleton.mp hv]

/-- What can be read has a record. -/
theorem lookup_eq (hv : g.AtHand root op v) : g.lookup v = .ok (g.value v) := by
  rw [lookup, value?_eq_some (hv.visible.hasValue h.consistent)]

theorem valueTy_eq (hv : g.AtHand root op v) : g.valueTy v = .ok (g.value v).ty := by
  rw [valueTy, h.lookup_eq hv]
  rfl

theorem valueShape?_eq (hv : g.AtHand root op v) :
    g.valueShape? v = .ok (g.value v).ty.vectorShape := by
  rw [valueShape?, h.valueTy_eq hv]
  rfl

theorem source_eq (hv : g.AtHand root op v) : g.source v = .ok ⟨.value v, (g.value v).ty⟩ := by
  rw [source, h.valueTy_eq hv]
  rfl

include hin

/-- A slot below the number of operands holds a value that can be read. -/
theorem operandAt (hi : i < (g.operands op).length) :
    Yields (g.operandAt op i) fun v => (g.operands op)[i]? = some v ∧ g.AtHand root op v := by
  refine ⟨(g.operands op)[i], ?_, List.getElem?_eq_getElem hi, ?_⟩
  · rw [Graph.operandAt, List.getElem?_eq_getElem hi]
  · exact h.atHand_of_mem_operands hin (List.getElem_mem hi)

/-- Both operands of a binary operation are there and at hand. -/
theorem binaryOperands (hk : 2 ≤ (g.operands op).length) :
    Yields (g.binaryOperands op) fun p =>
      (g.operands op)[0]? = some p.1 ∧ (g.operands op)[1]? = some p.2 ∧
        g.AtHand root op p.1 ∧ g.AtHand root op p.2 := by
  refine (h.operandAt hin (i := 0) (by omega)).bind fun l hl => ?_
  refine (h.operandAt hin (i := 1) (by omega)).bind fun r hr => ?_
  exact .pure ⟨hl.1, hr.1, hl.2, hr.2⟩

omit hin in
/-- The result has the type that the operands give it. -/
theorem ty_of_result (hin : g.Inside root op) {old : ValueId} {ty : Ty}
    (hold : g.results op = [old])
    (hty : (g.kind op).resultTyOf (g.typesOf (g.operands op)) = some ty) :
    (g.value old).ty = ty := by
  have htyped := (h.shaped op hin).typed ty hty
  rw [resultTypes, typesOf, hold] at htyped
  exact (List.cons.inj htyped).1

omit hin in
/-- Where the operands give a type to the result, there is one. -/
theorem exists_result (hin : g.Inside root op) {ty : Ty}
    (hty : (g.kind op).resultTyOf (g.typesOf (g.operands op)) = some ty) :
    ∃ old, g.results op = [old] ∧ (g.value old).ty = ty := by
  obtain ⟨old, hold⟩ := h.single_of_kind hin (fun hk => by rw [hk] at hty; cases hty)
    (fun hk => by rw [hk] at hty; cases hty)
  exact ⟨old, hold, h.ty_of_result hin hold hty⟩

omit hin in
/-- The type of the operand that decides the type of the result. -/
theorem ty_of_slot (hin : g.Inside root op) {old : ValueId} (hold : g.results op = [old])
    (hk : ∀ tys, (g.kind op).resultTyOf tys = tys[i]?) (hv : (g.operands op)[i]? = some v) :
    (g.value v).ty = (g.value old).ty := by
  refine (h.ty_of_result hin hold ?_).symm
  rw [hk, typesOf, List.getElem?_map, hv]
  rfl

/-- The operation that defines a readable value, if it is a result. -/
theorem definingOp? (hv : g.AtHand root op v) :
    Yields (g.definingOp? v) fun x => x = (g.value v).origin.op? ∧
      ∀ d, x = some d → g.Inside root d ∧ v ∈ g.results d ∧
        ∀ w ∈ g.operands d, g.Visible root op w := by
  refine ⟨(g.value v).origin.op?, ?_, rfl, fun d hd => ?_⟩
  · rw [Graph.definingOp?, h.lookup_eq hv]
    rfl
  · have horigin := originOf?_of_hasValue (hv.visible.hasValue h.consistent)
    cases ho : (g.value v).origin with
    | argument b i =>
      rw [ho] at hd
      cases hd
    | result p i =>
      rw [ho] at hd horigin
      obtain rfl : p = d := Option.some.inj hd
      have hdef := List.mem_of_getElem? ((h.consistent.defines p i v).mpr horigin)
      obtain ⟨hp, hread⟩ := hv.visible.through h.consistent h.ordered.visible hin hdef
      exact ⟨hp, hdef, hread⟩

/-- Looking for the operation that defines a value comes back, and what it finds can be reached. -/
theorem definedBy? (hv : g.AtHand root op v) (k : OpKind) (hk : k.isTransparent = true) :
    Yields (g.definedBy? v k) fun x => ∀ d, x = some d → g.Reaches root op v d k := by
  refine (h.definingOp? hin hv).bind fun x hx => .pure fun d hd => ?_
  obtain ⟨hsome, hkind⟩ := Option.filter_eq_some_iff.mp hd
  have hkind : g.kind d = k := by simpa using hkind
  obtain ⟨hd, hdef, hread⟩ := hx.2 d hsome
  exact ⟨hd, hkind, hdef, fun w hw => ⟨hread w hw, d, hd, hw, Or.inr (hkind ▸ hk)⟩⟩

/-- Looking through an extension. -/
theorem extensionSource? (hv : g.AtHand root op v) (k : OpKind) (hk : 1 ≤ k.arity)
    (hthrough : k.isTransparent = true) :
    Yields (g.extensionSource? v k) fun x => ∀ w, x = some w →
      ∃ d, g.Reaches root op v d k ∧ (g.operands d)[0]? = some w ∧ g.AtHand root op w := by
  refine (h.definedBy? hin hv k hthrough).bind fun x hx => ?_
  cases x with
  | none => exact .pure fun w hw => by cases hw
  | some d =>
    have hd := hx d rfl
    have hlen := (h.shaped d hd.inside).arity
    rw [hd.kind] at hlen
    refine (hd.operandAt (i := 0) (by omega)).bind fun w hw => .pure ?_
    intro w' hw'
    obtain rfl := Option.some.inj hw'
    exact ⟨d, hd, hw⟩

/-- Looking for a product among two values. -/
theorem macOperands? {l r : ValueId} (hl : g.AtHand root op l) (hr : g.AtHand root op r) :
    Yields (g.macOperands? l r) fun x => ∀ m, x = some m →
      g.AtHand root op m.lhs ∧ g.AtHand root op m.rhs ∧ g.AtHand root op m.acc ∧
        (m.acc = l ∨ m.acc = r) ∧ ∃ d, g.Inside root d ∧ g.kind d = .muli := by
  have factors : ∀ {v d}, g.Reaches root op v d .muli → 2 ≤ (g.operands d).length := by
    intro v d hd
    have := (h.shaped d hd.inside).arity
    rw [hd.kind] at this
    exact this
  -- Exactly one side has to come from a product; its operands are the factors, the other side is
  -- the summand.
  refine (h.definedBy? hin hl .muli rfl).bind fun x hx => ?_
  refine (h.definedBy? hin hr .muli rfl).bind fun y hy => ?_
  cases x with
  | none =>
    cases y with
    | none => exact .pure fun m hm => by cases hm
    | some d =>
      have hd := hy d rfl
      refine (hd.operandAt (i := 0) (by have := factors hd; omega)).bind
        fun a ha => ?_
      refine (hd.operandAt (i := 1) (by have := factors hd; omega)).bind
        fun b hb => .pure ?_
      intro m hm
      obtain rfl := Option.some.inj hm
      exact ⟨ha.2, hb.2, hl, Or.inl rfl, d, hd.inside, hd.kind⟩
  | some d =>
    cases y with
    | none =>
      have hd := hx d rfl
      refine (hd.operandAt (i := 0) (by have := factors hd; omega)).bind
        fun a ha => ?_
      refine (hd.operandAt (i := 1) (by have := factors hd; omega)).bind
        fun b hb => .pure ?_
      intro m hm
      obtain rfl := Option.some.inj hm
      exact ⟨ha.2, hb.2, hr, Or.inr rfl, d, hd.inside, hd.kind⟩
    | some e => exact .pure fun m hm => by cases hm

/-- The lane layout of an operand, if there is one in the slot. -/
theorem operandShape? (i : Nat) :
    g.operandShape? op i =
      .ok ((g.operands op)[i]?.bind fun v => (g.value v).ty.vectorShape) := by
  unfold Graph.operandShape?
  cases hv : (g.operands op)[i]? with
  | none => rfl
  | some v =>
    exact h.valueShape?_eq (h.atHand_of_mem_operands hin (List.mem_of_getElem? hv))

/-- The operands of a read, sorted out, can all be read. -/
theorem memAccess? : Yields (g.memAccess? op) fun x => ∀ a, x = some a →
    g.AtHand root op a.source ∧ (∀ v ∈ a.indices, g.AtHand root op v) ∧
      a.source :: (a.indices ++ a.trailing.toList) <+: g.operands op ∧
      a.indices.length = (g.value a.source).ty.memoryRank := by
  unfold Graph.memAccess?
  cases hops : g.operands op with
  | nil => exact .ok fun a ha => by cases ha
  | cons s rest =>
    have hs : g.AtHand root op s := h.atHand_of_mem_operands hin (by simp [hops])
    rw [MemAccess.split?]
    have hrank : Yields (Ty.memoryRank <$> g.valueTy s) (· = (g.value s).ty.memoryRank) := by
      rw [h.valueTy_eq hs]
      exact ⟨_, rfl, rfl⟩
    refine hrank.bind fun n hn => .pure fun a ha => ?_
    split at ha
    · cases ha
    · next hlen =>
      obtain rfl := Option.some.inj ha
      have hvis : ∀ v ∈ rest.take n, g.AtHand root op v := fun v hv =>
        h.atHand_of_mem_operands hin
          (by rw [hops]; exact List.mem_cons_of_mem _ (List.mem_of_mem_take hv))
      refine ⟨hs, hvis, ?_, ?_⟩
      · -- The first operand after the indices is the trailing one.
        refine (List.prefix_cons_inj s).mpr ?_
        have hsplit : rest = rest.take n ++ rest.drop n := (List.take_append_drop n rest).symm
        conv_rhs => rw [hsplit]
        refine (List.prefix_append_right_inj _).mpr ?_
        cases rest.drop n with
        | nil => exact List.nil_prefix
        | cons t ts => exact ⟨ts, rfl⟩
      · rw [← hn]
        exact List.length_take_of_le (by omega)

end Scene

end Graph

end SimdLowering
