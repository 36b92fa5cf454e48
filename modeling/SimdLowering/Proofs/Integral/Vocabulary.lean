/-
Integer functions.

Integer arithmetic wraps around, so what a lowering does in a wider accumulator or in another
order can be undone by bringing lanes back into range; float arithmetic rounds, and there it
cannot. The functions described here are the ones of which a lowering keeps every result:
well typed, made of integer arithmetic, comparisons, selects, reductions, splats and reads,
where each read can be done by one load and no sum or difference has a single operand that was
extended from sixteen bits, since that one is brought down by saturating.

A comparison, an extension and a reduction read integers or indices. For the lanewise
arithmetic it does not matter what the lanes hold, because it is done lane by lane in one step
on both sides.
-/
import SimdLowering.Proofs.Eval.Masks
import SimdLowering.Proofs.Rewrite.Evaluation
import SimdLowering.Rules.AddSub
import SimdLowering.Target.Generation

set_option autoImplicit false

namespace SimdLowering

/-- The type is no vector and no memory. -/
def Ty.IsScalar (t : Ty) : Prop := t.elementType = t

theorem Ty.IsScalar.not_isVector {t : Ty} (h : t.IsScalar) : t.isVector = false := by
  cases t with
  | vector n e =>
    have hsize : sizeOf e = sizeOf (Ty.vector n e) := congrArg sizeOf
      (show e = Ty.vector n e from h)
    simp at hsize
  | _ => rfl

/-- The lane counts of two types agree, where they have lane layouts. -/
def Ty.SameLanes (s t : Ty) : Prop :=
  s.vectorShape.map VectorShape.lanes = t.vectorShape.map VectorShape.lanes

/-- The reductions that integer functions have. -/
def integralReductions : List CombiningKind := [.add, .minsi, .maxsi]

/-- Types that the operands and the results of an operation of an integer function have. -/
inductive IntegralTypes (gen : Generation) : OpKind → List Ty → List Ty → Prop
  | ret (operands : List Ty) : IntegralTypes gen .ret operands []
  | constant (t : Ty) : IntegralTypes gen .constant [] [t]
  | binary {kind : OpKind} (t : Ty) :
      kind ∈ [OpKind.addi, .subi, .minsi, .maxsi] → IntegralTypes gen kind [t, t] [t]
  | cmpi (t u : Ty) : t.elementType.isFloat = false →
      IntegralTypes gen .cmpi [t, u] [Instr.truthType t]
  | select (n : Nat) (t : Ty) : (∀ shape, t.vectorShape = some shape → shape.lanes = n) →
      IntegralTypes gen .select [.vector n (.i 1), t, t] [t]
  | extsi (s t : Ty) : s.elementType.isFloat = false → s.SameLanes t →
      IntegralTypes gen .extsi [s] [t]
  | reduction (t : Ty) : t.elementType.isFloat = false → t.elementType.IsScalar →
      IntegralTypes gen .reduction [t] [t.elementType]
  | extract (t : Ty) : t.elementType.IsScalar → IntegralTypes gen .extract [t] [t.elementType]
  | broadcast (s t : Ty) : IntegralTypes gen .broadcast [s] [t]
  | transferRead (source : Ty) (indices : List Ty) (t : Ty) (shape : VectorShape) :
      t.vectorShape = some shape → 0 < shape.lanes → 0 < shape.elemBits → 8 ∣ shape.elemBits →
      shape.bits ≤ gen.maxLoadBits → IntegralTypes gen .transferRead (source :: indices) [t]

namespace Graph

variable {g : Graph} {gone : List OpId} {func op d : OpId} {entry : BlockId} {v old : ValueId}
  {args ans : List RtValue} {ρ : Env} {gen : Generation} {bits : Nat}

/-- The value is sign-extended from lanes of the given width. -/
def WidenedFrom (g : Graph) (bits : Nat) (v : ValueId) : Prop :=
  ∃ source, g.extensionSource? v .extsi = .ok (some source) ∧ Rules.laneBits g source = .ok bits

/-- The innermost index of a read is no constant, or one of index type that is not negative. -/
def ReadsForward (g : Graph) (op : OpId) : Prop :=
  ∀ access innermost value, g.memAccess? op = .ok (some access) →
    access.indices.getLast? = some innermost → g.constantInt? innermost = .ok (some value) →
    0 ≤ value ∧ (g.value innermost).ty = .index

/-- The operation is one of those that integer functions are made of. -/
structure Integral (gen : Generation) (g : Graph) (op : OpId) : Prop where
  bare : g.regionsOf op = []
  types : IntegralTypes gen (g.kind op) (g.typesOf (g.operands op)) (g.resultTypes op)
  combines : g.kind op = .reduction → ∀ kind, (g.attrs op).combiningKind? = some kind →
    kind ∈ integralReductions
  forward : g.kind op = .transferRead → g.ReadsForward op
  widths : g.kind op = .addi ∨ g.kind op = .subi → ∀ lhs rhs, g.operands op = [lhs, rhs] →
    (g.WidenedFrom 16 lhs ↔ g.WidenedFrom 16 rhs)

end Graph

/-! ## Results fit their types -/

section

variable {gen : Generation} {kind : OpKind} {attrs : AttrDict} {ks : List Known} {ty : Ty}
  {x : RtValue} {l : List Lane}

/-- The value of an operand is in the range of its type. -/
def Known.Fits (k : Known) : Prop := k.value.Fits k.ty

/-- A list of lanes of the length that the type asks for is shaped to a value that fits. -/
theorem fits_of_laneCount (h : Frame.shapeAs ty l = some x)
    (hlen : ty.isVector = true → l.length = Frame.laneCount ty) : x.Fits ty := by
  refine Frame.fits_of_shapeAs h fun shape hs => ?_
  rw [hlen (isVector_of_vectorShape hs), laneCount_eq hs]

theorem fits_of_isScalar (h : Frame.shapeAs ty l = some x) (hty : ty.IsScalar) : x.Fits ty := by
  refine fits_of_laneCount h fun hv => ?_
  rw [hty.not_isVector] at hv
  cases hv

/-- What an operation of an integer function computes from operands that fit fits too. -/
theorem IntegralTypes.fits (h : IntegralTypes gen kind (ks.map Known.ty) [ty])
    (hks : ∀ k ∈ ks, k.Fits) (he : (Frame.ofKnown kind attrs ks ty).eval = .ok x) :
    x.Fits ty := by
  generalize htys : ks.map Known.ty = tys at h
  generalize hres : [ty] = res at h
  cases h with
  | ret => cases hres
  | constant t =>
    obtain ⟨lane, hx⟩ := Frame.shape_of_constant he
    exact fits_of_laneCount hx fun _ => List.length_replicate
  | binary t hk =>
    obtain ⟨a, rest, rfl, ha, hrest⟩ := List.map_eq_cons_iff.mp htys
    obtain ⟨b, others, rfl, hb, -⟩ := List.map_eq_cons_iff.mp hrest
    obtain ⟨f, hf⟩ : ∃ f, Frame.lanewiseFunction a.ty kind = some f := by
      simp only [List.mem_cons, List.not_mem_nil, or_false] at hk
      rcases hk with rfl | rfl | rfl | rfl <;> exact ⟨_, rfl⟩
    obtain ⟨⟨hla, hlb, -⟩, hx⟩ := (Frame.eval_lanewise hf).mp he
    refine fits_of_laneCount hx fun _ => ?_
    simp only [List.length_take, List.length_zipWith]
    omega
  | cmpi t u ht =>
    obtain ⟨a, rest, rfl, ha, hrest⟩ := List.map_eq_cons_iff.mp htys
    obtain ⟨b, others, rfl, hb, -⟩ := List.map_eq_cons_iff.mp hrest
    obtain ⟨p, hp⟩ : ∃ p, attrs.intPredicate? = some p := Frame.predicate_of_cmpi he
    obtain ⟨⟨hla, hlb, -⟩, hx⟩ := (Frame.eval_cmpi hp).mp he
    refine fits_of_laneCount hx fun _ => ?_
    simp only [List.length_take, List.length_zipWith]
    omega
  | select n t hn =>
    obtain ⟨c, rest, rfl, hc, hrest⟩ := List.map_eq_cons_iff.mp htys
    obtain ⟨a, rest, rfl, ha, hrest⟩ := List.map_eq_cons_iff.mp hrest
    obtain ⟨b, others, rfl, hb, -⟩ := List.map_eq_cons_iff.mp hrest
    cases hres
    obtain ⟨l, hl, hx⟩ := Frame.eval_select.mp he
    refine Frame.fits_of_shapeAs hx fun shape hs => ?_
    rw [Frame.length_chooseLanes hl]
    exact (hks a (by simp)).length shape (by rw [ha]; exact hs)
  | extsi s t hs hlanes =>
    obtain ⟨a, others, rfl, ha, -⟩ := List.map_eq_cons_iff.mp htys
    cases hres
    refine Frame.fits_of_shapeAs ((Frame.eval_convert (Or.inl rfl)).mp he) fun shape hshape => ?_
    -- The operand has as many lanes as the result.
    rw [Ty.SameLanes, hshape, ← ha] at hlanes
    obtain ⟨shape', hshape', hn⟩ := Option.map_eq_some_iff.mp hlanes
    rw [← hn]
    exact (hks a (by simp)).length shape' hshape'
  | reduction t ht hscalar =>
    cases hres
    obtain ⟨lane, hx⟩ := Frame.shape_of_reduction he
    exact fits_of_isScalar hx hscalar
  | extract t hscalar =>
    obtain ⟨a, others, rfl, ha, -⟩ := List.map_eq_cons_iff.mp htys
    cases hres
    obtain ⟨lane, -, hx⟩ := Frame.eval_extract.mp he
    exact fits_of_isScalar hx hscalar
  | broadcast s t =>
    obtain ⟨a, others, rfl, ha, -⟩ := List.map_eq_cons_iff.mp htys
    obtain ⟨lane, -, hx⟩ := Frame.eval_broadcast.mp he
    exact fits_of_laneCount hx fun _ => List.length_replicate
  | transferRead source indices t shape hs _ _ _ _ =>
    obtain ⟨a, rest, rfl, ha, -⟩ := List.map_eq_cons_iff.mp htys
    obtain ⟨shape, elem, -, -, -, hx⟩ := Frame.eval_transferRead he
    refine fits_of_laneCount hx fun _ => ?_
    simp [Frame.window]

end

end SimdLowering
