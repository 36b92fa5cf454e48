/-
Evaluating a plan, step by step.

A plan is evaluated by following it, like it is checked: each step it emits computes from
known operands, which are values of the graph or results of earlier steps, and its result is
known from then on. There is one lemma for each instruction that the rules for integer
functions emit. It asks only that the lanes of the result are shaped from those of the
operands; what these lanes are is a matter of the rule.
-/
import SimdLowering.Proofs.Eval.Masks
import SimdLowering.Proofs.Rewrite.Simulation
import SimdLowering.Rules.AddSub

set_option autoImplicit false

namespace SimdLowering

variable {g : Graph} {ρ : Env} {Γ : List Known} {d : Step} {s a b c : Source}
  {ka kb kc k : Known} {o : Operand Source} {ty : Ty} {x : RtValue} {l : List Lane} {α : Type}

/-- A step with one result whose operands are known. -/
theorem Evaluates.of_operands {ops : List Source} {ks : List Known} (hres : d.results = [ty])
    (hbare : d.regions = []) (hops : d.operands = ops)
    (hks : List.Forall₂ (Source.Holds g ρ Γ) ops ks)
    (h : (Frame.ofKnown d.kind d.attrs ks ty).eval = .ok x) : Evaluates g ρ Γ d ⟨ty, x⟩ where
  result := hres
  bare := hbare
  eval := ⟨ks, by rw [hops]; exact hks, h⟩

/-- The result of the step is of the type that it says. -/
theorem Evaluates.resultType (h : Evaluates g ρ Γ d k) : d.resultType = k.ty := by
  rw [Draft.resultType, h.result]
  rfl

/-- A plan for an operand: what it gives is known, with the type it says. -/
def Yielding (g : Graph) (ρ : Env) (k : Known) (Γ : List Known) (o : Operand Source) : Prop :=
  o.ref.Holds g ρ Γ k ∧ o.ty = k.ty

/-- What is there is there after one more step. -/
theorem Yielding.snoc {k' : Known} (h : Yielding g ρ k Γ o) : Yielding g ρ k (Γ ++ [k']) o :=
  ⟨h.1.snoc, h.2⟩

/-- The step just emitted is known. -/
theorem Evaluates.yielding (h : Evaluates g ρ Γ d k) :
    Yielding g ρ k (Γ ++ [k]) ⟨.step Γ.length, d.resultType⟩ :=
  ⟨.last, h.resultType⟩

/-- A step that evaluates gives its value to what follows. -/
theorem Evaluates.emits (h : Evaluates g ρ Γ d k) :
    (Plan.emit d).Makes (Evaluates g ρ) Γ (Yielding g ρ k) :=
  .emit h h.yielding

/-- A step that is emitted and read on. -/
theorem Evaluates.then {f : Operand Source → Plan α} {Q : List Known → α → Prop}
    (h : Evaluates g ρ Γ d k)
    (hf : ∀ o, Yielding g ρ k (Γ ++ [k]) o → (f o).Makes (Evaluates g ρ) (Γ ++ [k]) Q) :
    (Plan.emit d >>= f).Makes (Evaluates g ρ) Γ Q :=
  .emit_bind h (hf _ h.yielding)

/-- The last step of a plan. -/
theorem Evaluates.ends (h : Evaluates g ρ Γ d k) :
    (pure d : Plan Step).Makes (Evaluates g ρ) Γ fun Γ d => Evaluates g ρ Γ d k :=
  .pure h

/-! ## The instructions -/

section Instr

open SimdLowering.Instr SimdLowering.Frame

/-- A constant is its number in each lane. -/
theorem evaluates_constantInt {v : Int}
    (h : shapeAs ty (List.replicate (laneCount ty) (.int v)) = some x) :
    Evaluates g ρ Γ (constantInt ty v) ⟨ty, x⟩ := by
  refine .of_operands rfl rfl rfl .nil ?_
  exact (eval_constant rfl).mpr h

/-- A small number as a 32-bit constant. -/
theorem evaluates_i32 {v : Int} (h₀ : 0 ≤ v) (h : v < twoPow 31) :
    Evaluates g ρ Γ (constantInt (.i 32) v) ⟨.i 32, .scalar (.int v)⟩ := by
  refine evaluates_constantInt ?_
  have hv : Lane.normalize (.ofTy (.i 32)) (.int v) = .int v :=
    congrArg Lane.int (wrapInt_eq_self (by decide) h₀ h)
  rw [show List.replicate (laneCount (.i 32)) (Lane.int v) = [.int v] from rfl,
    shapeAs_of_not_isVector rfl rfl, hv]

/-- A cast brings lanes into the range of the type. -/
theorem evaluates_cast (ha : a.Holds g ρ Γ ka) (acc : Bool)
    (h : shapeAs ty ka.lanes = some x) : Evaluates g ρ Γ (cast ty a acc) ⟨ty, x⟩ := by
  refine .of_operands rfl rfl rfl (.cons ha .nil) ?_
  exact (eval_convert (Or.inr rfl)).mpr h

/-- Going up keeps integers as they are. -/
theorem evaluates_ups {bits : Nat} {sign : Signedness} (ha : a.Holds g ρ Γ ka)
    (hty : ElemKind.ofTy ty = .int bits sign)
    (h : shapeAs ty (ka.lanes.map fun l => .int (wrap128 l.asInt)) = some x) :
    Evaluates g ρ Γ (ups ty a 0) ⟨ty, x⟩ := by
  refine .of_operands rfl rfl rfl (.cons ha .nil) ?_
  exact (eval_ups hty rfl).mpr h

/-- And floats, whatever the shift. -/
theorem evaluates_floatUps {format : FloatFormat} (ha : a.Holds g ρ Γ ka) (shift : Int)
    (hty : ElemKind.ofTy ty = .float format) (h : shapeAs ty ka.lanes = some x) :
    Evaluates g ρ Γ (ups ty a shift) ⟨ty, x⟩ := by
  refine .of_operands rfl rfl rfl (.cons ha .nil) ?_
  exact (eval_floatMove (Or.inl rfl) hty).mpr h

/-- Coming down rounds floats to the type and does not shift them. -/
theorem evaluates_floatSrs {format : FloatFormat} (ha : a.Holds g ρ Γ ka) (shift : Int)
    (hty : ElemKind.ofTy ty = .float format) (h : shapeAs ty ka.lanes = some x) :
    Evaluates g ρ Γ (srs ty a shift) ⟨ty, x⟩ := by
  refine .of_operands rfl rfl rfl (.cons ha .nil) ?_
  exact (eval_floatMove (Or.inr rfl) hty).mpr h

/-- An instruction on two operands lane by lane, of the type of the first. -/
theorem evaluates_lanewise {kind : OpKind} {f : Lane → Lane → Lane}
    (hf : lanewiseFunction ka.ty kind = some f) (ho : Yielding g ρ ka Γ o)
    (hb : b.Holds g ρ Γ kb) (hty : ka.ty = k.ty) (hla : laneCount k.ty ≤ ka.lanes.length)
    (hlb : laneCount k.ty ≤ kb.lanes.length)
    (hable : laneCount k.ty ≠ 0 → lanewiseAble ka.ty kind = true)
    (h : shapeAs k.ty ((List.zipWith f ka.lanes kb.lanes).take (laneCount k.ty)) =
      some k.value) : Evaluates g ρ Γ (.pureOp kind [o.ref, b] o.ty) k := by
  rw [ho.2, hty]
  refine .of_operands rfl rfl rfl (.cons ho.1 (.cons hb .nil)) ?_
  exact (eval_lanewise hf).mpr ⟨⟨hla, hlb, hable⟩, h⟩

/-- Where lanes can be brought into range, all lanewise kinds are able to combine them. -/
theorem lanewiseAble_of_wraps (h : (ElemKind.ofTy ty).wraps = true) (kind : OpKind) :
    lanewiseAble ty kind = true := by
  cases kind <;> first | exact ElemKind.orders_of_wraps h | rfl

/-- A vector is computed from any lanes, if there are enough. -/
theorem evaluates_lanewise_vector {kind : OpKind} {f : Lane → Lane → Lane}
    (hf : lanewiseFunction ka.ty kind = some f) (ho : Yielding g ρ ka Γ o)
    (hb : b.Holds g ρ Γ kb) (hv : ka.ty.isVector = true)
    (hw : (ElemKind.ofTy ka.ty).wraps = true)
    (hla : laneCount ka.ty ≤ ka.lanes.length) (hlb : laneCount ka.ty ≤ kb.lanes.length) :
    Evaluates g ρ Γ (.pureOp kind [o.ref, b] o.ty) ⟨ka.ty, .vector
      (((List.zipWith f ka.lanes kb.lanes).take (laneCount ka.ty)).map
        (Lane.normalize (.ofTy ka.ty)))⟩ :=
  evaluates_lanewise hf ho hb rfl hla hlb (fun _ => lanewiseAble_of_wraps hw kind)
    (shapeAs_of_isVector hv (Or.inr hw))

/-- A part of a vector is taken out by its number. -/
theorem evaluates_ext {index : Nat} (ha : a.Holds g ρ Γ ka) (hi : index + 1 < twoPow 64)
    (hn : (index + 1) * laneCount ty < twoPow 64)
    (hlen : (index + 1) * laneCount ty ≤ ka.lanes.length)
    (h : shapeAs ty ((ka.lanes.drop (index * laneCount ty)).take (laneCount ty)) = some x) :
    Evaluates g ρ Γ (ext ty a index) ⟨ty, x⟩ := by
  refine .of_operands rfl rfl rfl (.cons ha .nil) ?_
  exact eval_ext rfl hi hn hlen h

/-- A shift takes lanes out of two vectors in a row, from where its amount of bytes ends. -/
theorem evaluates_shift {bytes : Int} {n : Nat} (ha : a.Holds g ρ Γ ka) (hb : b.Holds g ρ Γ kb)
    (hc : c.Holds g ρ Γ ⟨.i 32, .scalar (.int bytes)⟩) (acc : Bool)
    (hbits : (ElemKind.ofTy ty).bits ≠ 0) (hfits : fits128 (bytes * 8) = true)
    (hstart : (bytes * 8).tdiv (ElemKind.ofTy ty).bits = n) (hn : n + laneCount ty < twoPow 64)
    (hlen : n + laneCount ty ≤ (ka.lanes ++ kb.lanes).length)
    (h : shapeAs ty (((ka.lanes ++ kb.lanes).drop n).take (laneCount ty)) = some x) :
    Evaluates g ρ Γ (shift ty a b c acc) ⟨ty, x⟩ := by
  refine .of_operands rfl rfl rfl (.cons ha (.cons hb (.cons hc .nil))) ?_
  exact eval_shift hbits rfl hfits hstart hn hlen h

/-- Reading lane zero. -/
theorem evaluates_extElem {lane : Lane} (ha : a.Holds g ρ Γ ka)
    (hb : b.Holds g ρ Γ ⟨.i 32, .scalar (.int 0)⟩) (hlane : ka.lanes.head? = some lane)
    (h : shapeAs ty [lane] = some x) : Evaluates g ρ Γ (extElem ty a b) ⟨ty, x⟩ := by
  refine .of_operands rfl rfl rfl (.cons ha (.cons hb .nil)) ?_
  exact eval_extElem rfl hlane h

/-- A lane of a vector is splat. -/
theorem evaluates_broadcastLane {idx : Int} {lane : Lane} (ha : a.Holds g ρ Γ ka)
    (hlane : ka.lanes[asWord idx]? = some lane)
    (h : shapeAs ty (List.replicate (laneCount ty) lane) = some x) :
    Evaluates g ρ Γ (broadcastLane ty a idx) ⟨ty, x⟩ := by
  refine .of_operands rfl rfl rfl (.cons ha .nil) ?_
  exact eval_broadcastLane.mpr ⟨lane, hlane, h⟩

/-- Or a scalar is. -/
theorem evaluates_broadcastScalar {lane : Lane} (ha : a.Holds g ρ Γ ka)
    (hlane : ka.lanes.head? = some lane)
    (h : shapeAs ty (List.replicate (laneCount ty) lane) = some x) :
    Evaluates g ρ Γ (broadcastScalar ty a) ⟨ty, x⟩ := by
  refine .of_operands rfl rfl rfl (.cons ha .nil) ?_
  exact eval_broadcastScalar hlane h

/-- Two vectors are put in a row. -/
theorem evaluates_concat (ha : a.Holds g ρ Γ ka) (hb : b.Holds g ρ Γ kb)
    (h : shapeAs ty (ka.lanes ++ kb.lanes) = some x) :
    Evaluates g ρ Γ (concat ty [a, b]) ⟨ty, x⟩ := by
  refine .of_operands rfl rfl rfl (.cons ha (.cons hb .nil)) ?_
  exact eval_concat.mpr h

/-- A comparison packs its marks into a mask. -/
theorem evaluates_cmp {p : IntPredicate} (ha : a.Holds g ρ Γ ka) (hb : b.Holds g ρ Γ kb)
    (hable : ka.lanes ≠ [] → (ElemKind.ofTy ka.ty).views = true) (hlen : ka.lanes.length ≤ maskBits)
    (h : shapeAs ty [maskLane (List.zipWith (p.targetHolds (.ofTy ka.ty)) ka.lanes kb.lanes)] =
      some x) : Evaluates g ρ Γ (cmp ty a b p.mnemonic) ⟨ty, x⟩ := by
  refine .of_operands rfl rfl rfl (.cons ha (.cons hb .nil)) ?_
  refine (eval_cmp rfl).mpr ⟨⟨fun hne => hable fun hnil => hne ?_, any_drop_maskBits ?_⟩, h⟩
  · rw [hnil]
    rfl
  · exact (List.length_zipWith.trans_le (Nat.min_le_left ..)).trans hlen

/-- A vector of bits, packed into a word. -/
theorem evaluates_pack (ha : a.Holds g ρ Γ ka) (hmask : isMaskVector ka.ty = true)
    (hty : ty.isVector = false) (hlen : ka.lanes.length ≤ maskBits)
    (h : shapeAs ty [maskLane (ka.lanes.map fun l => decide (l.asInt ≠ 0))] = some x) :
    Evaluates g ρ Γ (unrealizedCast a ty) ⟨ty, x⟩ := by
  refine .of_operands rfl rfl rfl (.cons ha .nil) ?_
  exact (eval_pack hmask hty).mpr ⟨any_drop_maskBits (by rw [List.length_map]; exact hlen), h⟩

/-- A word, unpacked into a vector of bits. -/
theorem evaluates_unpack (ha : a.Holds g ρ Γ ka) (hword : ka.ty.isVector = false)
    (hty : isMaskVector ty = true) (hlen : laneCount ty ≤ maskBits)
    (h : shapeAs ty ((List.range (laneCount ty)).map fun i => .int (bitOf ka.number i)) =
      some x) : Evaluates g ρ Γ (unrealizedCast a ty) ⟨ty, x⟩ := by
  refine .of_operands rfl rfl rfl (.cons ha .nil) ?_
  exact (eval_unpack hword hty).mpr ⟨hlen, h⟩

/-- A scalar, cast to another scalar. -/
theorem evaluates_throughCast (ha : a.Holds g ρ Γ ka) (hscalar : ka.ty.isVector = false)
    (hty : ty.isVector = false) (h : shapeAs ty ka.lanes = some x) :
    Evaluates g ρ Γ (unrealizedCast a ty) ⟨ty, x⟩ := by
  refine .of_operands rfl rfl rfl (.cons ha .nil) ?_
  exact (eval_throughCast hscalar hty).mpr h

/-- A select takes lanes from one vector or the other by the bits of a mask. -/
theorem evaluates_sel {mask : Lane} (ho : Yielding g ρ ka Γ o) (hb : b.Holds g ρ Γ kb)
    (hc : c.Holds g ρ Γ kc) (hmask : kc.lanes.head? = some mask)
    (hlen : ka.lanes.length ≤ maskBits)
    (hl : chooseLanes (fun i => bitOf mask.asInt i == 1) ka.lanes kb.lanes = .ok l)
    (h : shapeAs ka.ty l = some x) : Evaluates g ρ Γ (sel o b c) ⟨ka.ty, x⟩ := by
  refine .of_operands (congrArg (fun t => [t]) ho.2) rfl rfl
    (.cons ho.1 (.cons hb (.cons hc .nil))) ?_
  exact (eval_sel hmask).mpr ⟨hlen, l, hl, h⟩

end Instr

end SimdLowering
