/-
Checking a plan, step by step.

A plan is checked by following it: each step it emits reads values of the graph or earlier
steps, and whatever could be read before it can be read after it. The lemmas here are the
ones that are used at every step; the plans of the single rules are checked where the rules
are.
-/
import SimdLowering.Proofs.Rewrite.Lawful
import SimdLowering.Instr.Target
import SimdLowering.Target.Generation

set_option autoImplicit false

namespace SimdLowering

variable {R : Site} {Γ : List Ty} {s a b c : Source} {d : Step} {t ty : Ty} {n : Nat}
  {α : Type}

/-- The operand can be read after the steps of the context. -/
def Readable (R : Site) (Γ : List Ty) (s : Source) : Prop :=
  Source.Fine R.reads Γ.length s

/-- Whether a vector fills a register is decided if its bits can be counted, which is asked for
listed widths only. -/
theorem fillsRegister_eq_ok {shape : VectorShape} {full : Bool} :
    shape.fillsRegister = .ok full ↔
      (fullRegisterWidths.contains shape.elemBits = true → shape.bits < twoPow 32) ∧
        full = shape.isFullRegister := by
  unfold VectorShape.fillsRegister VectorShape.isFullRegister
  by_cases hwidth : fullRegisterWidths.contains shape.elemBits = true
  · rw [if_pos hwidth, hwidth, Bool.true_and]
    constructor
    · intro h
      obtain ⟨n, hn, h⟩ := bind_eq_ok.mp h
      obtain ⟨hshort, rfl⟩ := fitU32_eq_ok.mp hn
      exact ⟨fun _ => hshort, (Except.ok.inj h).symm⟩
    · rintro ⟨hshort, rfl⟩
      exact bind_eq_ok.mpr ⟨_, fitU32_eq_ok.mpr ⟨hshort rfl, rfl⟩, rfl⟩
  · rw [if_neg hwidth, Bool.eq_false_iff.mpr hwidth, Bool.false_and]
    constructor
    · intro h
      exact ⟨nofun, (Except.ok.inj h).symm⟩
    · rintro ⟨-, rfl⟩
      rfl

/-- The bits of a register can be counted. -/
theorem VectorShape.bits_lt_of_isFullRegister {shape : VectorShape}
    (h : shape.isFullRegister = true) : shape.bits < twoPow 32 := by
  have hbits : shape.bits = fullRegisterBits := by
    simpa using (Bool.and_eq_true_iff.mp h).2
  rw [hbits]
  decide

/-- A vector that fills a register is seen to do so. -/
theorem fillsRegister_of_full {shape : VectorShape} (h : shape.isFullRegister = true) :
    shape.fillsRegister = .ok true :=
  fillsRegister_eq_ok.mpr ⟨fun _ => shape.bits_lt_of_isFullRegister h, h.symm⟩

/-- Whether a vector fills a register is decided unless its bits cannot be counted. -/
theorem fillsRegister_yields {g : Graph} {op : OpId} {shape : VectorShape}
    (h : twoPow 32 ≤ shape.bits → g.MayOverflow op) :
    YieldsUnless (g.Overflows op) shape.fillsRegister (· = shape.isFullRegister) := by
  by_cases hshort : shape.bits < twoPow 32
  · exact Or.inl ⟨_, fillsRegister_eq_ok.mpr ⟨fun _ => hshort, rfl⟩, rfl⟩
  unfold VectorShape.fillsRegister VectorShape.isFullRegister
  split
  · next hwidth =>
    have hlong := Nat.not_lt.mp hshort
    exact (Graph.fitU32_yields fun _ => h hlong).bind fun n hn => .pure (by rw [hn, hwidth]; rfl)
  · next hwidth => exact .pure (by rw [Bool.eq_false_iff.mpr hwidth]; rfl)

/-- A value can be read if the place where the plan is made can read it. -/
theorem Readable.value {v : ValueId} (h : R.reads v) : Readable R Γ (.value v) := h

/-- One more step takes nothing away. -/
theorem Readable.snoc (h : Readable R Γ s) : Readable R (Γ ++ [t]) s :=
  Source.Fine.mono (fun _ h => h) (by simp) h

/-- The step just emitted can be read. -/
theorem Readable.last : Readable R (Γ ++ [t]) (.step Γ.length) := by
  change Γ.length < (Γ ++ [t]).length
  simp

/-- A step with one result and no regions can be created where its operands can be
read. -/
theorem StepOk.of_operands {l : List Source} (hres : d.results = [ty]) (hbare : d.regions = [])
    (hops : d.operands = l) (hk : d.kind.isLowered = true) (harity : d.kind.arity ≤ l.length)
    (hload : d.kind = .upd → R.loads ty ∧ 0 ≤ d.attrs.intOrZero AttrName.offset)
    (h : ∀ s ∈ l, Readable R Γ s) (hmac : d.kind = .fma → R.macs) :
    StepOk R Γ.length d where
  result := ⟨ty, hres⟩
  bare := hbare
  reads := by
    rw [hops]
    exact h
  lowered := hk
  arity := by
    rw [hops]
    exact harity
  loads := by
    rw [Draft.resultType, hres]
    exact hload
  macs := hmac

/-- Nothing is read. -/
theorem reads_none : ∀ s ∈ ([] : List Source), Readable R Γ s := by
  simp

/-- One source is read. -/
theorem reads_one (ha : Readable R Γ a) : ∀ s ∈ [a], Readable R Γ s := by
  simpa using ha

/-- Two are. -/
theorem reads_two (ha : Readable R Γ a) (hb : Readable R Γ b) : ∀ s ∈ [a, b], Readable R Γ s := by
  simp [ha, hb]

/-- Three are. -/
theorem reads_three (ha : Readable R Γ a) (hb : Readable R Γ b) (hc : Readable R Γ c) :
    ∀ s ∈ [a, b, c], Readable R Γ s := by
  simp [ha, hb, hc]

/-- A step that is emitted and read on. -/
theorem Makes.step {f : Operand Source → Plan α} {Q : List Ty → α → Prop}
    (hd : StepOk R Γ.length d)
    (h : (f ⟨.step Γ.length, d.resultType⟩).Makes (Builds R) (Γ ++ [d.resultType]) Q) :
    (Plan.emit d >>= f).Makes (Builds R) Γ Q :=
  .emit_bind ⟨hd, rfl⟩ h

/-- The last step of a plan. -/
theorem Makes.final (hd : StepOk R Γ.length d) (hty : d.resultType = ty)
    (hk : d.kind ≠ .constant) :
    (pure d : Plan Step).Makes (Builds R) Γ (EndsAs R ty) :=
  .pure ⟨hd, hty, hk⟩

/-- A plan for an operand: what it gives can be read, and is of the type it says. -/
def Gives (R : Site) (ty : Ty) (Γ : List Ty) (o : Operand Source) : Prop :=
  Readable R Γ o.ref ∧ o.ty = ty

/-- A step that is in order gives a result of the type that it names. -/
theorem Makes.emit_gives (hd : StepOk R Γ.length d) :
    (Plan.emit d).Makes (Builds R) Γ (Gives R d.resultType) :=
  .emit ⟨hd, rfl⟩ ⟨.last, rfl⟩

/-- A plan whose last step is made from the operand another plan gives. -/
theorem Makes.gives_bind {p : Plan (Operand Source)} {f : Operand Source → Plan α}
    {Q : List Ty → α → Prop} (hp : p.Makes (Builds R) Γ (Gives R t))
    (hf : ∀ Δ o, (∃ Θ, Δ = Γ ++ Θ) → Readable R Δ o.ref → o.ty = t →
      (f o).Makes (Builds R) Δ Q) : (p >>= f).Makes (Builds R) Γ Q :=
  hp.bind fun Δ o hΔ ho => hf Δ o hΔ ho.1 ho.2

/-! ## The instructions -/

section Instr

open SimdLowering.Instr

/-- A constant needs nothing. -/
theorem stepOk_constantInt (value : Int) : StepOk R Γ.length (constantInt (α := Source) ty value) :=
  .of_operands rfl rfl rfl rfl (Nat.zero_le _) nofun reads_none nofun

theorem stepOk_constantZero : StepOk R Γ.length (constantZero (α := Source) ty) := by
  unfold constantZero
  split
  · exact .of_operands rfl rfl rfl rfl (Nat.zero_le _) nofun reads_none nofun
  · exact stepOk_constantInt 0

theorem stepOk_unrealizedCast (ha : Readable R Γ a) :
    StepOk R Γ.length (unrealizedCast a ty) :=
  .of_operands rfl rfl rfl rfl (Nat.zero_le _) nofun (reads_one ha) nofun

/-- A load needs a type that may be loaded, an offset that is not negative, and sources that can be
read. -/
theorem stepOk_upd {indices : List Source} {offset index : Int} {carry : Option Source}
    (hload : R.loads ty) (hoffset : 0 ≤ offset) (ha : Readable R Γ a)
    (hi : ∀ s ∈ indices, Readable R Γ s) (hc : ∀ s ∈ carry.toList, Readable R Γ s) :
    StepOk R Γ.length (upd ty a indices offset index carry) := by
  refine .of_operands (l := a :: indices ++ carry.toList) rfl rfl rfl rfl ?_
    (fun _ => ⟨hload, hoffset⟩) ?_ nofun
  · simp [Draft.withAttr, OpKind.arity, upd, Draft.pureOp]
  · intro s hs
    rcases List.mem_append.mp hs with hs | hs
    · rcases List.mem_cons.mp hs with rfl | hs
      · exact ha
      · exact hi s hs
    · exact hc s hs

theorem stepOk_ups (ha : Readable R Γ a) (shift : Int) : StepOk R Γ.length (ups ty a shift) :=
  .of_operands rfl rfl rfl rfl (Nat.zero_le _) nofun (reads_one ha) nofun

theorem stepOk_srs (ha : Readable R Γ a) (shift : Int) : StepOk R Γ.length (srs ty a shift) :=
  .of_operands rfl rfl rfl rfl (Nat.zero_le _) nofun (reads_one ha) nofun

theorem stepOk_cast (ha : Readable R Γ a) (acc : Bool) : StepOk R Γ.length (cast ty a acc) :=
  .of_operands rfl rfl rfl rfl (Nat.zero_le _) nofun (reads_one ha) nofun

/-- A concatenation of two reads both. -/
theorem stepOk_concat (ha : Readable R Γ a) (hb : Readable R Γ b) :
    StepOk R Γ.length (concat ty [a, b]) :=
  .of_operands rfl rfl rfl rfl (Nat.le_succ 1) nofun (reads_two ha hb) nofun

theorem stepOk_ext (ha : Readable R Γ a) (index : Int) : StepOk R Γ.length (ext ty a index) :=
  .of_operands rfl rfl rfl rfl (Nat.zero_le _) nofun (reads_one ha) nofun

/-- A shift reads two vectors and an amount. -/
theorem stepOk_shift (ha : Readable R Γ a) (hb : Readable R Γ b) (hc : Readable R Γ c)
    (acc : Bool) : StepOk R Γ.length (shift ty a b c acc) :=
  .of_operands rfl rfl rfl rfl (Nat.zero_le _) nofun (reads_three ha hb hc) nofun

theorem stepOk_extElem (ha : Readable R Γ a) (hb : Readable R Γ b) :
    StepOk R Γ.length (extElem ty a b) :=
  .of_operands rfl rfl rfl rfl (Nat.zero_le _) nofun (reads_two ha hb) nofun

theorem stepOk_broadcastLane (ha : Readable R Γ a) (idx : Int) :
    StepOk R Γ.length (broadcastLane ty a idx) :=
  .of_operands rfl rfl rfl rfl (Nat.zero_le _) nofun (reads_one ha) nofun

theorem stepOk_broadcastScalar (ha : Readable R Γ a) :
    StepOk R Γ.length (broadcastScalar ty a) :=
  .of_operands rfl rfl rfl rfl (Nat.zero_le _) nofun (reads_one ha) nofun

/-- Sums and differences with a shuffle are alike. -/
theorem stepOk_shuffled (sum : Bool) (ha : Readable R Γ a) (hb : Readable R Γ b) (x : Shuffle) :
    StepOk R Γ.length ((if sum then add else sub) ty a b x) := by
  cases sum
  · exact .of_operands (l := [a, b]) rfl rfl rfl rfl (Nat.zero_le _) nofun (reads_two ha hb) nofun
  · exact .of_operands (l := [a, b]) rfl rfl rfl rfl (Nat.zero_le _) nofun (reads_two ha hb) nofun

/-- A multiply-add with a shuffle is made in some places only. -/
theorem stepOk_fma (hmac : R.macs) (ha : Readable R Γ a) (hb : Readable R Γ b)
    (hc : Readable R Γ c) (x : Shuffle) (fmsub : Bool) :
    StepOk R Γ.length (fma ty a b c x fmsub) :=
  .of_operands (l := [a, b, c]) rfl rfl rfl rfl (Nat.le_refl 3) nofun (reads_three ha hb hc)
    fun _ => hmac

theorem stepOk_mulElem (ha : Readable R Γ a) (hb : Readable R Γ b) :
    StepOk R Γ.length (mulElem ty a b) :=
  .of_operands rfl rfl rfl rfl (Nat.zero_le _) nofun (reads_two ha hb) nofun

/-- The lanewise one is made anywhere. -/
theorem stepOk_fmaElem {o : Operand Source} (ha : Readable R Γ a) (hb : Readable R Γ b)
    (hc : Readable R Γ o.ref) (fmsub : Bool) : StepOk R Γ.length (fmaElem a b o fmsub) :=
  .of_operands rfl rfl rfl rfl (Nat.zero_le _) nofun (reads_three ha hb hc) nofun

theorem stepOk_cmp (ha : Readable R Γ a) (hb : Readable R Γ b) (pred : String) :
    StepOk R Γ.length (cmp ty a b pred) :=
  .of_operands rfl rfl rfl rfl (Nat.zero_le _) nofun (reads_two ha hb) nofun

/-- A select reads both branches and a mask. -/
theorem stepOk_sel {o : Operand Source} (ha : Readable R Γ o.ref) (hb : Readable R Γ b)
    (hc : Readable R Γ c) : StepOk R Γ.length (sel o b c) :=
  .of_operands rfl rfl rfl rfl (Nat.zero_le _) nofun (reads_three ha hb hc) nofun

/-- The lanewise instructions of two operands, which take the type of the first. -/
theorem stepOk_lanewise {k : OpKind} {o : Operand Source} (hk : k.isLowered = true)
    (harity : k.arity ≤ 2) (hload : k ≠ .upd) (ha : Readable R Γ o.ref) (hb : Readable R Γ b)
    (hmac : k ≠ .fma) : StepOk R Γ.length (.pureOp k [o.ref, b] o.ty) :=
  .of_operands rfl rfl rfl hk harity (fun h => absurd h hload) (reads_two ha hb)
    fun h => absurd h hmac

end Instr

end SimdLowering
