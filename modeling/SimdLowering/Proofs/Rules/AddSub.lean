/-
The rules for sums and differences are lawful.

For integers the rule of the second generation has five ways to plan, and for floats four, and
which one it takes depends on what defines the operands. `IntSum` and `FloatSum` list them with
what is known in each case; that the rule is lawful, that it computes the right value and which
instructions it writes are all read off these lists.
-/
import SimdLowering.Proofs.Rules.Steps
import SimdLowering.Rules.AddSub

set_option autoImplicit false

namespace SimdLowering

namespace Rules

open SimdLowering.Graph

variable {g : Graph} {gone : List OpId} {root op : OpId} {lhs rhs old : ValueId} {ty accTy : Ty}
  {sum : Bool} {shape : VectorShape} {R : Site} {Γ : List Ty} {l r : Operand Source}
  {a b : Source} {k : OpKind}

/-! ## The plans -/

/-- A lanewise step reads two vectors. -/
theorem stepOk_elemStep (hl : Readable R Γ l.ref) (hr : Readable R Γ b) :
    StepOk R Γ.length (elemStep sum l b) := by
  cases sum
  · exact stepOk_lanewise (k := .subElem) rfl (Nat.zero_le _) nofun hl hr nofun
  · exact stepOk_lanewise (k := .addElem) rfl (Nat.zero_le _) nofun hl hr nofun

/-- It has the type of the first. -/
theorem resultType_elemStep : (elemStep sum l b).resultType = l.ty := by
  cases sum <;> rfl

/-- It is a sum or a difference. -/
theorem kind_elemStep : (elemStep sum l b).kind = if sum then .addElem else .subElem := by
  cases sum <;> rfl

theorem kind_elemStep_ne : (elemStep sum l b).kind ≠ .constant := by
  rw [kind_elemStep]
  cases sum <;> decide

/-- Two accumulators are combined and cast back. -/
theorem combineAndCast_makes (hl : Readable R Γ l.ref) (hr : Readable R Γ r.ref) :
    (combineAndCast sum ty l r).Makes (Builds R) Γ (EndsAs R ty) :=
  Makes.step (stepOk_elemStep hl hr) (Makes.final (stepOk_cast .last false) rfl nofun)

/-- Or they are combined and narrowed. -/
theorem combineAndNarrow_makes (hl : Readable R Γ l.ref) (hr : Readable R Γ r.ref) :
    (combineAndNarrow sum ty l r).Makes (Builds R) Γ (EndsAs R ty) :=
  Makes.step (stepOk_elemStep hl hr) (Makes.final (stepOk_srs .last 0) rfl nofun)

/-- Both operands may be viewed as accumulators first. -/
theorem throughViews_makes (ha : Readable R Γ a) (hb : Readable R Γ b) :
    (throughViews sum ty a b).Makes (Builds R) Γ (EndsAs R ty) := by
  refine Makes.step (stepOk_cast ha true) ?_
  refine Makes.step (stepOk_cast hb.snoc true) ?_
  exact combineAndCast_makes Readable.last.snoc .last

/-- Or both are moved into one. -/
theorem bothInto_makes (ha : Readable R Γ a) (hb : Readable R Γ b) :
    (bothInto sum ty accTy a b).Makes (Builds R) Γ (EndsAs R ty) := by
  refine Makes.step (stepOk_ups ha 0) ?_
  refine Makes.step (stepOk_ups hb.snoc 0) ?_
  exact combineAndCast_makes Readable.last.snoc .last

/-- Or the one that is extended from eight bits is, and the other viewed. -/
theorem oneInto_makes (onLeft : Bool) (ha : Readable R Γ a) (hb : Readable R Γ b) :
    (oneInto sum ty accTy onLeft a b).Makes (Builds R) Γ (EndsAs R ty) := by
  refine Makes.step (stepOk_ups ha 0) ?_
  refine Makes.step (stepOk_cast hb.snoc true) ?_
  cases onLeft
  · exact combineAndCast_makes .last Readable.last.snoc
  · exact combineAndCast_makes Readable.last.snoc .last

/-- Or the one that is extended from sixteen bits is. -/
theorem oneNarrow_makes (onLeft : Bool) (ha : Readable R Γ a) (hb : Readable R Γ b) :
    (oneNarrow sum ty accTy onLeft a b).Makes (Builds R) Γ (EndsAs R ty) := by
  refine Makes.step (stepOk_ups ha 0) ?_
  refine Makes.step (stepOk_ups hb.snoc 0) ?_
  cases onLeft
  · exact combineAndNarrow_makes .last Readable.last.snoc
  · exact combineAndNarrow_makes Readable.last.snoc .last

/-! ## The ways to plan an integer sum -/

/-- The value is extended from the source, which can be read and whose lanes have the given
width. -/
structure ExtendedFrom (g : Graph) (root op : OpId) (v source : ValueId) (k : OpKind)
    (bits : Nat) : Prop where
  reaches : ∃ d, g.Reaches root op v d k ∧ (g.operands d)[0]? = some source
  readable : g.AtHand root op source
  width : ((g.value source).ty.vectorShape.map VectorShape.elemBits).getD 0 = bits

/-- How the second generation plans an integer sum or difference of two values. -/
inductive IntSum (g : Graph) (root op : OpId) (sum : Bool) (shape : VectorShape) (ty : Ty)
    (lhs rhs : ValueId) : Plan Step → Prop
  | direct : IntSum g root op sum shape ty lhs rhs
      (pure (elemStep sum ⟨.value lhs, (g.value lhs).ty⟩ (.value rhs)))
  | views : IntSum g root op sum shape ty lhs rhs
      (throughViews sum ty (.value lhs) (.value rhs))
  | both {ls rs : ValueId} {bits : Nat} : shape.elemBits = 32 → isNarrowWidth bits = true →
      ExtendedFrom g root op lhs ls .extsi bits → ExtendedFrom g root op rhs rs .extsi bits →
      IntSum g root op sum shape ty lhs rhs
        (bothInto sum ty (accumulatorOf (g.value ls).ty) (.value ls) (.value rs))
  | one {onLeft : Bool} {source : ValueId} : shape.elemBits = 32 →
      ExtendedFrom g root op (if onLeft then lhs else rhs) source .extsi 8 →
      IntSum g root op sum shape ty lhs rhs
        (oneInto sum ty (accumulatorOf (g.value source).ty) onLeft (.value source)
          (.value (if onLeft then rhs else lhs)))
  | narrow {onLeft : Bool} {source : ValueId} : shape.pair = (16, 32) →
      ExtendedFrom g root op (if onLeft then lhs else rhs) source .extsi 16 →
      (∃ x, g.extensionSource? (if onLeft then rhs else lhs) .extsi = .ok x ∧ x = none) →
      IntSum g root op sum shape ty lhs rhs
        (oneNarrow sum ty (accumulatorOf ty) onLeft (.value source)
          (.value (if onLeft then rhs else lhs)))

/-- However an integer sum is planned, it ends with the type of the sum. -/
theorem IntSum.makes {p : Plan Step} (hl : g.AtHand root op lhs) (hr : g.AtHand root op rhs)
    (hty : (g.value lhs).ty = ty) (h : IntSum g root op sum shape ty lhs rhs p) :
    p.Makes (Builds (g.site root op)) [] (EndsAs (g.site root op) ty) := by
  have side : ∀ onLeft : Bool, g.AtHand root op (if onLeft then rhs else lhs) := by
    intro onLeft
    cases onLeft
    · exact hl
    · exact hr
  cases h with
  | direct =>
    exact Makes.final (stepOk_elemStep (.value hl) (.value hr)) (resultType_elemStep.trans hty)
      kind_elemStep_ne
  | views => exact throughViews_makes (.value hl) (.value hr)
  | both _ _ hls hrs => exact bothInto_makes (.value hls.readable) (.value hrs.readable)
  | one _ hs => exact oneInto_makes _ (.value hs.readable) (.value (side _))
  | narrow _ hs _ => exact oneNarrow_makes _ (.value hs.readable) (.value (side _))

/-! ## The ways to plan a float sum -/

/-- How the second generation plans a float sum or difference of two values. -/
inductive FloatSum (g : Graph) (root op : OpId) (sum : Bool) (shape : VectorShape) (ty : Ty)
    (lhs rhs : ValueId) : Plan Step → Prop
  | views : shape.elemBits = 32 → FloatSum g root op sum shape ty lhs rhs
      (throughViews sum ty (.value lhs) (.value rhs))
  | both {ls rs : ValueId} {bits bits' : Nat} : shape.elemBits = 32 →
      ExtendedFrom g root op lhs ls .extf bits → ExtendedFrom g root op rhs rs .extf bits' →
      FloatSum g root op sum shape ty lhs rhs
        (bothInto sum ty (accumulatorOf (g.value ls).ty) (.value ls) (.value rs))
  | one {onLeft : Bool} {source : ValueId} {bits : Nat} : shape.elemBits = 32 →
      ExtendedFrom g root op (if onLeft then lhs else rhs) source .extf bits →
      FloatSum g root op sum shape ty lhs rhs
        (oneInto sum ty (accumulatorOf (g.value source).ty) onLeft (.value source)
          (.value (if onLeft then rhs else lhs)))
  | narrow : shape.elemBits = 16 → FloatSum g root op sum shape ty lhs rhs
      (oneNarrow sum ty (accumulatorOf ty) true (.value lhs) (.value rhs))

/-- And so does a sum of floats. -/
theorem FloatSum.makes {p : Plan Step} (hl : g.AtHand root op lhs) (hr : g.AtHand root op rhs)
    (h : FloatSum g root op sum shape ty lhs rhs p) :
    p.Makes (Builds (g.site root op)) [] (EndsAs (g.site root op) ty) := by
  cases h with
  | views => exact throughViews_makes (.value hl) (.value hr)
  | both _ hls hrs => exact bothInto_makes (.value hls.readable) (.value hrs.readable)
  | @one onLeft _ _ _ hs =>
    cases onLeft
    · exact oneInto_makes _ (.value hs.readable) (.value hl)
    · exact oneInto_makes _ (.value hs.readable) (.value hr)
  | narrow => exact oneNarrow_makes _ (.value hl) (.value hr)

section Looks

variable (h : Scene g gone root) (hin : g.Inside root op)
include h

/-- The width of the lanes of a value at hand can be told. -/
theorem laneBits_eq {v : ValueId} (hv : g.AtHand root op v) :
    laneBits g v = .ok (((g.value v).ty.vectorShape.map VectorShape.elemBits).getD 0) := by
  rw [laneBits, h.valueShape?_eq hv]
  rfl

/-- Looking for the extension finds its source, with lanes of the width that it has. -/
theorem ExtendedFrom.found {v source : ValueId} {bits : Nat}
    (he : ExtendedFrom g root op v source k bits) :
    g.extensionSource? v k = .ok (some source) ∧ laneBits g source = .ok bits := by
  obtain ⟨d, hd, hslot⟩ := he.reaches
  refine ⟨(extensionSource?_eq_some h.consistent).mpr ⟨d, hd.defines, hd.kind, hslot⟩, ?_⟩
  rw [laneBits_eq h he.readable, he.width]

/-- Where one operand alone is extended, the plan is one of those listed. -/
theorem oneExtendedPlan_spec (onLeft : Bool) {source : ValueId} (he : shape.elemBits = 32)
    (hvis : g.AtHand root op source)
    (hsrc : ∀ bits, laneBits g source = .ok bits →
      ExtendedFrom g root op (if onLeft then lhs else rhs) source .extsi bits)
    (hother : ∃ x, g.extensionSource? (if onLeft then rhs else lhs) .extsi = .ok x ∧ x = none) :
    Yields (oneExtendedPlan g sum shape ty lhs rhs onLeft source)
      (IntSum g root op sum shape ty lhs rhs) := by
  unfold oneExtendedPlan
  have hbits := laneBits_eq h hvis
  rw [hbits]
  generalize ((g.value source).ty.vectorShape.map VectorShape.elemBits).getD 0 = bits at hbits
  have hfrom := hsrc bits hbits
  simp only [bind, Except.bind]
  -- The checks of the plan in their order; the widths that pass them all are eight and sixteen.
  split
  · exact .pure .views
  · next hcond =>
    split
    · next h8 =>
      subst h8
      rw [h.valueTy_eq hvis]
      exact .pure (.one he hfrom)
    · next h8 =>
      simp only [Bool.or_eq_true, Bool.not_eq_eq_eq_not, Bool.not_true, bne_iff_ne, not_or,
        Bool.not_eq_false, not_not] at hcond
      obtain ⟨hn, hbytes⟩ := hcond
      simp only [isNarrowWidth, Bool.or_eq_true, beq_iff_eq] at hn
      obtain rfl : bits = 16 := by omega
      have hlanes : shape.lanes = 16 := by omega
      exact .pure (.narrow (by rw [VectorShape.pair, hlanes, he]) hfrom hother)

include hin

/-- The source of an extension, if the value is one, and its width. -/
theorem extendedFrom {v : ValueId} (hv : g.AtHand root op v) (hk : 1 ≤ k.arity)
    (hthrough : k.isTransparent = true) :
    Yields (g.extensionSource? v k) fun x => ∀ w, x = some w → g.AtHand root op w ∧
      ∀ bits, laneBits g w = .ok bits → ExtendedFrom g root op v w k bits := by
  refine (h.extensionSource? hin hv k hk hthrough).mono fun x hx w hw => ?_
  obtain ⟨d, hd, hslot, hvis⟩ := hx w hw
  refine ⟨hvis, fun bits hbits => ⟨⟨d, hd, hslot⟩, hvis, ?_⟩⟩
  rw [laneBits_eq h hvis] at hbits
  exact Except.ok.inj hbits

/-- And so it is wherever there is a plan for integers. -/
theorem intSumPlan?_spec (hl : g.AtHand root op lhs) (hr : g.AtHand root op rhs) :
    Yields (intSumPlan? g sum shape ty lhs rhs) fun x => ∀ p, x = some p →
      shape.isElementwise = true ∧ IntSum g root op sum shape ty lhs rhs p := by
  unfold intSumPlan?
  split
  · exact .pure fun p hp => by cases hp
  next hshape =>
  have hshape : shape.isElementwise = true := by simpa using hshape
  -- Every way out below has a plan of the list.
  have done : ∀ {p}, IntSum g root op sum shape ty lhs rhs p → Yields
      (pure (some p) : Except Fault (Option (Plan Step))) fun x => ∀ p, x = some p →
        shape.isElementwise = true ∧ IntSum g root op sum shape ty lhs rhs p := by
    intro p hp
    refine .pure fun q hq => ⟨hshape, ?_⟩
    obtain rfl := Option.some.inj hq
    exact hp
  have either : IntSum g root op sum shape ty lhs rhs (directOrViews sum shape ty
      ⟨.value lhs, (g.value lhs).ty⟩ ⟨.value rhs, (g.value rhs).ty⟩) := by
    unfold directOrViews
    split
    · exact .direct
    · exact .views
  rw [h.source_eq hl, h.source_eq hr]
  refine Yields.bind (.ok rfl) fun l hl' => ?_
  subst hl'
  refine Yields.bind (.ok rfl) fun r hr' => ?_
  subst hr'
  refine (h.definingOp? hin hl).bind fun dl _ => ?_
  refine (h.definingOp? hin hr).bind fun dr _ => ?_
  split
  · exact done either
  split
  · exact done .direct
  next he =>
  have he : shape.elemBits = 32 := by simpa using he
  obtain ⟨xl, hxl, hls⟩ := extendedFrom (k := .extsi) h hin hl (Nat.le_refl 1) rfl
  obtain ⟨xr, hxr, hrs⟩ := extendedFrom (k := .extsi) h hin hr (Nat.le_refl 1) rfl
  rw [hxl, hxr]
  refine Yields.bind (.ok rfl) fun x hx => ?_
  subst hx
  refine Yields.bind (.ok rfl) fun y hy => ?_
  subst hy
  cases xl with
  | none =>
    cases xr with
    | none => exact done either
    | some rs =>
      obtain ⟨hvis, hsrc⟩ := hrs rs rfl
      exact (oneExtendedPlan_spec h false he hvis hsrc ⟨_, hxl, rfl⟩).bind fun p hp => done hp
  | some ls =>
    obtain ⟨hvl, hsl⟩ := hls ls rfl
    cases xr with
    | none =>
      exact (oneExtendedPlan_spec h true he hvl hsl ⟨_, hxr, rfl⟩).bind fun p hp => done hp
    | some rs =>
      obtain ⟨hvr, hsr⟩ := hrs rs rfl
      refine Yields.bind (P := fun w => laneBits g ls = .ok w) ⟨_, laneBits_eq h hvl,
        laneBits_eq h hvl⟩ fun w hw => ?_
      refine Yields.bind (P := fun w' => laneBits g rs = .ok w') ⟨_, laneBits_eq h hvr,
        laneBits_eq h hvr⟩ fun w' hw' => ?_
      split
      · exact done .views
      · next hne =>
        obtain ⟨heq, hnarrow⟩ := not_or.mp hne
        have heq : w = w' := by simpa using heq
        subst heq
        rw [h.valueTy_eq hvl]
        exact done (.both he (by simpa using hnarrow) (hsl w hw) (hsr w hw'))

/-- And wherever there is one for floats. -/
theorem floatSumPlan?_spec (hl : g.AtHand root op lhs) (hr : g.AtHand root op rhs) :
    Yields (floatSumPlan? g sum shape ty lhs rhs) fun x => ∀ p, x = some p →
      shape.lanes = 16 ∧ FloatSum g root op sum shape ty lhs rhs p := by
  unfold floatSumPlan?
  split
  · exact .pure fun p hp => by cases hp
  next hlanes =>
  have hlanes : shape.lanes = 16 := not_not.mp hlanes
  -- Where there are sixteen lanes it is enough to name the plan.
  have done : ∀ {p : Plan Step}, FloatSum g root op sum shape ty lhs rhs p →
      Yields (pure (some p) : Except Fault (Option (Plan Step))) fun x => ∀ p, x = some p →
        shape.lanes = 16 ∧ FloatSum g root op sum shape ty lhs rhs p := by
    intro p hp
    refine .pure fun q hq => ⟨hlanes, ?_⟩
    obtain rfl := Option.some.inj hq
    exact hp
  split
  · next he =>
    refine (extendedFrom (k := .extf) h hin hl (Nat.le_refl 1) rfl).bind fun x hx => ?_
    refine (extendedFrom (k := .extf) h hin hr (Nat.le_refl 1) rfl).bind fun y hy => ?_
    cases x with
    | none =>
      cases y with
      | none => exact done (.views he)
      | some rs =>
        obtain ⟨hs, hfrom⟩ := hy rs rfl
        dsimp only
        rw [h.valueTy_eq hs]
        exact done (.one he (hfrom _ (laneBits_eq h hs)))
    | some ls =>
      obtain ⟨hs, hfrom⟩ := hx ls rfl
      cases y with
      | none =>
        dsimp only
        rw [h.valueTy_eq hs]
        exact done (.one he (hfrom _ (laneBits_eq h hs)))
      | some rs =>
        obtain ⟨hs', hfrom'⟩ := hy rs rfl
        dsimp only
        rw [h.valueTy_eq hs]
        exact done (.both he (hfrom _ (laneBits_eq h hs)) (hfrom' _ (laneBits_eq h hs')))
  · split
    · next he => exact done (.narrow he)
    · exact .pure fun p hp => by cases hp

/-! ## The rules -/

/-- Looking for a product never fails. -/
theorem leftForFusion_spec (hl : g.AtHand root op lhs) (hr : g.AtHand root op rhs) :
    Yields (leftForFusion g lhs rhs) fun _ => True := by
  refine (h.macOperands? hin hl hr).bind fun m _ => ?_
  refine (h.definedBy? hin hl .mulf rfl).bind fun l _ => ?_
  exact (h.definedBy? hin hr .mulf rfl).bind fun r _ => .pure trivial

end Looks

/-- An operation of a kind that the lanewise rules are made for has two operands and the type
of the first. -/
theorem mem_lanewiseRoots {k k' : OpKind} (h : k' ∈ lanewiseRoots k) :
    k' = k ∧ k.arity = 2 ∧ k ≠ .func ∧ k ≠ .ret ∧ ∀ tys, k.resultTyOf tys = tys[0]? := by
  unfold lanewiseRoots at h
  split at h
  · next hk =>
    refine ⟨List.mem_singleton.mp h, ?_⟩
    clear h
    revert hk
    cases k <;> intro hk <;>
      first | exact ⟨rfl, by decide, by decide, fun _ => rfl⟩ | exact absurd hk (by decide)
  · cases h

/-- Lanewise rules are for neither functions nor returns. -/
theorem not_mem_lanewiseRoots (k : OpKind) : .func ∉ lanewiseRoots k ∧ .ret ∉ lanewiseRoots k :=
  ⟨fun h => (mem_lanewiseRoots h).2.2.1 (mem_lanewiseRoots h).1.symm,
    fun h => (mem_lanewiseRoots h).2.2.2.1 (mem_lanewiseRoots h).1.symm⟩

theorem shuffledAddSub_lawful (target : ConversionTarget) (kind : OpKind) :
    (shuffledAddSub kind).Lawful target := by
  refine .ofDecision (not_mem_lanewiseRoots kind) fun g gone root op h hin hk _ => ?_
  obtain ⟨hkind, harity, hf, hret, hty⟩ := mem_lanewiseRoots hk
  obtain ⟨old, hold⟩ := h.single_of_kind hin (hkind ▸ hf) (hkind ▸ hret)
  split
  · exact .ok trivial
  have hlen := (h.shaped op hin).arity
  rw [hkind, harity] at hlen
  refine (h.binaryOperands hin hlen).bind fun ⟨lhs, rhs⟩ ⟨hl, hr, hvl, hvr⟩ => ?_
  rw [firstResultType_eq hold]
  -- Only a sum may be left for fusion; what follows is the same for both.
  have rest : ∀ fuses : Bool, Yields (if fuses = true then pure Decision.decline else do
      let ty ← Except.ok (ε := Fault) (g.value old).ty
      pure (Decision.follow (pure ((if isSum kind then Instr.add else Instr.sub) ty (.value lhs)
        (.value rhs) .standard)))) (Decision.Lawful g root op) := by
    intro fuses
    split
    · exact .pure trivial
    · refine .pure (.of_makes hold ?_)
      refine Makes.final (stepOk_shuffled (isSum kind) (.value hvl) (.value hvr) .standard) ?_ ?_
      · cases isSum kind <;> rfl
      · cases isSum kind <;> nofun
  dsimp only
  split
  · exact ((h.macOperands? hin hvl hvr).map (Q := fun _ => True) fun _ _ => trivial).bind
      fun fuses _ => rest fuses
  · exact rest false

/-- How the rule of the second generation plans the sum or difference that it finds at an
operation. -/
structure PlansSum (g : Graph) (root op : OpId) (sum : Bool) (shape : VectorShape)
    (lhs rhs old : ValueId) (p : Plan Step) : Prop where
  result : g.results op = [old]
  left : (g.operands op)[0]? = some lhs
  right : (g.operands op)[1]? = some rhs
  readable : g.AtHand root op lhs ∧ g.AtHand root op rhs
  typed : (g.value lhs).ty = (g.value old).ty
  shaped : (g.value old).ty.vectorShape = some shape
  planned : (shape.isFloat = true ∧ shape.lanes = 16 ∧
      FloatSum g root op sum shape (g.value old).ty lhs rhs p) ∨
    (shape.isFloat = false ∧ shape.isElementwise = true ∧
      IntSum g root op sum shape (g.value old).ty lhs rhs p)

/-- The plan of a sum may stand for it. -/
theorem PlansSum.lawful {p : Plan Step} (h : PlansSum g root op sum shape lhs rhs old p) :
    (Decision.follow p).Lawful g root op := by
  obtain ⟨hl, hr⟩ := h.readable
  rcases h.planned with ⟨-, -, hp⟩ | ⟨-, -, hp⟩
  · exact .of_makes h.result (hp.makes hl hr)
  · exact .of_makes h.result (hp.makes hl hr h.typed)

/-- A plan is followed if it is there. -/
theorem yields_of_planned {sum : Bool} : ∀ x : Option (Plan Step),
    (∀ p, x = some p → PlansSum g root op sum shape lhs rhs old p) →
    Yields (match x with
      | some plan => pure (Decision.follow plan)
      | none => pure Decision.decline : Except Fault Decision) fun d => d = .decline ∨
        ∃ shape lhs rhs old p, PlansSum g root op sum shape lhs rhs old p ∧ d = .follow p := by
  intro x hx
  cases x with
  | none => exact .pure (Or.inl rfl)
  | some p => exact .pure (Or.inr ⟨shape, lhs, rhs, old, p, hx p rfl, rfl⟩)

/-- In a scene the rule declines or follows one of the plans. -/
theorem exists_addSubToElem_look (kind : OpKind) : ∃ look : Graph → OpId → Except Fault Decision,
    addSubToElem kind = .ofDecision (elemName kind) (lanewiseRoots kind) look ∧
      ∀ g gone root op, Scene g gone root → g.Inside root op → g.kind op ∈ lanewiseRoots kind →
        Yields (look g op) fun d => d = .decline ∨ ∃ shape lhs rhs old p,
          PlansSum g root op (isSum kind) shape lhs rhs old p ∧ d = .follow p := by
  refine ⟨_, rfl, fun g gone root op h hin hk => ?_⟩
  obtain ⟨hkind, harity, hf, hret, hty⟩ := mem_lanewiseRoots hk
  obtain ⟨old, hold⟩ := h.single_of_kind hin (hkind ▸ hf) (hkind ▸ hret)
  rw [resultShape?_eq hold]
  split
  · exact .ok (Or.inl rfl)
  next shape hshape =>
  have hlen := (h.shaped op hin).arity
  rw [hkind, harity] at hlen
  refine (h.binaryOperands hin hlen).bind fun ⟨lhs, rhs⟩ ⟨hl, hr, hvl, hvr⟩ => ?_
  have hlty := h.ty_of_slot hin hold (hkind ▸ hty) hl
  refine (leftForFusion_spec h hin hvl hvr).bind fun left _ => ?_
  split
  · exact .pure (Or.inl rfl)
  rw [firstResultType_eq hold]
  refine Yields.bind (.ok rfl) fun ty hty' => ?_
  subst hty'
  dsimp only
  -- Floats and integers have plans of their own, with one specification each.
  split
  · next hfloat =>
    exact ((floatSumPlan?_spec h hin hvl hvr).mono fun x hx p hp =>
      ⟨hold, hl, hr, ⟨hvl, hvr⟩, hlty, hshape, Or.inl ⟨hfloat, hx p hp⟩⟩).bind yields_of_planned
  · next hint =>
    exact ((intSumPlan?_spec h hin hvl hvr).mono fun x hx p hp =>
      ⟨hold, hl, hr, ⟨hvl, hvr⟩, hlty, hshape, Or.inr ⟨by simpa using hint, hx p hp⟩⟩).bind
        yields_of_planned

theorem addSubToElem_lawful (target : ConversionTarget) (kind : OpKind) :
    (addSubToElem kind).Lawful target := by
  obtain ⟨look, hrule, hlook⟩ := exists_addSubToElem_look kind
  rw [hrule]
  refine .ofDecision (not_mem_lanewiseRoots kind) fun g gone root op h hin hk _ => ?_
  refine (hlook g gone root op h hin hk).mono fun d hd => ?_
  rcases hd with rfl | ⟨shape, lhs, rhs, old, p, hp, rfl⟩
  · trivial
  · exact hp.lawful

end Rules

end SimdLowering
