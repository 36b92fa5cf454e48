/-
Operations that no visit rewrites.

An operation rests if no visit to it, whatever sizes are remembered, can rewrite it: with all
sizes that leave it open to the rules no rule for its kind matches. Of the second generation's
rules and checks only those for loads look at sizes at all; for any other operation one visit
that leaves it alone shows that it rests. And it goes on resting as long as it looks the same.
-/
import SimdLowering.Proofs.Fixpoint.Views
import SimdLowering.Proofs.Target.Queries
import SimdLowering.Proofs.Target.Verdicts

set_option autoImplicit false

namespace SimdLowering

open SimdLowering.Graph SimdLowering.Rules

variable {g g' : Graph} {x : OpId} {k : OpKind}

/-! ## Rules -/

/-- Where the second decision is to rewrite, the first one is. -/
def Decision.Implied (d d' : Decision) : Prop := d'.isRewrite = true → d.isRewrite = true

namespace Decision.Implied

variable {d d' : Decision}

/-- A decision implies itself. -/
theorem refl (d : Decision) : d.Implied d := id

/-- Nothing is asked where the second decision is not to rewrite. -/
theorem of_idle (h : d'.isRewrite = false) : d.Implied d' :=
  fun h' => absurd h' (by rw [h]; decide)

/-- Whatever is decided elsewhere implies a rewrite. -/
theorem of_rewrite (h : d.isRewrite = true) : d.Implied d' := fun _ => h

end Decision.Implied

/-- Where an operation looks the same in two graphs, the rule has nothing to do in the second
if it has nothing to do in the first, whatever sizes are remembered. -/
def Rule.Steady (rule : Rule) : Prop :=
  ∀ g g' x c c', SameView g g' x → g.kind x ∈ rule.roots →
    Together (fun a a' => a'.2.2.isMatch = true → a.2.2.isMatch = true)
      (rule.run g x c) (rule.run g' x c')

/-- A rule is steady if its decision is, seen from two graphs that look alike to it. -/
theorem Rule.Steady.ofDecision {name : String} {roots : List OpKind}
    {look : Graph → OpId → Except Fault Decision}
    (h : ∀ g g' x, SameView g g' x → g.kind x ∈ roots →
      Together Decision.Implied (look g x) (look g' x)) :
    (Rule.ofDecision name roots look).Steady := by
  rintro g g' x c c' hview hk ⟨g₁, c₁, o₁⟩ ⟨g₂, c₂, o₂⟩ hrun hrun' hmatch
  obtain ⟨-, d, hd, hperform⟩ := Rule.run_ofDecision_eq_ok.mp hrun
  obtain ⟨-, d', hd', hperform'⟩ := Rule.run_ofDecision_eq_ok.mp hrun'
  have ho : o₁.isMatch = d.isRewrite := by rw [← d.isMatch_perform g, hperform]
  have ho' : o₂.isMatch = d'.isRewrite := by rw [← d'.isMatch_perform g', hperform']
  rw [ho]
  exact h g g' x hview hk d d' hd hd' (ho' ▸ hmatch)

namespace Rules

/-- Once an access is understood, a read is always rewritten. -/
theorem readPlan_isRewrite {access : MemAccess ValueId} {innermost : ValueId} {ty : Ty}
    {shape : VectorShape} {d : Decision} (h : readPlan g access innermost ty shape = .ok d) :
    d.isRewrite = true := by
  obtain ⟨value, -, h⟩ := bind_eq_ok.mp h
  dsimp only at h
  split at h
  · cases h
    rfl
  · split at h
    · cases h
    · obtain ⟨ty, -, h⟩ := bind_eq_ok.mp h
      obtain ⟨plan, -, h⟩ := bind_eq_ok.mp h
      cases h
      rfl

/-- Whether a read is taken is a matter of its own map, mask and type. -/
theorem transferReadToUpd_steady : transferReadToUpd.Steady := by
  refine .ofDecision fun g g' x h _ => ?_
  refine h.access.bind fun a a' ha => ?_
  obtain ⟨f, rfl⟩ := ha
  cases a with
  | none => exact .pure (.refl _)
  | some a =>
    rw [h.attrs, h.shape]
    have hmask : (a.map f).trailing.isSome = a.trailing.isSome := Option.isSome_map
    have hlast : (a.map f).indices.getLast? = a.indices.getLast?.map f := List.getLast?_map ..
    dsimp only [Option.map_some]
    rw [hmask, hlast]
    -- Mask and last index are found on both sides or on neither, so the checks agree.
    split
    · exact .pure (.refl _)
    split
    · exact .pure (.refl _)
    split
    · exact .pure (.refl _)
    cases g.resultShape? x with
    | none => exact .pure (.refl _)
    | some shape =>
      cases a.indices.getLast? with
      | none => exact .pure (.refl _)
      | some innermost =>
        refine Together.any.bind fun ty ty' _ => ?_
        exact fun d d' hd _ => .of_rewrite (readPlan_isRewrite hd)

/-- A read that is left alone in one graph is answered for in the other: nothing is computed for
it before that. -/
theorem transferReadToUpd_answers {g₁ : Graph} {c c₁ : AccessSizes} {outcome : Outcome}
    (h : SameView g g' x) {access : Option (MemAccess ValueId)}
    (haccess : g'.memAccess? x = .ok access)
    (hrun : transferReadToUpd.run g x c = .ok (g₁, c₁, outcome)) (hidle : outcome.isMatch = false)
    (c' : AccessSizes) :
    ∃ g₂ c₂ outcome', transferReadToUpd.run g' x c' = .ok (g₂, c₂, outcome') := by
  obtain ⟨-, d, hd, hperform⟩ := Rule.run_ofDecision_eq_ok.mp hrun
  have hd' : d.isRewrite = false := by rw [← d.isMatch_perform g, hperform, hidle]
  -- The access is understood again, and it is enough to say what is decided then.
  have answer : ∀ d' : Decision, _ → ∃ g₂ c₂ outcome',
      transferReadToUpd.run g' x c' = .ok (g₂, c₂, outcome') := fun d' hlook =>
    ⟨_, _, _, Rule.run_ofDecision_eq_ok.mpr
      ⟨rfl, d', bind_eq_ok.mpr ⟨access, haccess, hlook⟩, rfl⟩⟩
  obtain ⟨a, ha, hd⟩ := bind_eq_ok.mp hd
  obtain ⟨f, rfl⟩ := h.access a access ha haccess
  cases a with
  | none => exact answer .decline rfl
  | some a =>
    have hmask : (a.map f).trailing.isSome = a.trailing.isSome := Option.isSome_map
    have hlast : (a.map f).indices.getLast? = a.indices.getLast?.map f := List.getLast?_map ..
    dsimp only [Option.map_some] at hd answer
    rw [hmask, hlast, h.attrs, h.shape] at answer
    -- From here on both sides branch on the same conditions.
    split at hd
    · next hm => exact answer _ (if_pos hm)
    next hm =>
    rw [if_neg hm] at answer
    split at hd
    · next hmap =>
      rw [hmap] at answer
      exact answer _ rfl
    next map hmap =>
    rw [hmap] at answer
    dsimp only at answer
    split at hd
    · next hm => exact answer _ (if_pos hm)
    next hm =>
    rw [if_neg hm] at answer
    split at hd
    · obtain ⟨ty, -, hplan⟩ := bind_eq_ok.mp hd
      rw [readPlan_isRewrite hplan] at hd'
      cases hd'
    · next hnone =>
      refine answer .decline ?_
      cases hs : g.resultShape? x with
      | none => rfl
      | some shape =>
        cases hi : a.indices.getLast? with
        | none => rfl
        | some innermost => exact absurd hi (hnone shape innermost hs)

/-- A sum looks at the products that it reads, and these stay what they are. -/
theorem mulAddToFmaElem_steady (shift : Int) : (mulAddToFmaElem shift).Steady := by
  refine .ofDecision fun g g' x h _ => ?_
  rw [h.shape]
  cases g.resultShape? x with
  | none => exact .ok (.refl _)
  | some shape =>
    refine h.binaryOperands.bind fun p p' hp => ?_
    refine (macOperands?_together hp.1 hp.2).bind fun m m' hm => ?_
    -- Both sides find a product to fuse with or neither does.
    cases m with
    | none =>
      cases m' with
      | none => exact .pure (.refl _)
      | some m' => cases hm
    | some m =>
      cases m' with
      | none => cases hm
      | some m' =>
        dsimp only
        split
        · exact Together.any.bind fun _ _ _ => Together.any.bind fun _ _ _ =>
            .pure (.of_rewrite rfl)
        · exact .pure (.refl _)

/-- A sum that is left for fusion in one graph is left for it in the other. -/
theorem leftForFusion_together {l l' r r' : ValueId} (hl : SameOperand g g' l l')
    (hr : SameOperand g g' r r') :
    Together (· = ·) (leftForFusion g l r) (leftForFusion g' l' r') := by
  refine (macOperands?_together hl hr).bind fun m m' hm => ?_
  refine (hl.definer .mulf (by decide)).bind fun a a' ha => ?_
  refine (hr.definer .mulf (by decide)).bind fun b b' hb => ?_
  subst ha hb
  rw [hm]
  exact .pure rfl

/-- Whether there is a plan for an integer sum depends on the shape alone. -/
theorem isSome_intSumPlan? {sum : Bool} {shape : VectorShape} {ty : Ty} {l r : ValueId}
    {p : Option (Plan Step)} (h : intSumPlan? g sum shape ty l r = .ok p) :
    p.isSome = shape.isElementwise := by
  unfold intSumPlan? at h
  split at h
  · next hshape =>
    cases h
    simpa using hshape
  · next hshape =>
    rw [Bool.not_eq_true', Bool.not_eq_false] at hshape
    rw [hshape]
    obtain ⟨l, -, h⟩ := bind_eq_ok.mp h
    obtain ⟨r, -, h⟩ := bind_eq_ok.mp h
    obtain ⟨dl, -, h⟩ := bind_eq_ok.mp h
    obtain ⟨dr, -, h⟩ := bind_eq_ok.mp h
    -- Whichever way the operands come, there is a plan.
    split at h
    · cases h
      rfl
    split at h
    · cases h
      rfl
    obtain ⟨el, -, h⟩ := bind_eq_ok.mp h
    obtain ⟨er, -, h⟩ := bind_eq_ok.mp h
    split at h
    · cases h
      rfl
    · obtain ⟨wl, -, h⟩ := bind_eq_ok.mp h
      obtain ⟨wr, -, h⟩ := bind_eq_ok.mp h
      split at h
      · cases h
        rfl
      · obtain ⟨ty, -, h⟩ := bind_eq_ok.mp h
        cases h
        rfl
    · obtain ⟨p, -, h⟩ := bind_eq_ok.mp h
      cases h
      rfl
    · obtain ⟨p, -, h⟩ := bind_eq_ok.mp h
      cases h
      rfl

/-- So does whether there is one for a float sum. -/
theorem isSome_floatSumPlan? {sum : Bool} {shape : VectorShape} {ty : Ty} {l r : ValueId}
    {p : Option (Plan Step)} (h : floatSumPlan? g sum shape ty l r = .ok p) :
    p.isSome = (shape.lanes == 16 && (shape.elemBits == 32 || shape.elemBits == 16)) := by
  unfold floatSumPlan? at h
  dsimp only at h
  split at h
  · next hlanes =>
    cases h
    simp [hlanes]
  next hlanes =>
  -- With sixteen lanes only narrow widths are left, and each of the three ways has a plan.
  rw [not_not] at hlanes
  split at h
  · next hbits =>
    have hsome : p.isSome = true := by
      obtain ⟨el, -, h⟩ := bind_eq_ok.mp h
      obtain ⟨er, -, h⟩ := bind_eq_ok.mp h
      split at h
      · cases h
        rfl
      all_goals
        obtain ⟨ty, -, h⟩ := bind_eq_ok.mp h
        cases h
        rfl
    rw [hsome, hlanes, hbits]
    rfl
  split at h
  · next hbits =>
    cases h
    rw [hlanes, hbits]
    rfl
  · next hwide hnarrow =>
    cases h
    simp [hwide, hnarrow]

/-- Plans that are there, or are not, as `b` says, are followed or not alike. -/
theorem together_of_planned {y y' : Except Fault (Option (Plan Step))} {b : Bool}
    (hy : ∀ p, y = .ok p → p.isSome = b) (hy' : ∀ p, y' = .ok p → p.isSome = b) :
    Together Decision.Implied
      (y >>= fun p => match p with
        | some plan => pure (Decision.follow plan)
        | none => pure Decision.decline)
      (y' >>= fun p => match p with
        | some plan => pure (Decision.follow plan)
        | none => pure Decision.decline) := by
  -- Whether there is a plan is decided alike, and what it is does not matter here.
  have same : Together (fun p p' => p.isSome = p'.isSome) y y' := fun p p' hp hp' =>
    (hy p hp).trans (hy' p' hp').symm
  refine same.bind fun p p' hp => ?_
  cases p with
  | none =>
    cases p' with
    | none => exact .pure (.refl _)
    | some p' => cases hp
  | some p =>
    intro d d' hd _
    cases hd
    exact .of_rewrite rfl

/-- It looks at extensions in the same way. -/
theorem addSubToElem_steady (kind : OpKind) : (addSubToElem kind).Steady := by
  refine .ofDecision fun g g' x h _ => ?_
  rw [h.shape]
  cases g.resultShape? x with
  | none => exact .ok (.refl _)
  | some shape =>
    refine h.binaryOperands.bind fun p p' hp => ?_
    refine (leftForFusion_together hp.1 hp.2).bind fun left left' hleft => ?_
    subst hleft
    dsimp only
    split
    · exact .pure (.refl _)
    refine Together.any.bind fun ty ty' _ => ?_
    -- Both plans are there, or neither is, since the shape is the same.
    split
    · exact together_of_planned (fun _ => isSome_floatSumPlan?) fun _ => isSome_floatSumPlan?
    · exact together_of_planned (fun _ => isSome_intSumPlan?) fun _ => isSome_intSumPlan?

/-- A minimum or a maximum looks at its own shape. -/
theorem minMaxToElem_steady (kind : OpKind) : (minMaxToElem kind).Steady := by
  refine .ofDecision fun g g' x h _ => ?_
  rw [h.shape]
  cases g.resultShape? x with
  | none => exact .ok (.refl _)
  | some shape =>
    refine (Together.refl _).bind fun full full' hfull => ?_
    subst hfull
    split
    · exact .pure (.refl _)
    · exact Together.any.bind fun _ _ _ => Together.any.bind fun _ _ _ => .pure (.of_rewrite rfl)

/-- A comparison looks at the shape of what it reads. -/
theorem cmpToMask_steady (kind : OpKind) : (cmpToMask kind).Steady := by
  refine .ofDecision fun g g' x h _ => ?_
  rw [h.attrs]
  refine (h.operandShape? 0).bind fun s s' hs => ?_
  subst hs
  cases s with
  | none => exact .pure (.refl _)
  | some shape =>
    refine (Together.refl _).bind fun full full' hfull => ?_
    subst hfull
    split
    · exact .pure (.refl _)
    cases choosePredicate (kind == .cmpf) (g.attrs x) with
    | absent => exact .pure (.refl _)
    | without p => exact .pure (.refl _)
    | use p =>
      exact Together.any.bind fun _ _ _ => Together.any.bind fun _ _ _ => .pure (.of_rewrite rfl)

theorem selectToSel_steady : selectToSel.Steady := by
  refine .ofDecision fun g g' x h _ => ?_
  rw [h.shape]
  cases g.resultShape? x with
  | none => exact .ok (.refl _)
  | some shape =>
    refine (Together.refl _).bind fun full full' hfull => ?_
    subst hfull
    split
    · exact .pure (.refl _)
    · exact Together.any.bind fun _ _ _ => Together.any.bind fun _ _ _ =>
        Together.any.bind fun _ _ _ => Together.any.bind fun _ _ _ => .pure (.of_rewrite rfl)

/-- Reductions with the same function, of vectors of the same type, have the same input but for
its name. -/
theorem reductionInput?_together (h : SameView g g' x) :
    Together (fun i i' => (i.map fun t => (t.1, t.2.1)) = i'.map fun t => (t.1, t.2.1))
      (reductionInput? g x) (reductionInput? g' x) := by
  unfold reductionInput?
  rw [h.attrs]
  cases (g.attrs x).combiningKind? with
  | none => exact .pure rfl
  | some kind =>
    have hlen := h.arity
    cases hl : g.operands x with
    | nil =>
      have hl' : g'.operands x = [] := List.length_eq_zero_iff.mp (by rw [hlen, hl]; rfl)
      rw [hl']
      exact .pure rfl
    | cons v l =>
      cases hl' : g'.operands x with
      | nil => rw [hl, hl'] at hlen; cases hlen
      | cons v' l' =>
        refine (h.operands 0 v v' (by rw [hl]; rfl) (by rw [hl']; rfl)).source.bind
          fun o o' hty => .pure ?_
        rw [hty]
        cases o'.ty.vectorShape <;> rfl

/-- A rule for reductions is steady if it goes by the function and the lanes alone. -/
theorem reductionRule_steady {name : String}
    {look : CombiningKind → VectorShape → Operand Source → Except Fault Decision}
    (h : ∀ kind shape v v', Together Decision.Implied (look kind shape v) (look kind shape v')) :
    (reductionRule name look).Steady := by
  refine .ofDecision fun g g' x hview _ => ?_
  refine (reductionInput?_together hview).bind fun i i' hi => ?_
  cases i with
  | none =>
    cases i' with
    | none => exact .pure (.refl _)
    | some i' => cases hi
  | some i =>
    cases i' with
    | none => cases hi
    | some i' =>
      obtain ⟨kind, shape, v⟩ := i
      obtain ⟨kind', shape', v'⟩ := i'
      cases hi
      exact h kind shape v v'

/-- A tree is made or not by the shape; its plan is another where its input is. -/
theorem registerTree_together (suits : Bool) (combine : Operand Source → Source → Step)
    (shape : VectorShape) (v v' : Operand Source) :
    Together Decision.Implied (registerTree suits combine shape v)
      (registerTree suits combine shape v') := by
  unfold registerTree
  split
  swap
  · exact .ok (.refl _)
  refine (Together.refl _).bind fun bits bits' hbits => ?_
  subst hbits
  split
  · exact Together.any.bind fun _ _ _ => .pure (.of_rewrite rfl)
  · exact .pure (.refl _)

theorem minReduction_steady : minReduction.Steady :=
  reductionRule_steady fun _ shape v v' => registerTree_together _ _ shape v v'

theorem maxReduction_steady : maxReduction.Steady :=
  reductionRule_steady fun _ shape v v' => registerTree_together _ _ shape v v'

theorem intAddReduction_steady : intAddReduction.Steady := by
  refine reductionRule_steady fun kind shape v v' => ?_
  split
  · exact .ok (.refl _)
  split
  · exact Together.any.bind fun _ _ _ => .pure (.of_rewrite rfl)
  · exact Together.any.bind fun _ _ _ => .pure (.of_rewrite rfl)

theorem f32AddReduction_steady : f32AddReduction.Steady := by
  refine reductionRule_steady fun kind shape v v' => ?_
  split
  · exact .ok (.refl _)
  · exact Together.any.bind fun _ _ _ => .pure (.of_rewrite rfl)

theorem bf16AddReduction_steady : bf16AddReduction.Steady := by
  refine reductionRule_steady fun kind shape v v' => ?_
  split
  · exact .ok (.refl _)
  · exact Together.any.bind fun _ _ _ => .pure (.of_rewrite rfl)

theorem extractBroadcastToLane_steady : extractBroadcastToLane.Steady := by
  refine .ofDecision fun g g' x h _ => ?_
  refine (h.operandAt 0).bind fun v v' hv => ?_
  intro d d' hd hd'
  obtain ⟨a, ha, hd⟩ := bind_eq_ok.mp hd
  obtain ⟨a', ha', hd'⟩ := bind_eq_ok.mp hd'
  -- The definer is the same operation on both sides, and its position is an attribute.
  obtain rfl := hv.definer .extract (by decide) a a' ha ha'
  revert hd hd'
  cases a with
  | none => exact Together.pure (.refl _) d d'
  | some e =>
    have hattrs := hv.attrs .extract (by decide) e ha
    have hpos : g'.extractPosition? e = g.extractPosition? e := by
      unfold extractPosition?
      rw [hattrs]
    dsimp only
    rw [hpos]
    cases g.extractPosition? e with
    | none => exact Together.pure (.refl _) d d'
    | some p =>
      exact (Together.any.bind fun _ _ _ => Together.any.bind fun _ _ _ =>
        .pure (.of_rewrite rfl)) d d'

/-- A product looks at its readers, and through the extensions of its factors. -/
theorem mulIToMulElem_steady (shift : Int) : (mulIToMulElem shift).Steady := by
  refine .ofDecision fun g g' x h hk => ?_
  have hkind : g.kind x = .muli := List.mem_singleton.mp hk
  rw [h.shape]
  cases g.resultShape? x with
  | none => exact .ok (.refl _)
  | some shape =>
    dsimp only
    split
    · next hleft =>
      split
      · exact .ok (.refl _)
      · next hleft' =>
        -- A product that was left for a sum still is.
        rw [Bool.or_eq_true] at hleft hleft'
        exact absurd (hleft.imp_left (h.product hkind)) hleft'
    · intro d d' hd _
      obtain ⟨p, -, hd⟩ := bind_eq_ok.mp hd
      obtain ⟨ty, -, hd⟩ := bind_eq_ok.mp hd
      obtain ⟨plan, -, hd⟩ := bind_eq_ok.mp hd
      cases hd
      exact .of_rewrite rfl

/-- Two values are extended from lanes of one width in one graph as in the other. -/
theorem extendedPair?_together {l l' r r' : ValueId} (hk : k ∈ watchedKinds)
    (hl : SameOperand g g' l l') (hr : SameOperand g g' r r') :
    Together (fun p p' => (p.map fun t => t.2.2) = p'.map fun t => t.2.2)
      (extendedPair? g l r k) (extendedPair? g' l' r' k) := by
  -- Both factors are looked through in turn, and what is found has the same shape on both sides.
  refine (hl.extensionSource? hk).bind fun a a' ha => ?_
  obtain ⟨hsome, hty⟩ := ha
  cases a with
  | none =>
    cases a' with
    | none => exact .pure rfl
    | some a' => cases hsome
  | some a =>
    cases a' with
    | none => cases hsome
    | some a' =>
      have htya := hty a a' rfl rfl
      refine (hr.extensionSource? hk).bind fun b b' hb => ?_
      obtain ⟨hsome, hty⟩ := hb
      cases b with
      | none =>
        cases b' with
        | none => exact .pure rfl
        | some b' => cases hsome
      | some b =>
        cases b' with
        | none => cases hsome
        | some b' =>
          have htyb := hty b b' rfl rfl
          have shapes : ∀ {w w' : ValueId}, Together (· = ·) (g.valueTy w) (g'.valueTy w') →
              Together (· = ·) (g.valueShape? w) (g'.valueShape? w') := fun h =>
            h.bind fun _ _ hty => .pure (congrArg Ty.vectorShape hty)
          refine (shapes htya).bind fun s s' hs => ?_
          subst hs
          cases s with
          | none => exact .pure rfl
          | some s =>
            refine (shapes htyb).bind fun t t' ht => .pure ?_
            subst ht
            cases t with
            | none => rfl
            | some t =>
              dsimp only [Option.bind_some]
              split <;> rfl

/-- A product of floats looks at its readers and at its own shape. -/
theorem mulFToMulElem_steady (shift : Int) : (mulFToMulElem shift).Steady := by
  refine .ofDecision fun g g' x h hk => ?_
  have hkind : g.kind x = .mulf := List.mem_singleton.mp hk
  rw [h.shape]
  cases g.resultShape? x with
  | none => exact .ok (.refl _)
  | some shape =>
    dsimp only
    by_cases hleft' : (g'.hasSingleUseBy x .addf || !isFloatProduct shape) = true
    · rw [if_pos hleft']
      intro d d' _ hd'
      cases hd'
      exact .of_idle rfl
    have hleft : ¬ (g.hasSingleUseBy x .addf || !isFloatProduct shape) = true := by
      rw [Bool.or_eq_true] at hleft' ⊢
      exact fun h' => hleft' (h'.imp_left (h.floatProduct hkind))
    rw [if_neg hleft, if_neg hleft']
    refine h.binaryOperands.bind fun p p' hp => ?_
    refine Together.any.bind fun ty ty' _ => ?_
    split
    · exact .pure (.of_rewrite rfl)
    refine (extendedPair?_together (by decide) hp.1 hp.2).bind fun q q' hq => ?_
    -- The rule goes on if the width is sixteen, and it is the same width.
    have decline : ∀ {y : Except Fault Decision} {d : Decision}, y = pure .decline → y = .ok d →
        d.isRewrite = false := by
      rintro y d rfl ⟨⟩
      rfl
    intro d d' hd hd'
    split at hd
    · obtain ⟨srcTy, -, hd⟩ := bind_eq_ok.mp hd
      cases hd
      exact .of_rewrite rfl
    · next hne =>
      split at hd'
      · next l' r' =>
        cases q with
        | none => cases hq
        | some q =>
          obtain ⟨l, r, n⟩ := q
          cases hq
          exact absurd rfl (hne l r)
      · exact .of_idle (decline rfl hd')

/-- All rules of the second generation are steady but the one that splits loads. -/
theorem aiemlRules_steady (shift : Int) :
    ∀ r ∈ aiemlRules shift, r.roots = [.upd] ∨ r.Steady := by
  simp only [aiemlRules, List.forall_mem_cons]
  refine ⟨.inr transferReadToUpd_steady, .inl rfl, .inr (mulAddToFmaElem_steady shift),
    .inr (addSubToElem_steady _), .inr (addSubToElem_steady _), .inr (addSubToElem_steady _),
    .inr (addSubToElem_steady _), .inr (minMaxToElem_steady _), .inr (minMaxToElem_steady _),
    .inr (minMaxToElem_steady _), .inr (minMaxToElem_steady _), .inr (cmpToMask_steady _),
    .inr (cmpToMask_steady _), .inr selectToSel_steady, .inr minReduction_steady,
    .inr maxReduction_steady, .inr intAddReduction_steady, .inr f32AddReduction_steady,
    .inr bf16AddReduction_steady, .inr extractBroadcastToLane_steady,
    .inr (mulIToMulElem_steady shift), .inr (mulFToMulElem_steady shift), List.forall_mem_nil _⟩

end Rules

/-! ## Verdicts -/

/-- The check that is said to a target, if one is and it is not one for loads, calls an operation
legal in the second graph if it calls it legal in the first, where it looks the same in both. -/
def TargetSetting.Steady : TargetSetting → Prop
  | check k c => k ≠ .upd → ∀ g g' x s s', SameView g g' x → g.kind x = k →
      Together (fun a a' => a.1 = true → a'.1 = true) (c g x s) (c g' x s')
  | _ => True

namespace FinalForm

/-- A check that asks no sizes is steady if what it allows stays allowed. -/
theorem steady_ofPredicate {p : Graph → OpId → Bool}
    (h : ∀ g g' x, SameView g g' x → g.kind x = k → p g x = true → p g' x = true) :
    TargetSetting.Steady (.check k (.ofPredicate p)) :=
  fun _ g g' x _ _ hview hk => .ok (h g g' x hview hk)

/-- The same for one that may fail. -/
theorem steady_ofTest {test : Graph → OpId → Except Fault Bool}
    (h : ∀ g g' x, SameView g g' x →
      Together (fun a a' => a = true → a' = true) (test g x) (test g' x)) :
    TargetSetting.Steady (.check k (.ofTest test)) :=
  fun _ g g' x _ _ hview _ => (h g g' x hview).bind fun _ _ hab => .pure hab

theorem scalarResult_steady : TargetSetting.Steady (.check k (.ofPredicate scalarResult)) := by
  refine steady_ofPredicate fun g g' x h _ hp => ?_
  rw [scalarResult, h.shape]
  exact hp

theorem resultAvoids_steady (p : VectorShape → Bool) :
    TargetSetting.Steady (.check k (.ofPredicate (resultAvoids p))) := by
  refine steady_ofPredicate fun g g' x h _ hp => ?_
  rw [resultAvoids, h.shape]
  exact hp

/-- A product that waits for its only reader goes on waiting as long as it has no other. -/
theorem productStays_steady {reader : OpKind} (p : VectorShape → Bool)
    (hsingle : ∀ g g' x, SameView g g' x → g.kind x = k → g.hasSingleUseBy x reader = true →
      g'.hasSingleUseBy x reader = true) :
    TargetSetting.Steady (.check k (.ofPredicate (productStays reader p))) := by
  refine steady_ofPredicate fun g g' x h hk hp => ?_
  rw [productStays, Bool.or_eq_true] at hp ⊢
  rw [resultAvoids, h.shape]
  exact hp.imp_left (hsingle g g' x h hk)

/-- Operands keep their types, so what goes by the shape of one comes out the same. -/
theorem operandAvoids_together (h : SameView g g' x) (p : VectorShape → Bool) :
    Together (· = ·) (operandAvoids p g x) (operandAvoids p g' x) :=
  (h.operandShape? 0).bind fun _ _ hs => .pure (hs ▸ rfl)

theorem resultNoRegister_steady : TargetSetting.Steady (.check k (.ofTest resultNoRegister)) := by
  refine steady_ofTest fun g g' x h => ?_
  rw [resultNoRegister, resultNoRegister, h.shape]
  exact (Together.refl _).mono fun _ _ hab => hab ▸ id

theorem operandNoRegister_steady : TargetSetting.Steady (.check k (.ofTest operandNoRegister)) := by
  refine steady_ofTest fun g g' x h => (h.operandShape? 0).bind fun s s' hs => ?_
  subst hs
  exact (Together.refl _).mono fun _ _ hab => hab ▸ id

theorem reductionStays_steady : TargetSetting.Steady (.check k (.ofTest reductionStays)) := by
  refine steady_ofTest fun g g' x h => ?_
  unfold reductionStays
  rw [h.attrs]
  split
  · exact .ok id
  · exact .ok id
  · exact (operandAvoids_together h _).mono fun _ _ hab => hab ▸ id

theorem splatStays_steady : TargetSetting.Steady (.check k (.ofTest splatStays)) := by
  refine steady_ofTest fun g g' x h => ?_
  refine (h.operandAt 0).bind fun v v' hv => ?_
  exact (hv.definer .extract (by decide)).bind fun a a' ha => .pure (ha ▸ id)

/-- All that the second generation allows or forbids is steady. -/
theorem settings_steady : ∀ s ∈ Generation.aieml.settings, s.Steady :=
  forall_mem_settings_of_checks (fun _ => trivial) (fun _ => trivial) (fun _ => trivial)
    (fun h => absurd rfl h) (fun _ => scalarResult_steady) (fun h => by cases h)
    (fun _ => resultAvoids_steady) (productStays_steady _ fun _ _ _ h => h.product)
    (productStays_steady _ fun _ _ _ h => h.floatProduct) (fun _ _ => resultNoRegister_steady)
    (fun _ _ => operandNoRegister_steady) reductionStays_steady splatStays_steady

end FinalForm

/-- What is legal on the second generation and no load is legal wherever it looks the same. -/
theorem legality_steady (h : SameView g g' x) (hk : g.kind x ≠ .upd) (c c' : AccessSizes) :
    Together (fun a a' => a.1 = .legal → a'.1 = .legal)
      (Generation.aieml.conversionTarget.legality g x c)
      (Generation.aieml.conversionTarget.legality g' x c') := by
  unfold ConversionTarget.legality
  rw [h.kind]
  dsimp only
  cases hcheck : Generation.aieml.conversionTarget.checks (g.kind x) with
  | none =>
    exact .ok fun hlegal => hlegal
  | some check =>
    -- No load has another check than its size, and all other checks are steady.
    have hsteady := FinalForm.settings_steady _ (ConversionTarget.mem_of_checks hcheck)
    refine (hsteady hk g g' x c c' h rfl).bind fun a a' ha => .pure ?_
    obtain ⟨ok, sizes⟩ := a
    obtain ⟨ok', sizes'⟩ := a'
    cases ok with
    | false => nofun
    | true =>
      intro _
      rw [if_pos (ha rfl)]

/-- What has so many bits does not fill a register. -/
theorem not_fillsRegister_of_long {shape : VectorShape} {full : Bool}
    (hlong : twoPow 32 ≤ shape.bits) (hfull : shape.fillsRegister = .ok full) : full = false := by
  obtain ⟨hshort, rfl⟩ := fillsRegister_eq_ok.mp hfull
  refine Bool.eq_false_iff.mpr fun hregister => ?_
  exact absurd (hshort (Bool.and_eq_true_iff.mp hregister).1) (Nat.not_lt.mpr hlong)

/-- So a check that is after full registers allows it, if it comes to a verdict. -/
theorem legal_of_long {target : ConversionTarget} {test : Graph → OpId → Except Fault Bool}
    {shape : VectorShape} {verdict : Legality} {c c' : AccessSizes}
    (hcheck : target.checks (g.kind x) = some (.ofTest test))
    (htest : test g x = (do return !(← shape.fillsRegister))) (hlong : twoPow 32 ≤ shape.bits)
    (hverdict : target.legality g x c = .ok (verdict, c')) : verdict = .legal := by
  obtain ⟨ok, hok, rfl⟩ := (ConversionTarget.legality_eq_ok_of_check hcheck).mp hverdict
  obtain ⟨stays, hstays, e⟩ := bind_eq_ok.mp hok
  rw [htest] at hstays
  obtain ⟨full, hfull, hstays⟩ := bind_eq_ok.mp hstays
  cases hstays
  cases e
  rw [not_fillsRegister_of_long hlong hfull]
  rfl

/-- Of what may overflow but reads and loads, nothing is open to the rules of the second
generation: the shapes they go for are small. -/
theorem legal_of_mayOverflow {gone : List OpId} {root : OpId} (hg : Scene g gone root)
    (hin : g.Inside root x) (hread : g.kind x ≠ .transferRead) (hload : g.kind x ≠ .upd)
    (h : g.MayOverflow x) {verdict : Legality} {c c' : AccessSizes}
    (hverdict : Generation.aieml.conversionTarget.legality g x c = .ok (verdict, c')) :
    verdict = .legal := by
  cases h with
  | access hk => exact absurd hk (not_or.mpr ⟨hread, hload⟩)
  -- So many lanes have no lanewise sum.
  | @doubled shape hk hshape hlong =>
    have hcheck : Generation.aieml.conversionTarget.checks (g.kind x) =
        some (.ofPredicate (FinalForm.resultAvoids VectorShape.isElementwise)) := by
      rw [hk]
      rfl
    rw [ConversionTarget.legality_of_predicate hcheck, if_pos] at hverdict
    · exact (Prod.mk.inj (Except.ok.inj hverdict)).1.symm
    rw [FinalForm.resultAvoids, hshape, Option.any_some, Bool.not_eq_true']
    refine Bool.eq_false_iff.mpr fun helem => ?_
    have hlanes := lanes_of_isElementwise helem
    have hword : 2 * 64 < twoPow 32 := by decide
    omega
  | @result shape hk hshape hlong =>
    have hcheck : Generation.aieml.conversionTarget.checks (g.kind x) =
        some (.ofTest FinalForm.resultNoRegister) := by
      simp only [List.mem_cons, List.not_mem_nil, or_false] at hk
      rcases hk with hk | hk | hk | hk | hk <;> rw [hk] <;> rfl
    refine legal_of_long hcheck ?_ hlong hverdict
    rw [FinalForm.resultNoRegister, hshape]
  | @operand ty shape hk hty hshape hlong =>
    have hcheck : Generation.aieml.conversionTarget.checks (g.kind x) =
        some (.ofTest FinalForm.operandNoRegister) := by
      rcases List.mem_pair.mp hk with hk | hk <;> rw [hk] <;> rfl
    obtain ⟨v, hv, rfl⟩ : ∃ v, (g.operands x)[0]? = some v ∧ (g.value v).ty = ty := by
      rw [typesOf, List.getElem?_map] at hty
      exact Option.map_eq_some_iff.mp hty
    refine legal_of_long hcheck ?_ hlong hverdict
    rw [FinalForm.operandNoRegister, hg.operandShape? hin 0, hv, Option.bind_some, hshape]
    rfl

/-! ## Rest -/

/-- No visit rewrites the operation, whatever sizes are remembered: each rule that can be tried
answers, and has nothing to do. -/
def RuleSet.Rests (rules : RuleSet) (target : ConversionTarget) (g : Graph) (x : OpId) : Prop :=
  ∀ c₀, target.OpenAt g x c₀ → ∀ e ∈ rules.entries, g.kind x ∈ e.rule.roots → ∀ c,
    ∃ g' c' outcome, e.rule.run g x c = .ok (g', c', outcome) ∧ outcome.isMatch = false

variable {o : LowerOptions}

/-- An operation of a kind that no rule is tried on rests. -/
theorem RuleSet.Rests.of_no_rule {rules : RuleSet} {target : ConversionTarget}
    (h : ∀ e ∈ rules.entries, g.kind x ∉ e.rule.roots) : rules.Rests target g x :=
  fun _ _ e he hk => absurd hk (h e he)

/-- What rests is not rewritten. -/
theorem RuleSet.Rests.not_rewrites {rules : RuleSet} {target : ConversionTarget}
    {Q : AccessSizes → AccessSizes → Prop} {root : OpId} {gone : List OpId} {c₀ : AccessSizes}
    {s s' : Application} {b : BlockId} {old : ValueId} {r : Recipe}
    (h : rules.Rests target s.graph x) :
    ¬ Application.Rewrites rules target Q root gone c₀ s x s' b old r := by
  intro hrw
  obtain ⟨e, he, hk, c, c', -, hrun, -⟩ := hrw.rule
  obtain ⟨_, _, _, hanswer, hidle⟩ := h c₀ hrw.opened e he hk c
  rw [hrun] at hanswer
  cases hanswer
  cases hidle

/-- The rule gives the same answer whatever sizes are remembered. -/
def Rule.Sizeless (rule : Rule) : Prop :=
  ∀ g x c₁ c₂ g' c' outcome, rule.run g x c₁ = .ok (g', c', outcome) →
    rule.run g x c₂ = .ok (g', c₂, outcome)

/-- A rule that decides by the graph alone does not go by sizes. -/
theorem Rule.Sizeless.ofDecision (name : String) (roots : List OpKind)
    (look : Graph → OpId → Except Fault Decision) : (Rule.ofDecision name roots look).Sizeless := by
  intro g x c₁ c₂ g' c' outcome h
  exact Rule.run_ofDecision_eq_ok.mpr ⟨rfl, (Rule.run_ofDecision_eq_ok.mp h).2⟩

/-- All rules are but the one that splits loads. -/
theorem sizeless_of_mem_tables (shift : Int) :
    ∀ r ∈ aieRules ++ aiemlRules shift, r.roots = [.upd] ∨ r.Sizeless :=
  forall_mem_tables (fun name roots look => Or.inr (.ofDecision name roots look))
    (fun _ => Or.inl rfl) shift

section

variable (ho : o.target = .aieml) (hk : g.kind x ≠ .upd)
include ho hk

/-- Every rule for the kind of the operation is steady. -/
theorem LowerOptions.steady_of_mem {e : RuleEntry} (he : e ∈ o.ruleSet.entries)
    (hroot : g.kind x ∈ e.rule.roots) : e.rule.Steady := by
  have hmem : e.rule ∈ aiemlRules o.shift := by
    unfold LowerOptions.ruleSet at he
    rw [ho] at he
    exact RuleSet.mem_entries_ofList he
  refine (aiemlRules_steady o.shift e.rule hmem).resolve_left fun hroots => ?_
  rw [hroots, List.mem_singleton] at hroot
  exact hk hroot

/-- What is legal with some sizes, or declined by all rules with some, rests. -/
theorem rests_of_legal {c c' : AccessSizes}
    (h : o.target.conversionTarget.legality g x c = .ok (.legal, c')) :
    o.ruleSet.Rests o.target.conversionTarget g x := by
  rintro c₀ ⟨verdict, c₁, hverdict, hopen⟩
  rw [ho] at h hverdict
  exact absurd (legality_steady (.refl g x) hk c c₀ _ _ h hverdict rfl) hopen

omit ho in
/-- And none of them asks for sizes. -/
theorem LowerOptions.sizeless_of_mem {e : RuleEntry} (he : e ∈ o.ruleSet.entries)
    (hroot : g.kind x ∈ e.rule.roots) : e.rule.Sizeless := by
  refine (sizeless_of_mem_tables o.shift e.rule (o.mem_tables he)).resolve_left fun hroots => ?_
  rw [hroots, List.mem_singleton] at hroot
  exact hk hroot

omit ho in
/-- An operation that every rule for it declines is at rest. -/
theorem rests_of_declined
    (h : ∀ e ∈ o.ruleSet.entries, g.kind x ∈ e.rule.roots →
      ∃ c c', e.rule.run g x c = .ok (g, c', .declined)) :
    o.ruleSet.Rests o.target.conversionTarget g x := by
  intro c₀ _ e he hroot c
  obtain ⟨c₁, c₂, hdeclined⟩ := h e he hroot
  exact ⟨g, c, .declined, LowerOptions.sizeless_of_mem hk he hroot _ _ _ c _ _ _ hdeclined, rfl⟩

/-- What rests goes on resting where it looks the same. -/
theorem RuleSet.Rests.sameView {gone gone' : List OpId} {root : OpId} (hg : Scene g gone root)
    (hin : g.Inside root x) (hg' : Scene g' gone' root) (hin' : g'.Inside root x)
    (hlanes : g'.HasLanes x) (hover : g'.MayOverflow x ↔ g.MayOverflow x) (hview : SameView g g' x)
    (h : o.ruleSet.Rests o.target.conversionTarget g x) :
    o.ruleSet.Rests o.target.conversionTarget g' x := by
  rintro c₀ hopen' e he hroot' c
  have hroot : g.kind x ∈ e.rule.roots := hview.kind ▸ hroot'
  have hsteady := LowerOptions.steady_of_mem ho hk he hroot
  by_cases hread : g.kind x = .transferRead
  · -- A read is open to the rule for it, and left alone before anything is computed.
    have hopen : o.target.conversionTarget.OpenAt g x c₀ :=
      ⟨.illegal, c₀, Generation.legality_transferRead hread c₀, by decide⟩
    obtain ⟨g₁, c₁, outcome, hrun, hidle⟩ := h c₀ hopen e he hroot c
    have hrule := rule_of_transferRead he (hread ▸ hroot)
    obtain ⟨access, haccess, -⟩ := hg'.memAccess? hin'
    rw [hrule] at hrun hsteady ⊢
    obtain ⟨g₂, c₂, outcome', hrun'⟩ :=
      transferReadToUpd_answers hview haccess hrun hidle c
    refine ⟨g₂, c₂, outcome', hrun', Bool.eq_false_iff.mpr fun hmatch => ?_⟩
    have := hsteady g g' x c c hview (hrule ▸ hroot) _ _ hrun hrun' hmatch
    exact Bool.noConfusion (hidle.symm.trans this)
  · -- What is open can be computed, before and after.
    obtain ⟨verdict', c₁, hverdict', hstays'⟩ := hopen'
    have hsafe : ¬ g.MayOverflow x := fun hmay => hstays' <| by
      rw [ho] at hverdict'
      exact legal_of_mayOverflow hg' hin' (hview.kind ▸ hread) (hview.kind ▸ hk) (hover.mpr hmay)
        hverdict'
    obtain ⟨⟨verdict, c₃⟩, hverdict, -⟩ :=
      (o.target.conversionTarget_total g gone root x c₀ hg hin).yields fun _ he => hsafe he.2
    have hopen : o.target.conversionTarget.OpenAt g x c₀ := by
      refine ⟨verdict, c₃, hverdict, fun hlegal => hstays' ?_⟩
      rw [ho] at hverdict hverdict'
      exact legality_steady hview hk c₀ c₀ _ _ hverdict hverdict' hlegal
    obtain ⟨g₁, c₂, outcome, hrun, hidle⟩ := h c₀ hopen e he hroot c
    have hanswers := (o.ruleSet_lawful e he).answers g' gone' root x c hg' hin' hroot'
      ⟨c₀, verdict', c₁, hverdict', hstays'⟩
    obtain ⟨⟨g₂, c₄, outcome'⟩, hrun', -⟩ :=
      hanswers.yields fun _ hex => hsafe (hover.mp (hex hlanes).2)
    refine ⟨g₂, c₄, outcome', hrun', Bool.eq_false_iff.mpr fun hmatch => ?_⟩
    have := hsteady g g' x c c hview hroot _ _ hrun hrun' hmatch
    exact Bool.noConfusion (hidle.symm.trans this)

end

end SimdLowering
