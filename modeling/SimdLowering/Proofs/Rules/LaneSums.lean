/-
The types of lanewise sums and differences.

The second generation adds and subtracts lane by lane for a short list of shapes. The rules that
write these instructions check the shape of what they replace, but this is not the shape of what
they write: that is the shape of an accumulator, of half a vector, or of a source that an operand
was extended from. Here the type of every such instruction is followed through every plan of the
rules for sums and of the rules for adding reductions.

All are on the list but one. A sum of sixteen lanes of thirty-two bits, of which one operand alone
is extended from sixteen bits, is computed in the accumulator of its own type, which has sixteen
lanes of sixty-four bits.
-/
import SimdLowering.Proofs.Integral.Renaming
import SimdLowering.Proofs.Integral.Sums
import SimdLowering.Proofs.Rules.Reduction
import SimdLowering.Proofs.Rules.Written

set_option autoImplicit false

namespace SimdLowering

/-- The kinds of lanewise sums and differences. -/
def OpKind.isLaneSum : OpKind → Bool
  | addElem | subElem => true
  | _ => false

/-! ## Types -/

namespace Ty

variable {ty : Ty} {s : VectorShape}

/-- The type has a shape that is on the list of lanewise sums. -/
def IsElementwise (ty : Ty) : Prop := ∃ s, ty.vectorShape = some s ∧ s.isElementwise = true

/-- A type is elementwise if its lanes and width are on the list. -/
theorem isElementwise_of_pair (hs : ty.vectorShape = some s) (hp : s.pair ∈ elementwiseShapes) :
    ty.IsElementwise :=
  ⟨s, hs, List.contains_iff_mem.mpr hp⟩

/-- Vectors of other lengths have the same lanes. -/
theorem vectorShape_vector (hs : ty.vectorShape = some s) (n : Nat) :
    (Ty.vector n s.elem).vectorShape = some { s with lanes := n } := by
  cases ty with
  | vector m elem =>
    obtain ⟨bits, hbits, rfl⟩ := Option.map_eq_some_iff.mp hs
    exact Option.map_eq_some_iff.mpr ⟨bits, hbits, rfl⟩
  | _ => cases hs

/-- The accumulator for floats and for integers of at most sixteen bits has as many lanes, of
thirty-two bits. -/
theorem accumulatorOf_of_narrow (hs : ty.vectorShape = some s)
    (h : s.isFloat = true ∨ s.elemBits ≤ 16) :
    ∃ a, (accumulatorOf ty).vectorShape = some a ∧ a.pair = (s.lanes, 32) := by
  cases ty with
  | vector n elem =>
    cases elem with
    | int width sign =>
      obtain rfl := Option.some.inj hs
      have hw : width ≤ 16 := h.resolve_left nofun
      have hacc : accumulatorOf (.vector n (.int width sign)) = .vector n (.i 32) :=
        congrArg (fun w => Ty.vector n (.i w)) (if_pos hw)
      exact ⟨⟨n, .i 32, 32, false⟩, by rw [hacc]; rfl, rfl⟩
    | float format =>
      obtain rfl := Option.some.inj hs
      cases format <;> exact ⟨_, rfl, rfl⟩
    | _ => cases hs
  | _ => cases hs

/-- The accumulator for wider integers has lanes of sixty-four bits. -/
theorem accumulatorOf_of_wide (hs : ty.vectorShape = some s) (hint : s.isFloat = false)
    (h : 16 < s.elemBits) :
    ∃ a, (accumulatorOf ty).vectorShape = some a ∧ a.pair = (s.lanes, 64) := by
  cases ty with
  | vector n elem =>
    cases elem with
    | int width sign =>
      obtain rfl := Option.some.inj hs
      have hacc : accumulatorOf (.vector n (.int width sign)) = .vector n (.i 64) :=
        congrArg (fun w => Ty.vector n (.i w)) (if_neg (Nat.not_le.mpr h))
      exact ⟨⟨n, .i 64, 64, false⟩, by rw [hacc]; rfl, rfl⟩
    | float format =>
      obtain rfl := Option.some.inj hs
      cases hint
    | _ => cases hs
  | _ => cases hs

end Ty

/-! ## Plans -/

/-- If the step is a lanewise sum or difference, its type is of this sort. -/
def SumsIn (P : Ty → Prop) (d : Step) : Prop := d.kind.isLaneSum = true → P d.resultType

/-- The same in whatever context. -/
abbrev EachSum (P : Ty → Prop) (_ : List Unit) (d : Step) (_ : Unit) : Prop := SumsIn P d

/-- The same of the last step. -/
abbrev LastSum (P : Ty → Prop) (_ : List Unit) (d : Step) : Prop := SumsIn P d

/-- The type that the steps before give is of this sort. -/
abbrev GivesSum (P : Ty → Prop) (_ : List Unit) (o : Operand Source) : Prop := P o.ty

/-- Where no lanewise sums are written, nothing is to be known of them. -/
theorem sumsIn_of_contains {ks : List OpKind} {P : Ty → Prop} {d : Step}
    (hks : ks.all (fun k => !k.isLaneSum) = true) (hd : ks.contains d.kind = true) :
    SumsIn P d := by
  intro hk
  have := List.all_eq_true.mp hks _ (List.contains_iff_mem.mp hd)
  rw [hk] at this
  cases this

namespace Rules

open SimdLowering.Graph

variable {P : Ty → Prop} {Γ : List Unit} {sum onLeft : Bool} {ty accTy : Ty} {a b : Source}
  {l r o : Operand Source} {amounts : List Nat} {isAcc : Bool} {shape : VectorShape}
  {combine : Operand Source → Operand Source → Plan (Operand Source)}

/-- A lanewise step sums where its left operand lies. -/
theorem sumsIn_elemStep (h : P l.ty) : SumsIn P (elemStep sum l b) := fun _ =>
  resultType_elemStep.symm ▸ h

/-- What is cast back afterwards does not matter. -/
theorem combineAndCast_sums (h : P l.ty) :
    (combineAndCast sum ty l r).Makes (EachSum P) Γ (LastSum P) :=
  .emit_bind (y := ()) (sumsIn_elemStep h) (.pure nofun)

/-- Nor does what is narrowed. -/
theorem combineAndNarrow_sums (h : P l.ty) :
    (combineAndNarrow sum ty l r).Makes (EachSum P) Γ (LastSum P) :=
  .emit_bind (y := ()) (sumsIn_elemStep h) (.pure nofun)

/-- Views have the type of the result. -/
theorem throughViews_sums (h : P ty) :
    (throughViews sum ty a b).Makes (EachSum P) Γ (LastSum P) := by
  refine .emit_bind (y := ()) nofun ?_
  refine .emit_bind (y := ()) nofun ?_
  exact combineAndCast_sums h

/-- Two operands in the accumulator are summed there. -/
theorem bothInto_sums (h : P accTy) :
    (bothInto sum ty accTy a b).Makes (EachSum P) Γ (LastSum P) := by
  refine .emit_bind (y := ()) nofun ?_
  refine .emit_bind (y := ()) nofun ?_
  exact combineAndCast_sums h

/-- Which of the two types the sum has depends on the side that moves into the accumulator. -/
theorem oneInto_sums (h : P (if onLeft then accTy else ty)) :
    (oneInto sum ty accTy onLeft a b).Makes (EachSum P) Γ (LastSum P) := by
  refine .emit_bind (y := ()) nofun ?_
  refine .emit_bind (y := ()) nofun ?_
  cases onLeft
  · exact combineAndCast_sums h
  · exact combineAndCast_sums h

/-- So are two of which one comes from sixteen bits. -/
theorem oneNarrow_sums (h : P accTy) :
    (oneNarrow sum ty accTy onLeft a b).Makes (EachSum P) Γ (LastSum P) := by
  refine .emit_bind (y := ()) nofun ?_
  refine .emit_bind (y := ()) nofun ?_
  cases onLeft
  · exact combineAndNarrow_sums h
  · exact combineAndNarrow_sums h

/-- The running vector of a tree keeps its type. -/
theorem treeLevels_sums
    (hc : ∀ Γ a b, P a.ty → (combine a b).Makes (EachSum P) Γ (GivesSum P)) (h : P o.ty) :
    (treeLevels ty isAcc combine amounts o).Makes (EachSum P) Γ (GivesSum P) := by
  refine Plan.Makes.foldlM (I := fun _ => GivesSum P) (fun amount rest Γ a ha => ?_) h
  refine .emit_bind (y := ()) nofun ?_
  refine .emit_bind (y := ()) nofun ?_
  exact hc _ _ _ ha

/-- Reading a lane sums nothing. -/
theorem firstLane_sums : (firstLane ty a).Makes (EachSum P) Γ (LastSum P) :=
  .emit_bind (y := ()) nofun (.pure nofun)

/-- A tree sums vectors of the type of its input. -/
theorem treePlan_sums (h : P o.ty) :
    (treePlan Instr.addElem amounts o).Makes (EachSum P) Γ (LastSum P) :=
  (treeLevels_sums (fun _ _ _ ha => .emit (y := ()) (fun _ => ha) ha) h).bind
    fun _ _ _ _ => firstLane_sums

/-- One that starts with two halves sums halves. -/
theorem halvedSumPlan_sums (h : P (.vector (shape.lanes / 2) shape.elem)) :
    (halvedSumPlan shape amounts o).Makes (EachSum P) Γ (LastSum P) := by
  refine .emit_bind (y := ()) nofun ?_
  refine .emit_bind (y := ()) nofun ?_
  refine .emit_bind (y := ()) (fun _ => h) ?_
  exact treePlan_sums h

/-- A tree of floats sums floats. -/
theorem floatSumTree_sums (h : P o.ty) :
    (floatSumTree shape amounts o).Makes (EachSum P) Γ (LastSum P) := by
  refine (treeLevels_sums (fun Γ a b _ => ?_) h).bind fun _ _ _ _ => firstLane_sums
  refine .emit_bind (y := ()) nofun ?_
  refine .emit_bind (y := ()) nofun ?_
  refine .emit_bind (y := ()) (fun _ => h) ?_
  exact .emit (y := ()) nofun h

/-- A tree of short floats sums their accumulators. -/
theorem brainSumTree_sums (h : P (accumulatorOf o.ty)) :
    (brainSumTree shape amounts o).Makes (EachSum P) Γ (LastSum P) := by
  refine .emit_bind (y := ()) nofun ?_
  refine (treeLevels_sums (fun _ _ _ ha => .emit (y := ()) (fun _ => ha) ha) h).bind
    fun _ _ _ _ => ?_
  refine .emit_bind (y := ()) nofun ?_
  refine .emit_bind (y := ()) nofun ?_
  exact firstLane_sums

end Rules

/-! ## Rules -/

namespace Graph

variable {g : Graph} {gone : List OpId} {root op d : OpId} {lhs rhs old v source : ValueId}
  {shape : VectorShape} {k : OpKind} {bits : Nat}

/-- An extension gives as many lanes as it reads, and one to wider floats reads floats. -/
structure ExtendsLanes (g : Graph) (d : OpId) : Prop where
  lanes : g.kind d = .extsi ∨ g.kind d = .extf → ∀ s ∈ g.typesOf (g.operands d),
    ∀ t ∈ g.resultTypes d, s.SameLanes t
  floats : g.kind d = .extf → ∀ s ∈ g.typesOf (g.operands d), s.elementType.isFloat = true

/-- The operation is a sum or difference of sixteen lanes of thirty-two bits, and of its operands
one is extended from sixteen bits and the other is not. -/
structure OneSided (g : Graph) (op : OpId) : Prop where
  kind : g.kind op ∈ [OpKind.addi, .subi, .addf, .subf]
  shape : ∃ s, g.resultShape? op = some s ∧ s.pair = (16, 32)
  operands : ∃ lhs rhs, (g.operands op)[0]? = some lhs ∧ (g.operands op)[1]? = some rhs ∧
    ¬ (g.WidenedFrom 16 lhs ↔ g.WidenedFrom 16 rhs)

/-- A type that lanewise sums in the place of the operation may have: one that is on the list, or,
if the operation is a sum with one extended operand, one of sixteen lanes of sixty-four bits. -/
def SumTy (g : Graph) (op : OpId) (ty : Ty) : Prop :=
  ty.IsElementwise ∨ (g.OneSided op ∧ ∃ s, ty.vectorShape = some s ∧ s.pair = (16, 64))

/-- A listed shape may be summed anywhere. -/
theorem sumTy_of_pair {ty : Ty} {s : VectorShape} (hs : ty.vectorShape = some s)
    (hp : s.pair ∈ elementwiseShapes) : g.SumTy op ty :=
  Or.inl (Ty.isElementwise_of_pair hs hp)

/-- Nothing is asked of other operations. -/
theorem ExtendsLanes.of_kind (h : g.kind d ≠ .extsi ∧ g.kind d ≠ .extf) : g.ExtendsLanes d :=
  ⟨fun hk => (hk.elim h.1 h.2).elim, fun hk => (h.2 hk).elim⟩

/-- What a value of so many lanes was extended from has as many, and if it was extended to wider
floats, its lanes are floats. -/
theorem ExtendsLanes.exists_shape (h : g.ExtendsLanes d) (hk : g.kind d = .extsi ∨ g.kind d = .extf)
    (hv : v ∈ g.results d) (hsource : source ∈ g.operands d)
    (hshape : (g.value v).ty.vectorShape = some shape) :
    ∃ s, (g.value source).ty.vectorShape = some s ∧ s.lanes = shape.lanes ∧
      (g.kind d = .extf → s.isFloat = true) := by
  have hs : (g.value source).ty ∈ g.typesOf (g.operands d) := List.mem_map_of_mem hsource
  have hlanes := h.lanes hk _ hs _ (List.mem_map_of_mem hv)
  rw [Ty.SameLanes, hshape] at hlanes
  obtain ⟨s, hs', e⟩ := Option.map_eq_some_iff.mp hlanes
  refine ⟨s, hs', e, fun hf => ?_⟩
  have hfloat := h.floats hf _ hs
  generalize (g.value source).ty = t at hs' hfloat
  cases t with
  | vector n elem =>
    obtain ⟨b, -, rfl⟩ := Option.map_eq_some_iff.mp hs'
    exact hfloat
  | _ => cases hs'

end Graph

/-- Whatever lanewise sums the rule writes in a scene with well-typed extensions have types that
sums in the place of the operation may have. -/
def Rule.WritesSums (rule : Rule) : Prop :=
  ∀ g gone root op, Graph.Scene g gone root → g.Inside root op → g.kind op ∈ rule.roots →
    (∀ d, g.Inside root d → g.ExtendsLanes d) → ∀ c c' r, r.Lawful g root op →
    rule.run g op c = .ok ((g.addRecipe r).1, c', .matched (g.addRecipe r).2) →
    ∀ d ∈ r.all, SumsIn (g.SumTy op) d

/-- The decision is lawful, and the lanewise sums in it have types of this sort. -/
def Decision.WritesSums (g : Graph) (root op : OpId) (d : Decision) : Prop :=
  d.Lawful g root op ∧ ∀ r, d = .rewrite r → ∀ s ∈ r.all, SumsIn (g.SumTy op) s

/-- Declining writes no sum. -/
theorem Decision.WritesSums.decline {g : Graph} {root op : OpId} :
    Decision.decline.WritesSums g root op :=
  ⟨trivial, nofun⟩

/-- A plan writes the sums that it makes, and writes them for good. -/
theorem Decision.WritesSums.follow {g : Graph} {root op : OpId} {p : Plan Step}
    (hlawful : (Decision.follow p).Lawful g root op)
    (h : p.Makes (EachSum (g.SumTy op)) [] (LastSum (g.SumTy op))) :
    (Decision.follow p).WritesSums g root op := by
  refine ⟨hlawful, fun r hr => ?_⟩
  obtain rfl : p.toRecipe = r := Decision.rewrite.inj hr
  exact h.forall_mem

namespace Rule.WritesSums

/-- A rule that writes no sum at all writes none of a wrong shape. -/
theorem of_writes {rule : Rule} {ks : List OpKind} (h : rule.Writes ks)
    (hks : ks.all (fun k => !k.isLaneSum) = true) : rule.WritesSums :=
  fun _ _ _ _ _ _ _ _ _ _ _ _ hrun d hd => sumsIn_of_contains hks (h _ _ _ _ _ hrun d hd)

/-- A rule writes the sums that its decisions write. -/
theorem ofDecision {name : String} {roots : List OpKind}
    {look : Graph → OpId → Except Fault Decision}
    (h : ∀ g gone root op, Graph.Scene g gone root → g.Inside root op → g.kind op ∈ roots →
      (∀ d, g.Inside root d → g.ExtendsLanes d) →
      Yields (look g op) (Decision.WritesSums g root op)) :
    (Rule.ofDecision name roots look).WritesSums := by
  intro g gone root op hscene hin hk hext c c' r hr hrun d hd
  obtain ⟨decision, hlook, hlawful, hsums⟩ := h g gone root op hscene hin hk hext
  have hc := hscene.consistent
  cases decision with
  | rewrite r' =>
    obtain rfl := Rule.recipe_of_run hc hlook (Recipe.Lawful.hasValue hlawful hc)
      (hr.hasValue hc) hrun
    exact hsums r rfl d hd
  | _ =>
    rw [Rule.run_ofDecision hlook] at hrun
    cases (Prod.mk.inj (Prod.mk.inj (Except.ok.inj hrun)).2).2

end Rule.WritesSums

namespace Rules

open SimdLowering.Graph

variable {g : Graph} {gone : List OpId} {root op : OpId} {lhs rhs old v source : ValueId} {ty : Ty}
  {shape : VectorShape} {k : OpKind} {bits : Nat} {sum : Bool} {p : Plan Step}

section

variable (hext : ∀ d, g.Inside root d → g.ExtendsLanes d)
include hext

/-- The shape of what a value was extended from. -/
theorem ExtendedFrom.exists_shape (he : ExtendedFrom g root op v source k bits)
    (hk : k = .extsi ∨ k = .extf) (hshape : (g.value v).ty.vectorShape = some shape) :
    ∃ s, (g.value source).ty.vectorShape = some s ∧ s.pair = (shape.lanes, bits) ∧
      (k = .extf → s.isFloat = true) := by
  obtain ⟨d, hd, hslot⟩ := he.reaches
  obtain ⟨s, hs, hlanes, hfloat⟩ := (hext d hd.inside).exists_shape (hd.kind ▸ hk) hd.defines
    (List.mem_of_getElem? hslot) hshape
  refine ⟨s, hs, ?_, fun hf => hfloat (hd.kind.trans hf)⟩
  have hwidth := he.width
  rw [hs] at hwidth
  exact Prod.ext hlanes hwidth

/-- The accumulator for what a value was extended from, if that is narrow or floats. -/
theorem ExtendedFrom.accumulator (he : ExtendedFrom g root op v source k bits)
    (hk : k = .extf ∨ (k = .extsi ∧ bits ≤ 16))
    (hshape : (g.value v).ty.vectorShape = some shape) (h : (shape.lanes, 32) ∈ elementwiseShapes) :
    g.SumTy op (accumulatorOf (g.value source).ty) := by
  obtain ⟨s, hs, hpair, hfloat⟩ := ExtendedFrom.exists_shape hext he
    (hk.elim Or.inr fun h => Or.inl h.1) hshape
  obtain ⟨hlanes, hbits⟩ := Prod.mk.inj hpair
  obtain ⟨a, ha, hp⟩ := Ty.accumulatorOf_of_narrow hs
    (hk.imp hfloat fun h => Nat.le_trans (Nat.le_of_eq hbits) h.2)
  exact sumTy_of_pair ha (by rw [hp, hlanes]; exact h)

/-- Whatever way an integer sum is planned, it is on the list, or one operand alone is extended
from sixteen bits. -/
theorem IntSum.sums (hscene : Scene g gone root)
    (hkind : g.kind op ∈ [OpKind.addi, .subi, .addf, .subf]) (hold : g.results op = [old])
    (hl : (g.operands op)[0]? = some lhs) (hr : (g.operands op)[1]? = some rhs)
    (hty : (g.value lhs).ty = (g.value old).ty)
    (hshape : (g.value old).ty.vectorShape = some shape) (hint : shape.isFloat = false)
    (helem : shape.isElementwise = true)
    (h : IntSum g root op sum shape (g.value old).ty lhs rhs p) :
    p.Makes (EachSum (g.SumTy op)) [] (LastSum (g.SumTy op)) := by
  have hlist : shape.pair ∈ elementwiseShapes := List.contains_iff_mem.mp helem
  have hself : g.SumTy op (g.value old).ty := sumTy_of_pair hshape hlist
  cases h with
  | direct => exact .pure (sumsIn_elemStep (hty.symm ▸ hself))
  | views => exact throughViews_sums hself
  | @both ls rs bits hwide hnarrow hls hrs =>
    have hbits : bits ≤ 16 := by
      simp only [isNarrowWidth, Bool.or_eq_true, beq_iff_eq] at hnarrow
      omega
    rw [VectorShape.pair, hwide] at hlist
    exact bothInto_sums (ExtendedFrom.accumulator hext hls (Or.inr ⟨rfl, hbits⟩) (hty.symm ▸ hshape)
      hlist)
  | @one onLeft source hwide hs =>
    rw [VectorShape.pair, hwide] at hlist
    -- The sum has the type of its left operand, which is moved only if it is the extended one.
    cases onLeft
    · exact oneInto_sums hself
    · exact oneInto_sums (ExtendedFrom.accumulator hext hs (Or.inr ⟨rfl, by decide⟩)
        (hty.symm ▸ hshape) hlist)
  | @narrow onLeft source hpair hs hother =>
    -- The accumulator is not that of the narrow source but of the sum itself, whose lanes have
    -- thirty-two bits already: this is the only sum that can leave the list.
    obtain ⟨hlanes, hbits⟩ := Prod.mk.inj hpair
    obtain ⟨a, ha, hp⟩ := Ty.accumulatorOf_of_wide hshape hint (by rw [hbits]; decide)
    rw [hlanes] at hp
    refine oneNarrow_sums (Or.inr ⟨⟨hkind, ⟨shape, ?_, hpair⟩, lhs, rhs, hl, hr, ?_⟩, a, ha, hp⟩)
    · rw [resultShape?_eq hold, hshape]
    · exact not_widenedFrom_iff hscene hs hother

/-- Whatever way a float sum is planned, it is on the list. -/
theorem FloatSum.sums (hty : (g.value lhs).ty = (g.value old).ty)
    (hshape : (g.value old).ty.vectorShape = some shape) (hfloat : shape.isFloat = true)
    (hlanes : shape.lanes = 16) (h : FloatSum g root op sum shape (g.value old).ty lhs rhs p) :
    p.Makes (EachSum (g.SumTy op)) [] (LastSum (g.SumTy op)) := by
  have hlist : (shape.lanes, 32) ∈ elementwiseShapes := by
    rw [hlanes]
    decide
  cases h with
  | views hwide =>
    exact throughViews_sums (sumTy_of_pair hshape (by rwa [VectorShape.pair, hwide]))
  | both hwide hls hrs =>
    exact bothInto_sums (ExtendedFrom.accumulator hext hls (Or.inl rfl) (hty.symm ▸ hshape) hlist)
  | @one onLeft source bits hwide hs =>
    cases onLeft
    · exact oneInto_sums (sumTy_of_pair hshape (by rwa [VectorShape.pair, hwide]))
    · exact oneInto_sums (ExtendedFrom.accumulator hext hs (Or.inl rfl) (hty.symm ▸ hshape) hlist)
  | narrow hnarrow =>
    obtain ⟨a, ha, hp⟩ := Ty.accumulatorOf_of_narrow hshape (Or.inl hfloat)
    exact oneNarrow_sums (sumTy_of_pair ha (hp.symm ▸ hlist))

end

/-- Sums and differences are where the shapes are decided. -/
theorem addSubToElem_sums {kind : OpKind} (hkind : kind ∈ [OpKind.addi, .subi, .addf, .subf]) :
    (addSubToElem kind).WritesSums := by
  obtain ⟨look, hrule, hlook⟩ := exists_addSubToElem_look kind
  rw [hrule]
  refine .ofDecision fun g gone root op h hin hk hext => ?_
  refine (hlook g gone root op h hin hk).mono fun d hd => ?_
  rcases hd with rfl | ⟨shape, lhs, rhs, old, p, hp, rfl⟩
  · exact .decline
  refine .follow hp.lawful ?_
  rcases hp.planned with ⟨hfloat, hlanes, hsum⟩ | ⟨hint, helem, hsum⟩
  · exact FloatSum.sums hext hp.typed hp.shaped hfloat hlanes hsum
  · exact IntSum.sums hext h ((mem_lanewiseRoots hk).1 ▸ hkind) hp.result hp.left hp.right hp.typed
      hp.shaped hint helem hsum

/-- The input of a rule for reductions has its lanes. -/
theorem reductionRule_sums {name : String}
    {look : CombiningKind → VectorShape → Operand Source → Except Fault Decision}
    (hlook : ∀ (g : Graph) (root op : OpId) (kind : CombiningKind) (shape : VectorShape)
      (v old : ValueId), g.AtHand root op v → (g.value v).ty.vectorShape = some shape →
      g.results op = [old] → (g.value old).ty = (g.value v).ty.elementType →
      Yields (look kind shape ⟨.value v, (g.value v).ty⟩) (Decision.WritesSums g root op)) :
    (reductionRule name look).WritesSums := by
  refine .ofDecision fun g gone root op h hin hk _ => ?_
  refine reductionRule_look h hin (List.mem_singleton.mp hk) .decline ?_
  intro kind shape v old _ _ hv hs hold hty
  exact hlook g root op kind shape v old hv hs hold hty

/-- Two registers are added first, which leaves a vector of half the lanes. -/
theorem intAddReduction_sums : intAddReduction.WritesSums := by
  refine reductionRule_sums fun g root op kind shape v old hv hs hold hty => ?_
  split
  · exact .ok .decline
  next hcond =>
  simp only [not_or, Bool.not_eq_false, Bool.not_eq_true] at hcond
  obtain ⟨-, hfloat, helem⟩ := hcond
  obtain ⟨hmost, hwidth, helemBits⟩ := size_of_treeShape hs (by rw [hfloat]; exact helem)
  -- The sixteen wide lanes are halved by hand; all other shapes take the tree.
  split
  · next hpair =>
    obtain ⟨hlanes, hbits⟩ := Prod.mk.inj hpair
    refine (treeAmounts_yields (by omega) (by omega)).bind fun amounts _ => ?_
    refine .pure (.follow (.of_makes hold ?_) (halvedSumPlan_sums ?_))
    · rw [hty, elementType_of_vectorShape hs]
      exact halvedSumPlan_makes (.value hv)
    · refine sumTy_of_pair (Ty.vectorShape_vector hs _) ?_
      rw [hlanes, VectorShape.pair, hbits]
      exact List.contains_iff_mem.mp rfl
  · refine (reductionTree_yields (twoPow_log2_of_isElementwise helem) (by omega)
      (show (g.value v).ty.elementType.scalarBits.getD 0 ≤ 64 by omega)).bind ?_
    rintro _ ⟨amounts, rfl⟩
    exact .pure (.follow (treePlan_lawful isLanewise_addElem hv hold hty)
      (treePlan_sums (sumTy_of_pair hs (List.contains_iff_mem.mp helem))))

theorem f32AddReduction_sums : f32AddReduction.WritesSums := by
  refine reductionRule_sums fun g root op kind shape v old hv hs hold hty => ?_
  split
  · exact .ok .decline
  next hcond =>
  simp only [not_or, not_not] at hcond
  obtain ⟨hlanes, hbits⟩ := Prod.mk.inj hcond.2.2
  refine (treeAmounts_yields (by omega) (by omega)).bind fun amounts _ => ?_
  refine .pure (.follow (.of_makes hold ?_) (floatSumTree_sums (sumTy_of_pair hs ?_)))
  · rw [hty, elementType_of_vectorShape hs]
    exact floatSumTree_makes (.value hv)
  · rw [hcond.2.2]
    decide

theorem bf16AddReduction_sums : bf16AddReduction.WritesSums := by
  refine reductionRule_sums fun g root op kind shape v old hv hs hold hty => ?_
  split
  · exact .ok .decline
  next hcond =>
  simp only [not_or, Bool.not_eq_false, not_not] at hcond
  obtain ⟨-, hfloat, hpair⟩ := hcond
  obtain ⟨a, ha, hp⟩ := Ty.accumulatorOf_of_narrow hs (Or.inl hfloat)
  have hlanes := (Prod.mk.inj hpair).1
  refine (treeAmounts_yields (by omega) (accBits_le hs hfloat)).bind fun amounts _ => ?_
  refine .pure (.follow (.of_makes hold ?_) (brainSumTree_sums (sumTy_of_pair ha ?_)))
  · rw [hty, elementType_of_vectorShape hs]
    exact brainSumTree_makes (.value hv)
  · rw [hp, (Prod.mk.inj hpair).1]
    decide

/-- Of the rules of the second generation, those that write lanewise sums are the ones above. -/
theorem aiemlRules_sums (shift : Int) : ∀ rule ∈ aiemlRules shift, rule.WritesSums := by
  simp only [aiemlRules, List.forall_mem_cons]
  exact ⟨.of_writes transferReadToUpd_writes rfl, .of_writes (splitUpd_writes _) rfl,
    .of_writes (mulAddToFmaElem_writes shift) rfl, addSubToElem_sums (by decide),
    addSubToElem_sums (by decide), addSubToElem_sums (by decide), addSubToElem_sums (by decide),
    .of_writes (minMaxToElem_writes _) rfl, .of_writes (minMaxToElem_writes _) rfl,
    .of_writes (minMaxToElem_writes _) rfl, .of_writes (minMaxToElem_writes _) rfl,
    .of_writes (cmpToMask_writes _) rfl, .of_writes (cmpToMask_writes _) rfl,
    .of_writes selectToSel_writes rfl, .of_writes minReduction_writes rfl,
    .of_writes maxReduction_writes rfl, intAddReduction_sums, f32AddReduction_sums,
    bf16AddReduction_sums, .of_writes extractBroadcastToLane_writes rfl,
    .of_writes (mulIToMulElem_writes shift) rfl, .of_writes (mulFToMulElem_writes shift) rfl,
    List.forall_mem_nil _⟩

end Rules

end SimdLowering
