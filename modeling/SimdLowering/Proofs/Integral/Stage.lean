/-
Where a rule is judged in an integer function.

While an integer function is lowered, everything under it is still one of the operations
such functions are made of, or has been made by a rule. Rules look only at the former, and
there every operand is known and in the range of its type. `IntegralStage` is a stage of
which this is known besides; it can be entered again at the definition of an operand, which
is how a rule that looks through an extension or an extract is judged.
-/
import SimdLowering.Proofs.Integral.Steps
import SimdLowering.Proofs.Integral.Vocabulary

set_option autoImplicit false

namespace SimdLowering

/-- The kinds of operations that integer functions are made of. -/
def integralKinds : List OpKind :=
  [.ret, .constant, .addi, .subi, .minsi, .maxsi, .cmpi, .select, .extsi, .reduction, .extract,
    .broadcast, .transferRead]

section

variable {gen : Generation} {kind : OpKind} {operands results : List Ty} {ty : Ty}

/-- There are no other kinds than those listed. -/
theorem IntegralTypes.mem_integralKinds (h : IntegralTypes gen kind operands results) :
    kind ∈ integralKinds := by
  cases h with
  | binary t hk =>
    simp only [List.mem_cons, List.not_mem_nil, or_false] at hk
    rcases hk with rfl | rfl | rfl | rfl <;> decide
  | _ => decide

/-- The lanewise kinds that integer functions have. -/
def integralBinaries : List OpKind := [.addi, .subi, .minsi, .maxsi]

/-- The operands of binary operations have the type of the result. -/
theorem IntegralTypes.of_binary (hk : kind ∈ integralBinaries)
    (h : IntegralTypes gen kind operands results) :
    ∃ t, operands = [t, t] ∧ results = [t] := by
  cases h with
  | binary t => exact ⟨t, rfl, rfl⟩
  | _ => exact absurd hk (by decide)

/-- An extension keeps the number of lanes. -/
theorem IntegralTypes.of_extsi (h : IntegralTypes gen .extsi operands results) :
    ∃ s t, operands = [s] ∧ results = [t] ∧ s.elementType.isFloat = false ∧ s.SameLanes t := by
  cases h with
  | binary t hk => exact absurd hk (by decide)
  | extsi s t hs hlanes => exact ⟨s, t, rfl, rfl, hs, hlanes⟩

/-- A comparison gives a truth value for each lane. -/
theorem IntegralTypes.of_cmpi (h : IntegralTypes gen .cmpi operands results) :
    ∃ s t, operands = [s, t] ∧ results = [Instr.truthType s] ∧ s.elementType.isFloat = false := by
  cases h with
  | binary t hk => exact absurd hk (by decide)
  | cmpi s t hs => exact ⟨s, t, rfl, rfl, hs⟩

/-- A select has a truth value for each lane. -/
theorem IntegralTypes.of_select (h : IntegralTypes gen .select operands results) :
    ∃ n t, operands = [.vector n (.i 1), t, t] ∧ results = [t] ∧
      ∀ shape, t.vectorShape = some shape → shape.lanes = n := by
  cases h with
  | binary t hk => exact absurd hk (by decide)
  | select n t hn => exact ⟨n, t, rfl, rfl, hn⟩

/-- A reduction gives a lane. -/
theorem IntegralTypes.of_reduction (h : IntegralTypes gen .reduction operands results) :
    ∃ t, operands = [t] ∧ results = [t.elementType] ∧ t.elementType.isFloat = false := by
  cases h with
  | binary t hk => exact absurd hk (by decide)
  | reduction t ht _ => exact ⟨t, rfl, rfl, ht⟩

/-- So does an extract. -/
theorem IntegralTypes.of_extract (h : IntegralTypes gen .extract operands results) :
    ∃ t, operands = [t] ∧ results = [t.elementType] ∧ t.elementType.IsScalar := by
  cases h with
  | binary t hk => exact absurd hk (by decide)
  | extract t ht => exact ⟨t, rfl, rfl, ht⟩

/-- A splat may have any type. -/
theorem IntegralTypes.of_broadcast (h : IntegralTypes gen .broadcast operands results) :
    ∃ s t, operands = [s] ∧ results = [t] := by
  cases h with
  | binary t hk => exact absurd hk (by decide)
  | broadcast s t => exact ⟨s, t, rfl, rfl⟩

/-- A read has lanes of whole bytes and fits into one load. -/
theorem IntegralTypes.of_transferRead (h : IntegralTypes gen .transferRead operands results) :
    ∃ source indices t shape, operands = source :: indices ∧ results = [t] ∧
      t.vectorShape = some shape ∧ 0 < shape.lanes ∧ 0 < shape.elemBits ∧ 8 ∣ shape.elemBits ∧
      shape.bits ≤ gen.maxLoadBits := by
  cases h with
  | binary t hk => exact absurd hk (by decide)
  | transferRead source indices t shape hs hlanes hpos hbytes hmax =>
    exact ⟨source, indices, t, shape, rfl, rfl, hs, hlanes, hpos, hbytes, hmax⟩

/-- The types say how an operation has to be shaped. -/
theorem IntegralTypes.shaped {kind : OpKind} {operands results : List Ty}
    (h : IntegralTypes gen kind operands results) :
    (kind ≠ .ret → ∃ t, results = [t]) ∧ kind.arity ≤ operands.length ∧
      (∀ ty, kind.resultTyOf operands = some ty → results = [ty]) ∧
      (kind = .transferRead → ∃ t shape, results = [t] ∧ t.vectorShape = some shape ∧
        0 < shape.lanes) := by
  -- Most constructors fix the types completely, so the four parts are read off them.
  cases h with
  | ret => exact ⟨fun h => absurd rfl h, Nat.zero_le _, nofun, nofun⟩
  | constant t => exact ⟨fun _ => ⟨t, rfl⟩, Nat.le_refl _, nofun, nofun⟩
  | binary t hk =>
    simp only [List.mem_cons, List.not_mem_nil, or_false] at hk
    rcases hk with rfl | rfl | rfl | rfl <;>
    exact ⟨fun _ => ⟨t, rfl⟩, Nat.le_refl _, fun ty h => by cases h; rfl, nofun⟩
  | cmpi t u => exact ⟨fun _ => ⟨_, rfl⟩, Nat.le_refl _, fun ty h => by cases h; rfl, nofun⟩
  | select n t => exact ⟨fun _ => ⟨t, rfl⟩, Nat.le_refl _, fun ty h => by cases h; rfl, nofun⟩
  | extsi s t => exact ⟨fun _ => ⟨t, rfl⟩, Nat.le_refl _, nofun, nofun⟩
  | reduction t => exact ⟨fun _ => ⟨_, rfl⟩, Nat.le_refl _, fun ty h => by cases h; rfl, nofun⟩
  | extract t => exact ⟨fun _ => ⟨_, rfl⟩, Nat.le_refl _, fun ty h => by cases h; rfl, nofun⟩
  | broadcast s t => exact ⟨fun _ => ⟨t, rfl⟩, Nat.le_refl _, nofun, nofun⟩
  | transferRead source indices t shape hs hlanes =>
    exact ⟨fun _ => ⟨t, rfl⟩, Nat.succ_le_succ (Nat.zero_le _), nofun,
      fun _ => ⟨t, shape, rfl, hs, hlanes⟩⟩

end

namespace Graph

variable {gen : Generation} {g : Graph} {gone : List OpId} {func op d : OpId} {entry : BlockId}
  {v w old lhs rhs : ValueId} {args ans : List RtValue} {ρ : Env} {k : OpKind}

/-- An operation of an integer function is well shaped. -/
theorem Integral.wellShaped (h : g.Integral gen op) : g.WellShaped op := by
  obtain ⟨hsingle, harity, htyped, -⟩ := h.types.shaped
  refine ⟨fun _ => h.bare, fun _ hret => ?_, ?_, htyped⟩
  · obtain ⟨t, ht⟩ := hsingle hret
    obtain ⟨v, hv, -⟩ := List.map_eq_singleton_iff.mp ht
    exact ⟨v, hv⟩
  · rwa [typesOf, List.length_map] at harity

/-- The reads of an integer function have lanes. -/
theorem Integral.hasLanes (h : g.Integral gen op) : g.HasLanes op := by
  intro hk shape hs hzero
  obtain ⟨-, -, -, hread⟩ := h.types.shaped
  obtain ⟨t, shape', ht, hs', hpos⟩ := hread hk
  rw [resultShape?, ht] at hs
  obtain rfl := Option.some.inj (hs'.symm.trans hs)
  omega

/-- Twice as many cells as a read goes over, from the one on where it starts, have numbers of 128
bits. A constant index may be up to a vector above the first of two loads, and the second ends a
vector further. -/
def RoomToRead (g : Graph) (ρ : Env) (op : OpId) : Prop :=
  ∀ source rest old dims elem, g.operands op = source :: rest → g.results op = [old] →
    (g.value source).ty = .memory dims elem →
      Frame.flatIndex dims ((rest.map (g.known ρ)).map Known.number) +
        2 * Frame.laneCount (g.value old).ty ≤ twoPow 127

/-- The run gets to the operation, which is no rule's making, and what stands around it is
made of what integer functions are made of or by rules. -/
structure IntegralStage (gen : Generation) (g : Graph) (gone : List OpId) (func : OpId)
    (entry : BlockId) (args ans : List RtValue) (ρ : Env) (op : OpId) (old : ValueId) : Prop
    extends Stage g gone func entry args ans ρ op where
  hold : g.results op = [old]
  generic : (g.kind op).isLowered = false
  kinds : ∀ d, g.Inside func d → ((g.kind d).isLowered = true ∧ g.kind d ≠ .fma) ∨
    g.Integral gen d
  fits : ∀ d, g.Reached entry d → (g.kind d).isLowered = false →
    ∀ v ∈ g.operands d, (g.known ρ v).Fits
  room : ∀ d, g.Reached entry d → g.kind d = .transferRead → g.RoomToRead ρ d

/-- The types of two operands name them both. -/
theorem operands_pair {s t : Ty} (h : g.typesOf (g.operands op) = [s, t]) :
    ∃ lhs rhs, g.operands op = [lhs, rhs] ∧ (g.value lhs).ty = s ∧ (g.value rhs).ty = t := by
  obtain ⟨lhs, rest, hl, hs, hrest⟩ := List.map_eq_cons_iff.mp h
  obtain ⟨rhs, rfl, ht⟩ := List.map_eq_singleton_iff.mp hrest
  exact ⟨lhs, rhs, hl, hs, ht⟩

/-- One type is that of one operand. -/
theorem operands_single {t : Ty} (h : g.typesOf (g.operands op) = [t]) :
    ∃ v, g.operands op = [v] ∧ (g.value v).ty = t :=
  List.map_eq_singleton_iff.mp h

/-- Three are those of three. -/
theorem operands_triple {r s t : Ty} (h : g.typesOf (g.operands op) = [r, s, t]) :
    ∃ a b c, g.operands op = [a, b, c] ∧ (g.value a).ty = r ∧ (g.value b).ty = s ∧
      (g.value c).ty = t := by
  obtain ⟨a, rest, hl, hr, hrest⟩ := List.map_eq_cons_iff.mp h
  obtain ⟨b, rest, rfl, hs, hrest⟩ := List.map_eq_cons_iff.mp hrest
  obtain ⟨c, rfl, ht⟩ := List.map_eq_singleton_iff.mp hrest
  exact ⟨a, b, c, hl, hr, hs, ht⟩

namespace IntegralStage

variable (h : g.IntegralStage gen gone func entry args ans ρ op old)
include h

/-- What no rule has made is what integer functions are made of. -/
theorem integral : g.Integral gen op := by
  refine (h.kinds op h.inside).resolve_left fun hl => ?_
  rw [h.generic] at hl
  exact Bool.false_ne_true hl.1

/-- It gives one value. -/
theorem resultTypes_eq : g.resultTypes op = [(g.value old).ty] := by
  rw [resultTypes, h.hold]
  rfl

theorem types : IntegralTypes gen (g.kind op) (g.typesOf (g.operands op)) [(g.value old).ty] :=
  h.resultTypes_eq ▸ h.integral.types

/-- Kinds that are neither made by rules nor found in integer functions are not there. -/
theorem kind_ne (hk : k.isLowered = false) (hmem : k ∉ integralKinds) (hd : g.Inside func d) :
    g.kind d ≠ k := by
  rintro rfl
  rcases h.kinds d hd with hl | hi
  · rw [hk] at hl
    exact Bool.false_ne_true hl.1
  · exact hmem hi.types.mem_integralKinds

/-- So nothing is defined by such an operation. -/
theorem definedBy?_eq_none (hk : k.isLowered = false) (hmem : k ∉ integralKinds)
    (hv : v ∈ g.operands op) : g.definedBy? v k = .ok none := by
  obtain ⟨x, hx, -, hfound⟩ := h.scene.definingOp? h.inside
    (h.scene.atHand_of_mem_operands h.inside hv)
  rw [definedBy?, hx]
  cases hfilter : x.filter fun d => g.kind d == k with
  | none => exact congrArg Except.ok hfilter
  | some d =>
    obtain ⟨hd, hkind⟩ := Option.filter_eq_some_iff.mp hfilter
    exact absurd (by simpa using hkind) (h.kind_ne hk hmem (hfound d hd).1)

theorem atHand (hv : v ∈ g.operands op) : g.AtHand func op v :=
  h.scene.atHand_of_mem_operands h.inside hv

/-- And what it reads fits. -/
theorem fits_operand (hv : v ∈ g.operands op) : (g.known ρ v).Fits :=
  h.fits op h.reached h.generic v hv

/-- The result is computed from the operands. -/
theorem eval_eq : (Frame.ofKnown (g.kind op) (g.attrs op) (g.knownOperands ρ op)
    (g.value old).ty).eval = .ok (g.known ρ old).value :=
  (h.toStage.eval h.hold).1

/-- The stage can be entered again where an operand is defined. -/
theorem enter (hd : g.Reaches func op v d k) (hv : g.AtHand func op v)
    (hk : k.isLowered = false) (hf : k ≠ .func) (hr : k ≠ .ret) :
    g.IntegralStage gen gone func entry args ans ρ d v := by
  refine ⟨h.toStage.through hv.visible hd.defines, ?_, by rw [hd.kind, hk], h.kinds, h.fits,
    h.room⟩
  exact h.scene.results_eq hd.inside (by rwa [hd.kind]) (by rwa [hd.kind]) hd.defines

/-- There are no products to make a multiply-add of. -/
theorem macOperands?_eq_none (hl : lhs ∈ g.operands op) (hr : rhs ∈ g.operands op) :
    g.macOperands? lhs rhs = .ok none := by
  unfold macOperands?
  rw [h.definedBy?_eq_none (k := .muli) rfl (by decide) hl,
    h.definedBy?_eq_none (k := .muli) rfl (by decide) hr]
  rfl

/-- A binary operation of an integer function: two operands of the type of the result. -/
theorem binary (hk : g.kind op ∈ integralBinaries) : ∃ lhs rhs, g.operands op = [lhs, rhs] ∧
    (g.value lhs).ty = (g.value old).ty ∧ (g.value rhs).ty = (g.value old).ty := by
  obtain ⟨t, hops, hres⟩ := h.types.of_binary hk
  obtain ⟨lhs, rhs, hlr, hl, hr⟩ := operands_pair hops
  obtain rfl := (List.cons.inj hres).1
  exact ⟨lhs, rhs, hlr, hl, hr⟩

/-- What a lanewise operation computes. -/
theorem eval_lanewise {f : Lane → Lane → Lane} (hops : g.operands op = [lhs, rhs])
    (hf : Frame.lanewiseFunction (g.value lhs).ty (g.kind op) = some f) :
    (Frame.laneCount (g.value old).ty ≤ (g.known ρ lhs).lanes.length ∧
      Frame.laneCount (g.value old).ty ≤ (g.known ρ rhs).lanes.length ∧
      (Frame.laneCount (g.value old).ty ≠ 0 →
        Frame.lanewiseAble (g.known ρ lhs).ty (g.kind op) = true)) ∧
      Frame.shapeAs (g.value old).ty ((List.zipWith f (g.known ρ lhs).lanes
        (g.known ρ rhs).lanes).take (Frame.laneCount (g.value old).ty)) =
          some (g.known ρ old).value := by
  have heval := h.eval_eq
  rw [knownOperands, hops] at heval
  exact (Frame.eval_lanewise hf).mp heval

/-- An extension of an integer function brings integers into the range of its result. -/
theorem extsi (hk : g.kind op = .extsi) (hv : (g.operands op)[0]? = some v) :
    (g.known ρ v).Fits ∧ (g.value v).ty.elementType.isFloat = false ∧
      (g.value v).ty.SameLanes (g.value old).ty ∧
      Frame.shapeAs (g.value old).ty (g.known ρ v).lanes = some (g.known ρ old).value := by
  obtain ⟨s, t, hops, hres, hs, hlanes⟩ := (hk ▸ h.types).of_extsi
  obtain ⟨w, hw, rfl⟩ := operands_single hops
  obtain rfl := (List.cons.inj hres).1
  rw [hw] at hv
  obtain rfl := Option.some.inj hv
  have heval := h.eval_eq
  rw [hk, knownOperands, hw] at heval
  exact ⟨h.fits_operand (by simp [hw]), hs, hlanes, (Frame.eval_convert (Or.inl rfl)).mp heval⟩

end IntegralStage

end Graph

end SimdLowering
