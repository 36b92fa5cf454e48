/-
What is left of a function after its sum has been fused, and after its product has gone.

Fusing the sum puts three steps in its place. The product is still there, but nobody reads it
any more, and when its turn comes it is lowered to two steps that nobody reads either. So the
function comes to compute the fused lanes with the first splice, and the second one does not
show. What an environment binds to the product is then of no consequence: it may be bound to
whatever the two steps compute.
-/
import SimdLowering.Proofs.Fusion.Decisions
import SimdLowering.Proofs.Integral.Refinement
import SimdLowering.Proofs.Rewrite.Schedule

set_option autoImplicit false

namespace SimdLowering

open SimdLowering.Rules

namespace Graph

variable {g₀ g g' : Graph} {gone : List OpId} {func mul add ret op o d : OpId}
  {entry blk : BlockId} {a b c v product sum old up total out result : ValueId} {ty : Ty}
  {n width shift i : Nat} {sign : Signedness} {k : OpKind} {r : Recipe} {reads : List ValueId}
  {args : List RtValue} {x y z : Fin n → Int} {ρ : Env} {l : List ValueId} {s : RtValue}

/-! ## Arguments -/

/-- The function accepts the arguments, and three of its parameters are given integers. -/
structure Given (g : Graph) (func : OpId) (entry : BlockId) (a b c : ValueId)
    (args : List RtValue) (x y z : Fin n → Int) : Prop where
  accepts : g.Accepts func args
  lhs : (a, .ofInts x) ∈ (g.argsOf entry).zip args
  rhs : (b, .ofInts y) ∈ (g.argsOf entry).zip args
  summand : (c, .ofInts z) ∈ (g.argsOf entry).zip args

/-- A parameter is bound to its argument. -/
theorem get?_of_mem_zip (h : l.map ρ.get? = args.map some) (hmem : (v, s) ∈ l.zip args) :
    ρ.get? v = some s := by
  obtain ⟨i, hi, he⟩ := List.mem_iff_getElem.mp hmem
  rw [List.getElem_zip, Prod.mk.injEq] at he
  rw [List.length_zip] at hi
  have hbound := congrArg (·[i]?) h
  simp only [List.getElem?_map, List.getElem?_eq_getElem (show i < l.length by omega),
    List.getElem?_eq_getElem (show i < args.length by omega), Option.map_some,
    Option.some.injEq, he.1, he.2] at hbound
  exact hbound

/-- What a parameter is given is in the range of its lanes. -/
theorem Accepts.inLane (h : g.Accepts func args) (hentry : g.IsEntry func entry)
    (hmem : (v, .ofInts x) ∈ (g.argsOf entry).zip args)
    (hty : (g.value v).ty = .vector n (.int width sign)) (hlow : 1 < width)
    (hsmall : width < 128) : ∀ i, InLane sign width (x i) := by
  have hfits := List.forall₂_zip (h entry hentry) hmem
  rw [hty] at hfits
  exact hfits.inLane hlow hsmall

/-- Arguments that fit are in range. -/
theorem Accepts.inRange (h : g.Accepts func args) (hentry : g.IsEntry func entry)
    (hmem : (v, .ofInts x) ∈ (g.argsOf entry).zip args)
    (hty : (g.value v).ty = .vector n (.int width sign)) (hshape : FusedShape n width)
    (hsign : sign ≠ .unsigned) : ∀ i, InRange width (x i) := by
  obtain ⟨hlow, hhigh, -⟩ := hshape.bounds sign
  exact fun i => (inLane_iff hsign).mp (h.inLane hentry hmem hty hlow (by omega) i)

/-! ## Operations that a run gets to -/

/-- The run gets to an operation of the kind that reads the given values and gives the result. -/
def Performs (g : Graph) (entry : BlockId) (k : OpKind) (reads : List ValueId)
    (result : ValueId) : Prop :=
  ∃ d, g.Reached entry d ∧ g.kind d = k ∧ g.operands d = reads ∧ g.results d = [result]

/-- No recipe makes a return. -/
theorem kind_ne_ret_of_lawful {d : Step} (hr : r.Lawful g func op) (hd : r.all[i]? = some d) :
    d.kind ≠ .ret := fun hk => by
  have hlowered := (hr.steps i d hd).lowered
  rw [hk] at hlowered
  cases hlowered

namespace Spliced

variable (hs : Spliced g g' gone op blk old r)
include hs

/-- The entry of a function stays its entry. -/
theorem isEntry (hroot : g.HasOp func) (h : g.IsEntry func entry) : g'.IsEntry func entry := by
  obtain ⟨hkind, reg, hreg, hblock⟩ := h
  refine ⟨by rw [hs.kind_of_hasOp hroot, hkind], reg, ?_, ?_⟩
  · rw [hs.regionsOf_of_hasOp hroot]
    exact hreg
  · rw [hs.blocksIn]
    exact hblock

variable (hr : r.Lawful g func op)
include hr

/-- No return comes before an operation before which none came. -/
theorem before_of_ne (ho : g.HasOp o) (h : ∀ p, Precedes (g.opsIn entry) p o → g.kind p ≠ .ret) :
    ∀ p, Precedes (g'.opsIn entry) p o → g'.kind p ≠ .ret := by
  intro p hp
  rcases hs.mem_opsIn.mp hp.mem_left with ⟨hmem, -⟩ | ⟨hnew, -⟩
  · have hop := hasOp_of_blockOf? ((hs.before.places p entry).mp hmem)
    rw [hs.kind_of_hasOp hop]
    exact h p (hs.precedes_of hop ho hp)
  · obtain ⟨i, d, hd, rfl⟩ := mem_nextOps_all.mp hnew
    rw [hs.kind_made hd]
    exact kind_ne_ret_of_lawful hr hd

/-- The run still gets to whatever it got to, and the operation that goes apart it is there. -/
theorem reached_of_ne (h : g.Reached entry o) (ho : g.HasOp o) (hne : o ≠ op) :
    g'.Reached entry o := by
  refine ⟨(hs.mem_opsIn_of_ne ho hne).mpr h.mem, ?_, hs.before_of_ne hr ho h.before⟩
  rw [hs.kind_of_hasOp ho]
  exact h.proceeds

/-- The run still ends where it ended, unless that is what goes. -/
theorem exits_of_ne (h : g.Exits entry o) (ho : g.HasOp o) (hne : o ≠ op) : g'.Exits entry o :=
  ⟨(hs.mem_opsIn_of_ne ho hne).mpr h.mem, (hs.kind_of_hasOp ho).trans h.kind,
    hs.before_of_ne hr ho h.before⟩

/-- If the run got to the operation that goes, it gets to the new ones. -/
theorem reached_made {d : Step} (h : g.Reached blk op) (hd : r.all[i]? = some d) :
    g'.Reached blk ⟨g.ops.size + i⟩ := by
  have hnews : ⟨g.ops.size + i⟩ ∈ g.nextOps r.all.length := mem_nextOps_all.mpr ⟨i, d, hd, rfl⟩
  refine ⟨(hs.mem_opsIn_made hnews).mpr rfl, ?_, fun p hp => ?_⟩
  · rw [hs.kind_made hd]
    exact kind_ne_ret_of_lawful hr hd
  · rcases hs.mem_opsIn.mp hp.mem_left with ⟨hmem, -⟩ | ⟨hnew, -⟩
    · have hop := hasOp_of_blockOf? ((hs.before.places p blk).mp hmem)
      rw [hs.kind_of_hasOp hop]
      exact h.before p (hs.precedes_of_made hop hnews hp)
    · obtain ⟨j, d, hd, rfl⟩ := mem_nextOps_all.mp hnew
      rw [hs.kind_made hd]
      exact kind_ne_ret_of_lawful hr hd

/-- What the run performed without reading what goes it performs still. -/
theorem performs_of_ne (h : g.Performs entry k reads result) (hk : g.kind op ≠ k)
    (hread : old ∉ reads) : g'.Performs entry k reads result := by
  obtain ⟨d, hreached, rfl, rfl, hres⟩ := h
  have hop := hasOp_of_blockOf? ((hs.before.places d entry).mp hreached.mem)
  have hne : d ≠ op := fun e => hk (by rw [e])
  refine ⟨d, hs.reached_of_ne hr hreached hop hne, hs.kind_of_hasOp hop, ?_, ?_⟩
  · rw [hs.operands_of_hasOp hop]
    refine (List.map_congr_left fun v hv => ?_).trans (List.map_id _)
    have hv : v ≠ old := fun e => hread (e ▸ hv)
    rw [readAs, renamed, if_neg hv, ite_self, id]
  · rw [hs.results_of_hasOp hop]
    exact hres

/-- The run performs each step of the recipe if it got to the operation that goes. -/
theorem performs_made {d : Step} (h : g.Reached blk op) (hd : r.all[i]? = some d)
    (hread : Source.value old ∉ d.operands) :
    g'.Performs blk d.kind (d.operands.map (Source.valueFrom g.values.size))
      ⟨g.values.size + i⟩ := by
  refine ⟨_, hs.reached_made hr h hd, hs.kind_made hd, ?_, hs.results_made hd⟩
  rw [hs.operands_made hd]
  refine (List.map_congr_left fun v hv => ?_).trans (List.map_id _)
  obtain ⟨source, hsource, rfl⟩ := List.mem_map.mp hv
  cases source with
  | value w =>
    refine if_neg ?_
    rintro rfl
    exact hread hsource
  | step j => exact hs.renamed_step j

end Spliced

/-! ## The fused sum -/

/-- The operation is a return, or of a kind that rules create and leave alone. -/
structure Inert (g : Graph) (d : OpId) : Prop where
  made : (g.kind d).isLowered = true ∨ g.kind d = .ret
  noLoad : g.kind d ≠ .upd
  noMac : g.kind d ≠ .fma
  noCast : g.kind d ≠ .unrealizedCast

/-- What is inert may stay, whatever the generation. -/
theorem Inert.legality (h : g.Inert d) (gen : Generation) (c : AccessSizes) :
    gen.conversionTarget.legality g d c = .ok (.legal, c) :=
  Generation.legality_of_made h.made h.noLoad h.noMac h.noCast

/-- Nobody reads the product. -/
structure Lone (g : Graph) (mul : OpId) (a b product : ValueId) (ty : Ty) : Prop where
  kind : g.kind mul = .muli
  operands : g.operands mul = [a, b]
  results : g.results mul = [product]
  typed : (g.value product).ty = ty
  factors : ∀ v ∈ [a, b], (g.value? v).map Value.ty = some ty
  unread : g.uses product = []

/-- The sum of the function `g₀` has been fused: an operation moves the summand up, one adds
the product to it, and one brings the sum down, and all that these compute fits. The product
may still be there, but nobody reads it. -/
structure Fused (g₀ g : Graph) (func mul : OpId) (entry : BlockId) (a b c product : ValueId)
    (n width shift : Nat) (sign : Signedness) (up total out : ValueId) : Prop where
  isEntry : g.IsEntry func entry
  argsOf : g.argsOf entry = g₀.argsOf entry
  shiftUp : g.Performs entry .ups [c] up
  multiplyAdd : g.Performs entry .fmaElem [a, b, up] total
  shiftDown : g.Performs entry .srs [total] out
  inert : ∀ d, g.Inside func d → d ≠ mul → g.Inert d
  lone : g.Inside func mul → g.Lone mul a b product (.vector n (.int width sign))
  explained : ∀ (args : List RtValue) (x y z : Fin n → Int), g₀.Given func entry a b c args x y z →
    ∃ ρ, g.Explains entry args [.ofInts fun i => fusedLane width shift (x i) (y i) (z i)] ρ ∧
      ρ.get? up = some (.ofInts fun i => z i * twoPow shift) ∧
      ρ.get? total = some (.ofInts fun i => x i * y i + z i * twoPow shift)

/-! ## Fusing the sum -/

theorem all_fusedSum {s : Int} : (fusedSum ty a b c s).all =
    [Instr.ups (accumulatorOf ty) (.value c) s,
      Instr.fmaElem (.value a) (.value b) ⟨.step 0, accumulatorOf ty⟩ false,
      Instr.srs ty (.step 1) s] := rfl

/-- The steps name the three parameters only. -/
theorem mem_of_mem_fusedSum {s : Int} {d : Step} (hd : d ∈ (fusedSum ty a b c s).all)
    (hv : Source.value v ∈ d.operands) : v ∈ [a, b, c] := by
  rw [all_fusedSum] at hd
  simp only [List.mem_cons, List.not_mem_nil, or_false] at hd
  rcases hd with rfl | rfl | rfl
  · have hv : Source.value v ∈ [Source.value c] := hv
    simpa using Or.inr (Or.inr hv)
  · have hv : Source.value v ∈ [Source.value a, .value b, .step 0] := hv
    simp at hv
    grind
  · have hv : Source.value v ∈ [Source.step 1] := hv
    simp at hv

theorem all_loneProduct {s : Int} : (loneProduct ty a b s).all =
    [Instr.mulElem (accumulatorOf ty) (.value a) (.value b), Instr.srs ty (.step 0) s] := rfl

/-- The fused sum reads two factors and a summand. -/
theorem fine_fusedSum {s : Int} (h : ∀ v ∈ [a, b, c], g.HasValue v) :
    (fusedSum ty a b c s).Fine g.HasValue := fine_mixedSum h

/-- The product on its own reads two factors. -/
theorem fine_loneProduct {s : Int} (h : ∀ v ∈ [a, b], g.HasValue v) :
    (loneProduct ty a b s).Fine g.HasValue := by
  intro i d hd
  rw [all_loneProduct] at hd
  match i, hd with
  | 0, hd =>
    obtain rfl := Option.some.inj hd
    refine ⟨⟨_, rfl⟩, rfl, List.forall_mem_cons.mpr ⟨h a (by simp), ?_⟩⟩
    exact List.forall_mem_singleton.mpr (h b (by simp))
  | 1, hd =>
    obtain rfl := Option.some.inj hd
    exact ⟨⟨_, rfl⟩, rfl, List.forall_mem_singleton.mpr Nat.one_pos⟩

namespace MultipliesAndAdds

variable (h : g.MultipliesAndAdds func entry mul add ret a b c product sum
  (.vector n (.int width sign)))
include h

/-- The run gets to the sum. -/
theorem reached_add (hc : Consistent g gone) : g.Reached entry add := by
  refine ⟨by simp [h.body], by rw [h.addKind]; decide, fun p hp => ?_⟩
  have hnodup := hc.placedOnce entry
  have hbody : g.opsIn entry = [mul] ++ add :: [ret] := h.body
  rw [hbody] at hp hnodup
  rw [List.mem_singleton.mp ((precedes_append_cons hnodup).mp hp), h.mulKind]
  decide

/-- A parameter is neither of the results. -/
theorem param_ne (hc : Consistent g gone) (hv : v ∈ g.argsOf entry) : v ≠ product ∧ v ≠ sum := by
  constructor
  · rintro rfl
    exact hc.not_mem_results_of_mem_argsOf hv (by simp [h.mulResults] : v ∈ g.results mul)
  · rintro rfl
    exact hc.not_mem_results_of_mem_argsOf hv (by simp [h.addResults] : v ∈ g.results add)

/-- And these are two. -/
theorem product_ne_sum (hc : Consistent g gone) : product ≠ sum := by
  rintro rfl
  have hmul : (g.results mul)[0]? = some product := by rw [h.mulResults]; rfl
  have hadd : (g.results add)[0]? = some product := by rw [h.addResults]; rfl
  have hkind := h.addKind
  rw [← (hc.result_unique hmul hadd).1, h.mulKind] at hkind
  cases hkind

/-- All three parameters are vectors of one type. -/
theorem typed_param (hc : Consistent g gone) (hv : v ∈ [a, b, c]) :
    (g.value? v).map Value.ty = some (.vector n (.int width sign)) := by
  obtain ⟨harg, hty⟩ := h.params v hv
  obtain ⟨i, hi⟩ := List.mem_iff_getElem?.mp harg
  rw [value?_eq_some (hasValue_of_originOf? ((hc.takes entry i v).mp hi)), ← hty]
  rfl

/-- Whatever the sum is bound to, there is an environment that explains the rest. -/
theorem explainsBeside (hscene : Scene g gone func) (hlow : width ≠ 0) (hsmall : width < 127)
    (hgiven : g.Given func entry a b c args x y z) (s : RtValue) :
    ∃ ρ, g.ExplainsBeside add entry args [s] ρ ∧ ρ.get? sum = some s := by
  have hc := hscene.consistent
  let base := Env.empty.bindAll ((g.argsOf entry).zip args)
  let p := RtValue.vector (((List.zipWith Lane.mul (RtValue.ofInts x).lanes
    (RtValue.ofInts y).lanes).take n).map (Lane.normalize (.ofTy (.vector n (.int width sign)))))
  have hbase : (g.argsOf entry).map base.get? = args.map some :=
    Env.map_get?_bindAll (nodup_argsOf hc entry) (hgiven.accepts entry h.isEntry).length_eq
  have hne := h.product_ne_sum hc
  have hparams : (g.argsOf entry).map ((base.bind product p).bind sum s).get? =
      args.map some := by
    rw [← hbase]
    refine List.map_congr_left fun v hv => ?_
    obtain ⟨hproduct, hsum⟩ := h.param_ne hc hv
    rw [Env.get?_bind, if_neg hsum, Env.get?_bind, if_neg hproduct]
  refine ⟨(base.bind product p).bind sum s, ⟨hparams, fun o ho hadd => ?_, fun o ho => ?_,
    fun hall => ?_⟩, if_pos rfl⟩
  · -- The product is all that is computed besides the sum.
    have hmem := ho.mem
    rw [h.body] at hmem
    obtain rfl : o = mul := by
      rcases List.mem_cons.mp hmem with rfl | hmem
      · rfl
      · rcases List.mem_pair.mp hmem with rfl | rfl
        · exact absurd rfl hadd
        · exact absurd h.retKind ho.proceeds
    refine ⟨product, p, by rw [h.mulResults]; rfl, ?_, ?_⟩
    · have hfactors : List.Forall₂
          (fun v k => Source.Holds g ((base.bind product p).bind sum s) [] (.value v) k)
          (g.operands o) [⟨.vector n (.int width sign), .ofInts x⟩,
            ⟨.vector n (.int width sign), .ofInts y⟩] := by
        rw [h.mulOperands]
        exact .cons ⟨h.typed_param hc (by simp), get?_of_mem_zip hparams hgiven.lhs⟩
          (.cons ⟨h.typed_param hc (by simp), get?_of_mem_zip hparams hgiven.rhs⟩ .nil)
      refine evalOp_of_known hfactors h.mulResults (h.ty_product hscene) ?_
      rw [h.mulKind]
      exact (Frame.eval_product (Or.inl rfl)).mpr ⟨Nat.le_of_eq RtValue.length_ofInts.symm,
        Nat.le_of_eq RtValue.length_ofInts.symm, Frame.shapeAs_of_isVector rfl
          (Or.inr (ElemKind.wraps_vector hlow (by omega) sign n))⟩
    · rw [Env.get?_bind, if_neg hne, Env.get?_bind, if_pos rfl]
  · have hmem := ho.mem
    rw [h.body] at hmem
    obtain rfl : o = ret := by
      rcases List.mem_cons.mp hmem with rfl | hmem
      · exact absurd ho.kind (by rw [h.mulKind]; decide)
      · rcases List.mem_pair.mp hmem with rfl | rfl
        · exact absurd ho.kind (by rw [h.addKind]; decide)
        · rfl
    rw [h.retOperands, List.map_singleton, Env.get?_bind, if_pos rfl]
    rfl
  · exact absurd h.retKind (hall ret (by simp [h.body]))

variable (hscene : Scene g gone func) (hshape : FusedShape n width) (hsign : sign ≠ .unsigned)
  (hshift : shift < width)
include hscene hshape hsign hshift

/-- The recipe that fuses the sum evaluates, on whatever the parameters are given. -/
theorem fusedSum_evaluates (hgiven : g.Given func entry a b c args x y z)
    (hρ : (g.argsOf entry).map ρ.get? = args.map some) :
    (fusedSum (.vector n (.int width sign)) a b c shift).EvaluatesBy g ρ
      [⟨.vector n (.int (2 * width) .signless), .ofInts fun i => z i * twoPow shift⟩,
        ⟨.vector n (.int (2 * width) .signless), .ofInts fun i => x i * y i + z i * twoPow shift⟩]
      ⟨(g.value sum).ty, .ofInts fun i => fusedLane width shift (x i) (y i) (z i)⟩ := by
  have hc := hscene.consistent
  have range : ∀ {v} {u : Fin n → Int}, v ∈ [a, b, c] →
      (v, .ofInts u) ∈ (g.argsOf entry).zip args → ∀ i, InRange width (u i) :=
    fun hv hmem => hgiven.accepts.inRange h.isEntry hmem (h.params _ hv).2 hshape hsign
  rw [h.ty_sum hscene]
  exact fmaElemPlan_evaluates hshape hsign hshift (range (by simp) hgiven.lhs)
    (range (by simp) hgiven.rhs)
    (fun Γ => ⟨h.typed_param hc (by simp), get?_of_mem_zip hρ hgiven.lhs⟩)
    (fun Γ => ⟨h.typed_param hc (by simp), get?_of_mem_zip hρ hgiven.rhs⟩)
    (range (by simp) hgiven.summand)
    (fun Γ => ⟨h.typed_param hc (by simp), get?_of_mem_zip hρ hgiven.summand⟩)

/-- Once its recipe is in place the sum is fused. -/
theorem fused (hroot : g.HasOp func) (hs : Spliced g g' gone add blk sum
      (fusedSum (.vector n (.int width sign)) a b c shift))
    (hr : (fusedSum (.vector n (.int width sign)) a b c shift).Lawful g func add) :
    ∃ up total out, g.Fused g' func mul entry a b c product n width shift sign up total out := by
  have hc := hscene.consistent
  have hreached := h.reached_add hc
  obtain rfl : blk = entry :=
    Option.some.inj (hs.placed.symm.trans ((hc.places add entry).mp hreached.mem))
  have hparam : ∀ v ∈ [a, b, c], v ≠ product ∧ v ≠ sum :=
    fun v hv => h.param_ne hc (h.params v hv).1
  have hread : ∀ d ∈ (fusedSum (.vector n (.int width sign)) a b c shift).all,
      ∀ {v}, Source.value v ∈ d.operands → v ≠ product ∧ v ≠ sum :=
    fun d hd v hv => hparam v (mem_of_mem_fusedSum hd hv)
  have hmulOp := h.inside_mul.hasOp hc.toNestingAgrees
  have hproduct : g.HasValue product := hc.hasValue_of_mem_results (o := mul)
    (by simp [h.mulResults])
  refine ⟨⟨g.values.size + 0⟩, ⟨g.values.size + 1⟩, ⟨g.values.size + 2⟩,
    hs.isEntry hroot h.isEntry, hs.argsOf _, ?_, ?_, ?_, fun d hd hne => ?_, fun hin => ?_,
    fun args x y z hgiven => ?_⟩
  · exact hs.performs_made hr hreached (i := 0) (by rw [all_fusedSum]; rfl)
      fun hmem => (hread _ (by rw [all_fusedSum]; simp) hmem).2 rfl
  · exact hs.performs_made hr hreached (i := 1) (by rw [all_fusedSum]; rfl)
      fun hmem => (hread _ (by rw [all_fusedSum]; simp) hmem).2 rfl
  · exact hs.performs_made hr hreached (i := 2) (by rw [all_fusedSum]; rfl)
      fun hmem => (hread _ (by rw [all_fusedSum]; simp) hmem).2 rfl
  · rcases (hs.inside_iff h.inside_add).mp hd with ⟨hin, hadd⟩ | hnew
    · -- Of the old operations only the return and the product are left.
      have hop := hin.hasOp hc.toNestingAgrees
      have hmem := h.alone d hin
      simp only [h.body, List.mem_cons, List.not_mem_nil, or_false, hne, hadd, false_or] at hmem
      have hkind : g'.kind d = .ret := by rw [hs.kind_of_hasOp hop, hmem, h.retKind]
      exact ⟨Or.inr hkind, by rw [hkind]; decide, by rw [hkind]; decide, by rw [hkind]; decide⟩
    · obtain ⟨i, e, he, rfl⟩ := mem_nextOps_all.mp hnew
      have hkind := hs.kind_made he
      have hmem := List.mem_of_getElem? he
      rw [all_fusedSum] at hmem
      simp only [List.mem_cons, List.not_mem_nil, or_false] at hmem
      rcases hmem with rfl | rfl | rfl <;> exact
        ⟨Or.inl (by rw [hkind]; rfl), by rw [hkind]; nofun, by rw [hkind]; nofun,
          by rw [hkind]; nofun⟩
  · refine ⟨(hs.kind_of_hasOp hmulOp).trans h.mulKind, ?_,
      (hs.results_of_hasOp hmulOp).trans h.mulResults, ?_, fun v hv => ?_, ?_⟩
    · have hkeep := hs.operands_of_inside hscene h.inside_mul
      rw [hkeep, h.mulOperands, List.map_cons, List.map_singleton, renamed, renamed,
        if_neg (hparam a (by simp)).2, if_neg (hparam b (by simp)).2]
    · rw [hs.value_of_hasValue hproduct, h.ty_product hscene]
    · have hv : v ∈ [a, b, c] := by
        rw [List.mem_pair] at hv
        simpa using Or.imp_right Or.inl hv
      obtain ⟨hmem, hty⟩ := h.params v hv
      obtain ⟨i, hi⟩ := List.mem_iff_getElem?.mp hmem
      rw [hs.value?_of_hasValue (hasValue_of_originOf? ((hc.takes _ i v).mp hi))]
      exact h.typed_param hc hv
    · refine List.eq_nil_iff_forall_not_mem.mpr fun u hu => ?_
      rcases (hs.mem_uses_of_hasValue hproduct (h.product_ne_sum hc)).mp hu with ⟨hu, hne⟩ |
        ⟨i, e, he, -, hslot⟩
      · exact hne (h.onlyRead u hu)
      · exact (hread e (List.mem_of_getElem? he) (List.mem_of_getElem? hslot)).1 rfl
  · obtain ⟨hlow, hhigh, -⟩ := hshape.bounds sign
    obtain ⟨ρ, hρ, hsum⟩ := h.explainsBeside hscene (by omega) (by omega) hgiven
      (.ofInts fun i => fusedLane width shift (x i) (y i) (z i))
    have heval := h.fusedSum_evaluates hscene hshape hsign hshift hgiven hρ.params
    refine ⟨_, hs.explains_extendEnv hscene h.isEntry (by rw [h.addKind]; decide) hρ
      (hs.value_standIn hr) fun _ => ⟨_, hsum, heval⟩, ?_, ?_⟩
    · rw [extendEnv_new (Nat.succ_pos 1)]
      rfl
    · rw [extendEnv_new (Nat.lt_succ_self 1)]
      rfl

end MultipliesAndAdds

/-! ## Lowering the product -/

/-- Nobody that is left of the function reads a product that nobody reads. -/
theorem Lone.not_mem_operands (h : g.Lone mul a b product ty) (hscene : Scene g gone func)
    (hd : g.Inside func d) : product ∉ g.operands d := by
  intro hmem
  obtain ⟨u, hu, -⟩ := hscene.consistent.mem_uses_of_mem_operands
    (hscene.not_mem_gone hd hmem) hmem
  rw [h.unread] at hu
  cases hu

/-- Operations of different kinds do not give the same value. -/
theorem Performs.result_ne (h : g.Performs entry k reads result) (hc : Consistent g gone)
    (hres : g.results mul = [product]) (hk : g.kind mul ≠ k) :
    g.HasValue result ∧ result ≠ product := by
  obtain ⟨d, -, rfl, -, hd⟩ := h
  refine ⟨hc.hasValue_of_mem_results (o := d) (by simp [hd]), ?_⟩
  rintro rfl
  have hd : (g.results d)[0]? = some result := by rw [hd]; rfl
  have hmul : (g.results mul)[0]? = some result := by rw [hres]; rfl
  exact hk (by rw [(hc.result_unique hmul hd).1])

section

variable {func : OpId} (h : g₀.MultipliesAndAdds func entry mul add ret a b c product sum
    (.vector n (.int width sign)))
  (hF : Fused g₀ g func mul entry a b c product n width shift sign up total out)
  (hin : g.Inside func mul) (hshape : FusedShape n width) (hsign : sign ≠ .unsigned)
  (hshift : shift < width)
include h hF hin hshape hsign hshift

/-- The recipe for the product evaluates, as long as the parameters are given something. -/
theorem Fused.loneProduct_evaluates (hgiven : g₀.Given func entry a b c args x y z)
    (hρ : (g.argsOf entry).map ρ.get? = args.map some) :
    (loneProduct (.vector n (.int width sign)) a b shift).EvaluatesBy g ρ
      [⟨.vector n (.int (2 * width) .signless), .ofInts fun i => x i * y i⟩]
      ⟨(g.value product).ty, .ofInts fun i => fusedLane width shift (x i) (y i) 0⟩ := by
  have hlone := hF.lone hin
  rw [hF.argsOf] at hρ
  rw [hlone.typed]
  exact shiftedProduct_evaluates hshape hsign hshift
    (hgiven.accepts.inRange h.isEntry hgiven.lhs h.param_a.2 hshape hsign)
    (hgiven.accepts.inRange h.isEntry hgiven.rhs h.param_b.2 hshape hsign)
    (fun Γ => ⟨hlone.factors a (by simp), get?_of_mem_zip hρ hgiven.lhs⟩)
    (fun Γ => ⟨hlone.factors b (by simp), get?_of_mem_zip hρ hgiven.rhs⟩)

/-- Once its recipe is in place the product has gone, and all else is as before. -/
theorem Fused.without (hscene : Scene g gone func) (hroot : g.HasOp func)
    (hs : Spliced g g' gone mul blk product (loneProduct (.vector n (.int width sign)) a b shift))
    (hr : (loneProduct (.vector n (.int width sign)) a b shift).Lawful g func mul) :
    Fused g₀ g' func mul entry a b c product n width shift sign up total out ∧
      ¬ g'.Inside func mul := by
  have hlone := hF.lone hin
  have hc := hscene.consistent
  have hleft : ¬ g'.Inside func mul := by
    rw [hs.inside_iff hin, not_or]
    refine ⟨fun hkept => hkept.2 rfl, fun hnew => ?_⟩
    exact nextOps_fresh hnew (hin.hasOp hc.toNestingAgrees)
  have keeps : ∀ {k reads result}, g.Performs entry k reads result → .muli ≠ k →
      g'.Performs entry k reads result := by
    intro k reads result hp hk
    refine hs.performs_of_ne hr hp (hlone.kind ▸ hk) ?_
    obtain ⟨d, hd, -, rfl, -⟩ := hp
    exact hlone.not_mem_operands hscene (hF.isEntry.holdsBlock.inside hd.mem)
  refine ⟨⟨hs.isEntry hroot hF.isEntry, (hs.argsOf _).trans hF.argsOf,
    keeps hF.shiftUp (by decide), keeps hF.multiplyAdd (by decide),
    keeps hF.shiftDown (by decide), fun d hd hne => ?_, fun h => absurd h hleft,
    fun args x y z hgiven => ?_⟩, hleft⟩
  · rcases (hs.inside_iff hin).mp hd with ⟨hd, -⟩ | hnew
    · obtain ⟨hmade, hload, hmac, hcast⟩ := hF.inert d hd hne
      have hkind := hs.kind_of_hasOp (hd.hasOp hc.toNestingAgrees)
      exact ⟨by rwa [hkind], by rwa [hkind], by rwa [hkind], by rwa [hkind]⟩
    · obtain ⟨i, e, he, rfl⟩ := mem_nextOps_all.mp hnew
      have hkind := hs.kind_made he
      have hmem := List.mem_of_getElem? he
      rw [all_loneProduct] at hmem
      rcases List.mem_pair.mp hmem with rfl | rfl <;> exact
        ⟨Or.inl (by rw [hkind]; rfl), by rw [hkind]; nofun, by rw [hkind]; nofun,
          by rw [hkind]; nofun⟩
  · -- The product is bound to what its recipe computes; nobody reads it.
    obtain ⟨ρ, hρ, hup, htotal⟩ := hF.explained args x y z hgiven
    let s := RtValue.ofInts fun i => fusedLane width shift (x i) (y i) 0
    have hbeside : g.ExplainsBeside mul entry args _ (ρ.bind product s) :=
      hρ.rebind hc hlone.results (fun o ho =>
        hlone.not_mem_operands hscene (hF.isEntry.holdsBlock.inside ho)) s
    have heval := hF.loneProduct_evaluates h hin hshape hsign hshift hgiven hbeside.params
    obtain ⟨hupValue, hupNe⟩ := hF.shiftUp.result_ne hc hlone.results (by rw [hlone.kind]; decide)
    obtain ⟨htotalValue, htotalNe⟩ :=
      hF.multiplyAdd.result_ne hc hlone.results (by rw [hlone.kind]; decide)
    refine ⟨_, hs.explains_extendEnv hscene hF.isEntry (by rw [hlone.kind]; decide) hbeside
      (hs.value_standIn hr) fun _ => ⟨s, if_pos rfl, heval⟩, ?_, ?_⟩
    · rw [extendEnv_of_hasValue hupValue, Env.get?_bind, if_neg hupNe, hup]
    · rw [extendEnv_of_hasValue htotalValue, Env.get?_bind, if_neg htotalNe, htotal]

end

end Graph

end SimdLowering
