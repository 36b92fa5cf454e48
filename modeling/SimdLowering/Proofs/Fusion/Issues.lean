/-
A function that returns a sum, and what its run gets to.

What a rule puts into the entry block of a function is computed if the run gets there, and it is
what the run computes that a function returns. So the instructions of this file stand where a run
gets to them. What they read may come to go by other names, when other operations around them are
rewritten; where a run has got to, whatever stands left of that point has been computed, and so its
result is known as soon as its operands are.

The functions looked at return the sum of a product and of something that is no product. What else
they hold is left open: it may be rewritten or refused, and the run may fail at it.
-/
import SimdLowering.Proofs.Fusion.Splices
import SimdLowering.Proofs.Lowering.Names
import SimdLowering.Proofs.Lowering.Visits
import SimdLowering.Proofs.Products.Arrival
import SimdLowering.Proofs.Rewrite.Standing

set_option autoImplicit false

namespace SimdLowering

open SimdLowering.Graph SimdLowering.Application

namespace Graph

variable {g₀ g g' : Graph} {gone : List OpId} {func mul add ret op o p d : OpId}
  {entry blk : BlockId} {a b c v w product sum old : ValueId} {r : Recipe} {i n width : Nat}
  {sign : Signedness} {ty : Ty} {args answer : List RtValue} {ρ : Env} {x : Fin n → Int} {k : Known}
  {e : Draft ValueId} {ren : ValueId → ValueId} {l : List OpId}

/-! ## Instructions -/

/-- The run gets to the operation, which is the given instruction and gives the value. -/
structure Issues (g : Graph) (entry : BlockId) (e : Draft ValueId) (o : OpId) (v : ValueId) :
    Prop where
  reached : g.Reached entry o
  kind : g.kind o = e.kind
  attrs : g.attrs o = e.attrs
  operands : g.operands o = e.operands
  results : g.results o = [v]
  typed : (g.value? v).map Value.ty = some e.resultType

/-- Where the run gets to an instruction in the block, it issues it. -/
theorem Stands.issues (h : g.Stands entry e o v) (hreached : g.Reached entry o) :
    g.Issues entry e o v :=
  ⟨hreached, h.kind, h.attrs, h.operands, h.results, h.typed⟩

namespace Issues

variable (h : g.Issues entry e o v)
include h

theorem stands : g.Stands entry e o v :=
  ⟨h.reached.mem, h.kind, h.attrs, h.operands, h.results, h.typed⟩

/-- What the instruction evaluates to the operation does. -/
theorem evalOp_eq (he : Evaluates g ρ [] (e.mapOperands Source.value) k) :
    g.evalOp ρ o = .ok k.value := by
  obtain ⟨ks, hks, heval⟩ := he.eval
  have hty : (g.value v).ty = k.ty := (ty_of_map_ty h.typed).trans he.resultType
  have hreads : List.Forall₂ (fun v k => Source.Holds g ρ [] (.value v) k) (g.operands o) ks := by
    rw [h.operands]
    exact List.forall₂_map_left_iff.mp hks
  refine evalOp_of_known hreads h.results hty ?_
  rw [h.kind, h.attrs]
  exact heval

/-- Once the operation has been computed, its result is known. -/
theorem holds (he : Evaluates g ρ [] (e.mapOperands Source.value) k) (hcomp : g.Computes ρ o) :
    (Source.value v).Holds g ρ [] k := by
  obtain ⟨w, s, hw, hs, hbound⟩ := hcomp
  rw [h.results] at hw
  obtain rfl := Option.some.inj hw
  obtain rfl := Except.ok.inj ((h.evalOp_eq he).symm.trans hs)
  exact ⟨h.typed.trans (congrArg some he.resultType), hbound⟩

end Issues

section

variable (hs : Spliced g g' gone op blk old r) (hr : r.Lawful g func op)
include hs hr

/-- An instruction that stays reads what it read, by the names that has now. -/
theorem Spliced.issues_of_ne (hscene : Scene g gone func) (hentry : g.IsEntry func entry)
    (h : g.Issues entry e o v) (hne : o ≠ op) :
    g'.Issues entry (e.mapOperands (renamed old (g.standIn r))) o v := by
  have hin := hentry.holdsBlock.inside h.reached.mem
  exact (hs.stands_of_ne hscene h.stands hin hne).issues
    (hs.reached_of_ne hr h.reached (h.stands.hasOp hs.before) hne)

/-- Each step of a recipe is an instruction in the block. -/
theorem Spliced.issues_made (h : g.Reached blk op) {e : Step} (he : r.all[i]? = some e) :
    g'.Issues blk ((e.mapOperands (Source.valueFrom g.values.size)).mapOperands
      (renamed old (g.standIn r))) ⟨g.ops.size + i⟩ ⟨g.values.size + i⟩ :=
  (hs.stands_made he).issues (hs.reached_made hr h he)

end

/-- What defines an operand comes before the operation. -/
theorem Scene.precedes_of_mem_operands (h : Scene g gone func) (hentry : g.IsEntry func entry)
    (ho : o ∈ g.opsIn entry) (hv : v ∈ g.operands o) (hd : v ∈ g.results d) :
    Precedes (g.opsIn entry) d o := by
  have hvis := h.ordered.visible o (hentry.holdsBlock.inside ho) v hv
  rcases Visible.of_entry h.consistent hentry ho hvis with harg | ⟨p, hp, hres⟩
  · exact absurd hd (h.consistent.not_mem_results_of_mem_argsOf harg)
  · obtain rfl := h.consistent.eq_of_mem_results hd hres
    exact hp

/-- What an instruction reads can be seen there and later in the block. -/
theorem Issues.visible (he : g.Issues entry e o v) (hscene : Scene g gone func)
    (hentry : g.IsEntry func entry) (hw : w ∈ e.operands)
    (hp : p = o ∨ Precedes (g.opsIn entry) o p) : g.Visible func p w := by
  have hvis : g.Visible func o w :=
    hscene.ordered.visible o (hentry.holdsBlock.inside he.reached.mem) w (he.operands ▸ hw)
  rcases hp with rfl | hp
  · exact hvis
  · exact .later hscene.consistent hp hvis

/-! ## Runs -/

/-- What the run computes before the return, it gets to. -/
theorem Exits.reached (hret : g.Exits entry ret) (hscene : Scene g gone func)
    (hp : Precedes (g.opsIn entry) o ret) : g.Reached entry o :=
  ⟨hp.mem_left, hret.before o hp, fun _ hq =>
    hret.before _ (hq.trans (hscene.consistent.placedOnce entry) hp)⟩

/-- In the run on the arguments, the value is bound to nothing but the given lanes. -/
def Supplies (g : Graph) (func : OpId) (entry : BlockId) (args : List RtValue) (v : ValueId)
    (x : Fin n → Int) : Prop :=
  ∀ d ρ s, g.Arrives func entry args d ρ → ρ.get? v = some s → s = .ofInts x

/-- What can be read where the run is, is known if it is supplied. -/
theorem Arrives.holds_of_supplies (h : g.Arrives func entry args o ρ) (hscene : Scene g gone func)
    (hv : g.Visible func o v) (hty : (g.value v).ty = ty) (hx : g.Supplies func entry args v x) :
    (Source.value v).Holds g ρ [] ⟨ty, .ofInts x⟩ := by
  obtain ⟨s, hs⟩ := Option.isSome_iff_exists.mp (h.isSome_of_visible hscene hv)
  refine ⟨?_, hx o ρ s h hs ▸ hs⟩
  rw [value?_eq_some (hv.hasValue hscene.consistent), ← hty]
  rfl

/-- A parameter supplies what it is given, under whatever name. -/
theorem Renames.supplies (hR : g₀.Renames g func ren) (hscene : Scene g gone func)
    (hmem : (v, .ofInts x) ∈ (g₀.argsOf entry).zip args) :
    g.Supplies func entry args (ren v) x := by
  intro d ρ s hat hs
  have hbound : ρ.get? v = some (.ofInts x) :=
    get?_of_mem_zip (hat.params hscene) ((hR.argsOf entry).symm ▸ hmem)
  rw [hR.param (List.of_mem_zip hmem).1, hbound] at hs
  exact (Option.some.inj hs).symm

/-- A run that comes to an answer does not fail on the way. -/
theorem Reached.proceeds_of_run (hd : g.Reached entry d)
    (hrun : (g.runIn .empty func args).2 = .ok answer) : g.Proceeds func entry args d := by
  intro ρ hat
  obtain ⟨pre, rest, hl, he⟩ := hat.evaluated
  rw [runIn, entryBlock?_eq_some.mpr hat.isEntry] at hrun
  dsimp only at hrun
  rw [if_neg (not_not_intro hat.count), hl, runOps_append he] at hrun
  obtain ⟨x, -, -, hx, -⟩ := (runOps_cons_eq_ok hd.proceeds).mp hrun
  exact ⟨x, hx⟩

/-! ## The function -/

/-- There is nothing in the function but the operations listed. -/
def HoldsOnly (g : Graph) (func : OpId) (l : List OpId) : Prop := ∀ d, g.Inside func d → d ∈ l

/-- The function returns the sum of a product and of something that is no product. -/
structure ReturnsSum (g : Graph) (func : OpId) (entry : BlockId) (mul add ret : OpId)
    (a b c product sum : ValueId) (ty : Ty) : Prop where
  isEntry : g.IsEntry func entry
  exits : g.Exits entry ret
  returns : g.operands ret = [sum]
  addKind : g.kind add = .addi
  addOperands : g.operands add = [product, c] ∨ g.operands add = [c, product]
  addResults : g.results add = [sum]
  mulKind : g.kind mul = .muli
  mulOperands : g.operands mul = [a, b]
  mulResults : g.results mul = [product]
  typed : ∀ v ∈ [a, b, c], (g.value v).ty = ty
  summand : ∀ d, c ∈ g.results d → g.kind d ≠ .muli

namespace ReturnsSum

variable (h : g.ReturnsSum func entry mul add ret a b c product sum ty)
  (hscene : Scene g gone func)
include h

theorem mem_addOperands : product ∈ g.operands add ∧ c ∈ g.operands add := by
  rcases h.addOperands with hops | hops <;> simp [hops]

theorem inside_ret : g.Inside func ret := h.isEntry.holdsBlock.inside h.exits.mem

include hscene

theorem precedes_add : Precedes (g.opsIn entry) add ret :=
  hscene.precedes_of_mem_operands h.isEntry h.exits.mem (v := sum) (by simp [h.returns])
    (by simp [h.addResults])

theorem precedes_mul : Precedes (g.opsIn entry) mul add :=
  hscene.precedes_of_mem_operands h.isEntry (h.precedes_add hscene).mem_left h.mem_addOperands.1
    (by simp [h.mulResults])

theorem inside_add : g.Inside func add :=
  h.isEntry.holdsBlock.inside (h.precedes_add hscene).mem_left

theorem inside_mul : g.Inside func mul :=
  h.isEntry.holdsBlock.inside (h.precedes_mul hscene).mem_left

theorem hasOp : g.HasOp ret ∧ g.HasOp add ∧ g.HasOp mul :=
  ⟨h.inside_ret.hasOp hscene.consistent.toNestingAgrees,
    (h.inside_add hscene).hasOp hscene.consistent.toNestingAgrees,
    (h.inside_mul hscene).hasOp hscene.consistent.toNestingAgrees⟩

theorem hasValue (hv : v ∈ [a, b, c]) : g.HasValue v := by
  have reads : ∀ {o}, g.Inside func o → v ∈ g.operands o → g.HasValue v := fun ho hv =>
    hscene.ordered.hasValue_of_mem_operands hscene.consistent ho hv
  simp only [List.mem_cons, List.not_mem_nil, or_false] at hv
  rcases hv with rfl | rfl | rfl
  · exact reads (h.inside_mul hscene) (by simp [h.mulOperands])
  · exact reads (h.inside_mul hscene) (by simp [h.mulOperands])
  · exact reads (h.inside_add hscene) h.mem_addOperands.2

theorem ty_product : (g.value product).ty = ty := by
  rw [← h.typed a (by simp)]
  refine (hscene.ty_of_slot (i := 0) (h.inside_mul hscene) h.mulResults (fun tys => ?_) ?_).symm
  · rw [h.mulKind]
    rfl
  · rw [h.mulOperands]
    rfl

/-- The sum has the type of the summand and of the factors. -/
theorem ty_sum : (g.value sum).ty = ty := by
  have hslot : ∀ tys, (g.kind add).resultTyOf tys = tys[0]? := by
    intro tys
    rw [h.addKind]
    rfl
  rcases h.addOperands with hops | hops
  · rw [← h.ty_product hscene]
    exact (hscene.ty_of_slot (h.inside_add hscene) h.addResults hslot (by rw [hops]; rfl)).symm
  · rw [← h.typed c (by simp)]
    exact (hscene.ty_of_slot (h.inside_add hscene) h.addResults hslot (by rw [hops]; rfl)).symm

variable (halone : g.HoldsOnly func [mul, add, ret])
include halone

/-- Where there is nothing else, the body is no longer. -/
theorem opsIn_eq : g.opsIn entry = [mul, add, ret] := by
  have hnodup := hscene.consistent.placedOnce entry
  have hmul := h.precedes_mul hscene
  have hret := h.precedes_add hscene
  have hmem : ∀ d ∈ g.opsIn entry, d ∈ [mul, add, ret] :=
    fun d hd => halone d (h.isEntry.holdsBlock.inside hd)
  obtain ⟨pre, post, hl⟩ := List.append_of_mem hmul.mem_right
  rw [hl] at hmul hret hnodup hmem ⊢
  have hbefore : mul ∈ pre := (precedes_append_cons hnodup).mp hmul
  have hafter : ret ∈ post := by
    rcases List.mem_append.mp hret.mem_right with hleft | hright
    · exact absurd ((precedes_append_cons hnodup).mpr hleft) (hret.asymm hnodup)
    · exact (List.mem_cons.mp hright).resolve_left (Ne.symm (hret.ne hnodup))
  have hsub : ([mul] ++ [add, ret]).Sublist (pre ++ add :: post) :=
    (List.singleton_sublist.mpr hbefore).append ((List.singleton_sublist.mpr hafter).cons_cons add)
  exact (hsub.eq_of_length_le (hnodup.subperm hmem).length_le).symm

/-- Where there is nothing else, the factors and the summand are parameters. -/
theorem mem_argsOf (hv : v ∈ [a, b, c]) : v ∈ g.argsOf entry := by
  have hbody := h.opsIn_eq hscene halone
  have hnodup := hscene.consistent.placedOnce entry
  rw [hbody] at hnodup
  have first : ∀ p, ¬ Precedes (g.opsIn entry) p mul := by
    intro p hp
    rw [hbody] at hp
    exact absurd ((precedes_append_cons (l := []) hnodup).mp hp) List.not_mem_nil
  have factor : v ∈ g.operands mul → v ∈ g.argsOf entry := by
    intro hread
    have hvis := hscene.ordered.visible mul (h.inside_mul hscene) v hread
    rcases Visible.of_entry hscene.consistent h.isEntry (h.precedes_mul hscene).mem_left hvis with
      harg | ⟨p, hp, -⟩
    · exact harg
    · exact absurd hp (first p)
  simp only [List.mem_cons, List.not_mem_nil, or_false] at hv
  rcases hv with rfl | rfl | rfl
  · exact factor (by simp [h.mulOperands])
  · exact factor (by simp [h.mulOperands])
  · have hvis := hscene.ordered.visible add (h.inside_add hscene) v h.mem_addOperands.2
    rcases Visible.of_entry hscene.consistent h.isEntry (h.precedes_mul hscene).mem_right hvis with
      harg | ⟨p, hp, hres⟩
    · exact harg
    · -- Only the product comes before the sum, and the summand is none.
      rw [hbody] at hp
      obtain rfl := List.mem_singleton.mp ((precedes_append_cons (l := [mul]) hnodup).mp hp)
      exact absurd h.mulKind (h.summand _ hres)

/-- Where there is nothing else, this is a function that multiplies and adds its parameters. -/
theorem multipliesAndAdds (honly : ∀ u ∈ g.uses product, u.user = add) :
    g.MultipliesAndAdds func entry mul add ret a b c product sum ty where
  isEntry := h.isEntry
  body := h.opsIn_eq hscene halone
  alone d hd := h.opsIn_eq hscene halone ▸ halone d hd
  mulKind := h.mulKind
  mulOperands := h.mulOperands
  mulResults := h.mulResults
  addKind := h.addKind
  addOperands := h.addOperands
  addResults := h.addResults
  retKind := h.exits.kind
  retOperands := h.returns
  params v hv := ⟨h.mem_argsOf hscene halone hv, h.typed v hv⟩
  onlyRead := honly

/-- Where there is nothing else, no number is too large as long as twice the lanes can be
counted. -/
theorem not_mayOverflowUnder (hty : ty = .vector n (.int width sign)) (hcount : n * 2 < twoPow 32) :
    ¬ g.MayOverflowUnder func := by
  rintro ⟨d, hd, hover⟩
  have hkind : g.kind d = .muli ∨ (d = add ∧ g.kind d = .addi) ∨ g.kind d = .ret := by
    have hmem := halone d hd
    simp only [List.mem_cons, List.not_mem_nil, or_false] at hmem
    rcases hmem with rfl | rfl | rfl
    · exact Or.inl h.mulKind
    · exact Or.inr (Or.inl ⟨rfl, h.addKind⟩)
    · exact Or.inr (Or.inr h.exits.kind)
  -- A product and a return never overflow, so it is the doubled sum, which was excluded.
  cases hover with
  | access hk => rcases hkind with e | ⟨-, e⟩ | e <;> simp [e] at hk
  | doubled hk hshape hlong =>
    rcases hkind with e | ⟨rfl, -⟩ | e
    · simp [e] at hk
    · rw [resultShape?_fused h.addResults ((h.ty_sum hscene).trans hty)] at hshape
      obtain rfl := Option.some.inj hshape
      exact absurd hcount (Nat.not_lt.mpr hlong)
    · simp [e] at hk
  | result hk => rcases hkind with e | ⟨-, e⟩ | e <;> simp [e] at hk
  | operand hk => rcases hkind with e | ⟨-, e⟩ | e <;> simp [e] at hk

end ReturnsSum

/-- A parameter is no product, whatever it is given. -/
theorem MultipliesAndAdds.returnsSum (hc : Consistent g gone)
    (h : g.MultipliesAndAdds func entry mul add ret a b c product sum ty) :
    g.ReturnsSum func entry mul add ret a b c product sum ty where
  isEntry := h.isEntry
  exits := by
    refine ⟨by simp [h.body], h.retKind, fun p hp => ?_⟩
    have hnodup := hc.placedOnce entry
    have hbody : g.opsIn entry = [mul, add] ++ ret :: [] := h.body
    rw [hbody] at hp hnodup
    -- The return is the last of the three, so only the other two are reached.
    rcases List.mem_pair.mp ((precedes_append_cons hnodup).mp hp) with rfl | rfl
    · rw [h.mulKind]
      decide
    · rw [h.addKind]
      decide
  returns := h.retOperands
  addKind := h.addKind
  addOperands := h.addOperands
  addResults := h.addResults
  mulKind := h.mulKind
  mulOperands := h.mulOperands
  mulResults := h.mulResults
  typed v hv := (h.params v hv).2
  summand _ hd := absurd hd (hc.not_mem_results_of_mem_argsOf (h.params c (by simp)).1)

end Graph

/-- A function keeps its entry and its return, whatever is visited. -/
theorem exits_of_visits {o : LowerOptions} {func ret : OpId} {entry : BlockId} {size : Nat}
    {s t : Application} (h : UprightAt func size s) (hentry : s.graph.IsEntry func entry)
    (hret : s.graph.Exits entry ret)
    (hv : Relation.ReflTransGen (VisitTo o.ruleSet o.target.conversionTarget func) s t) :
    t.graph.IsEntry func entry ∧ t.graph.Exits entry ret := by
  refine h.visits_induction (P := fun t => t.graph.IsEntry func entry ∧ t.graph.Exits entry ret)
    ⟨hentry, hret⟩ (fun ht hin hvisit ⟨hentry, hret⟩ => ?_) hv
  cases LowerOptions.visited ht hin (tracks_any ..) hvisit with
  | same hgraph => exact hgraph ▸ ⟨hentry, hret⟩
  | rewritten b old r hrw =>
    have hs := hrw.spliced
    have hkind := hret.kind
    refine ⟨hs.isEntry ht.root hentry, hs.exits_of_ne hrw.lawful hret
      (hasOp_of_blockOf? ((ht.scene.consistent.places ret entry).mp hret.mem)) ?_⟩
    -- A return may stay, so it is not what the visit rewrites.
    rintro rfl
    exact hrw.not_legal fun c => Generation.legality_of_made (Or.inr hkind) (by rw [hkind]; decide)
      (by rw [hkind]; decide) (by rw [hkind]; decide)

end SimdLowering
