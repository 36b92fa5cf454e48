/-
What is kept while an integer function is lowered.

Everything under the function is made of what integer functions are made of, or by rules,
and some environment still explains the answer that the run gave at the start. A visit that
rewrites finds an operation of the former sort: of what rules make, only loads are looked at
again, and a load is no longer than a read was, so the target lets it stay. At such an
operation every rule computes what it replaces, and so the new operations explain the same
answer.
-/
import SimdLowering.Proofs.Integral.Renaming
import SimdLowering.Proofs.Integral.Tables
import SimdLowering.Proofs.Lowering.Safety

set_option autoImplicit false

namespace SimdLowering

open SimdLowering.Graph

variable {gen : Generation} {g g' : Graph} {gone : List OpId} {func op d : OpId} {b : BlockId}
  {v old : ValueId} {r : Recipe} {c c' : AccessSizes}

/-! ## Loads -/

/-- One load may give a value of the type. -/
def Generation.Loads (gen : Generation) (ty : Ty) : Prop :=
  ∀ shape, ty.vectorShape = some shape → shape.bits ≤ gen.maxLoadBits

/-- No size that is remembered is too much for one load. -/
def AccessSizes.Bounded (gen : Generation) (c : AccessSizes) : Prop :=
  ∀ e ∈ c.entries, e.2 ≤ gen.maxLoadBits

theorem AccessSizes.Bounded.get? {n : Nat} (h : c.Bounded gen) (hn : c.get? op = some n) :
    n ≤ gen.maxLoadBits := by
  obtain ⟨l₁, l₂, hl, -⟩ := List.lookup_eq_some_iff.mp hn
  exact h (op, n) (by rw [hl]; simp)

theorem AccessSizes.Bounded.invalidateAll {ops : List OpId} (h : c.Bounded gen) :
    (c.invalidateAll ops).Bounded gen := by
  induction ops generalizing c with
  | nil => exact h
  | cons o ops ih => exact ih fun e he => h e (List.mem_filter.mp he).1

namespace Graph

/-- The loads under the function start in front and give no more than one load may. -/
def LoadsFit (gen : Generation) (g : Graph) (func : OpId) : Prop :=
  ∀ d, g.Inside func d → g.kind d = .upd →
    0 ≤ g.updOffset d ∧ ∀ v ∈ g.results d, gen.Loads (g.value v).ty

/-- A load contributes no more than its type has bits. -/
theorem LoadsFit.accessSize_le {n : Nat} (h : g.LoadsFit gen func) (hc : Consistent g gone)
    (hv : g.Valid func gone) (hd : g.Inside func d) (hk : g.kind d = .upd)
    (hn : g.accessSize d = .ok n) : n ≤ gen.maxLoadBits := by
  cases hres : (g.results d).head? with
  | none =>
    rw [accessSize, hres] at hn
    cases hn
  | some result =>
    have hmem : result ∈ g.results d := List.mem_of_mem_head? hres
    obtain ⟨hoffset, hloads⟩ := h d hd hk
    have htotal : ((g.resultShape? d).map VectorShape.bits).getD 0 ≤ gen.maxLoadBits := by
      have hshape : g.resultShape? d = (g.value result).ty.vectorShape := by
        obtain ⟨rest, hrest⟩ := List.head?_eq_some_iff.mp hres
        rw [resultShape?, resultTypes, hrest]
        rfl
      rw [hshape]
      cases hs : (g.value result).ty.vectorShape with
      | none => exact Nat.zero_le _
      | some shape => exact hloads result hmem shape hs
    -- The loads that carry this one are under the function.
    have hcarried : 0 ≤ g.carried result := carried_nonneg fun u hu hkind =>
      (h u.user ((hv.mem_uses hc (Or.inr ⟨d, hd, hmem⟩)).mp hu).1 hkind).1
    rw [(size_of_accessSize hres hn).2]
    refine Nat.le_trans (Nat.mod_le ..) ?_
    omega

end Graph

section

variable (hfit : g.LoadsFit gen func) (hcons : Consistent g gone) (hv : g.Valid func gone)
  (hin : g.Inside func op) (hk : g.kind op = .upd)
include hfit hcons hv hin hk

/-- To ask for the size of a load keeps sizes within bounds. -/
theorem AccessSizes.Bounded.query {n : Nat} (hc : c.Bounded gen)
    (hn : c.query g op = .ok (n, c')) : n ≤ gen.maxLoadBits ∧ c'.Bounded gen := by
  unfold AccessSizes.query at hn
  cases hget : c.get? op with
  | some m =>
    rw [hget] at hn
    cases hn
    exact ⟨hc.get? hget, hc⟩
  | none =>
    rw [hget] at hn
    obtain ⟨m, hm, hn⟩ := bind_eq_ok.mp hn
    cases hn
    have hle := hfit.accessSize_le hcons hv hin hk hm
    refine ⟨hle, fun e he => ?_⟩
    rcases List.mem_cons.mp he with rfl | he
    · exact hle
    · exact hc e he

/-- A load whose size is within bounds may stay. -/
theorem not_openAt_of_upd (hc : c.Bounded gen) : ¬ gen.conversionTarget.OpenAt g op c := by
  rintro ⟨verdict, c', hlegal, hne⟩
  obtain ⟨n, hquery, rfl⟩ := Generation.legality_upd hk hlegal
  obtain ⟨hle, -⟩ := hc.query hfit hcons hv hin hk hquery
  simp [hle] at hne

end

/-! ## Splices -/

namespace Graph

variable {entry : BlockId} {args ans : List RtValue} {ρ : Env} {size : Nat}

/-- What is kept while an integer function is rewritten whose run gave an answer: it stays
upright, it consists of the operations such functions are made of and those that rules make,
and an environment explains the answer, in which what the former read fits and leaves room to read
on. -/
structure Answering (gen : Generation) (g : Graph) (gone : List OpId) (func : OpId) (size : Nat)
    (entry : BlockId) (args ans : List RtValue) : Prop extends Upright g gone func size where
  isEntry : g.IsEntry func entry
  kinds : ∀ d, g.Inside func d → ((g.kind d).isLowered = true ∧ g.kind d ≠ .fma) ∨
    g.Integral gen d
  loadsFit : g.LoadsFit gen func
  explained : ∃ ρ, g.Explains entry args ans ρ ∧
    (∀ d, g.Reached entry d → (g.kind d).isLowered = false →
      ∀ v ∈ g.operands d, (g.known ρ v).Fits) ∧
    ∀ d, g.Reached entry d → g.kind d = .transferRead → g.RoomToRead ρ d

/-- Where a rewrite is done, there is an operation that integer functions are made of. -/
theorem Answering.generic {o : LowerOptions} {e : RuleEntry}
    (h : Answering o.target g gone func size entry args ans) (hin : g.Inside func op)
    (he : e ∈ o.ruleSet.entries) (hk : g.kind op ∈ e.rule.roots) (hc : c.Bounded o.target)
    (hopen : o.target.conversionTarget.OpenAt g op c) : (g.kind op).isLowered = false := by
  by_contra hl
  rw [Bool.not_eq_false] at hl
  rcases root_of_isLowered he hk hl with hload | hmac
  · exact not_openAt_of_upd h.loadsFit h.scene.consistent h.valid hin hload hc hopen
  · rcases h.kinds op hin with ⟨-, hne⟩ | hi
    · exact hne hmac
    · have := hi.types.mem_integralKinds
      rw [hmac] at this
      exact absurd this (by decide)

section

variable (hs : Spliced g g' gone op b old r) (h : Answering gen g gone func size entry args ans)
  (hin : g.Inside func op) (hr : r.Lawful g func op) (hgeneric : (g.kind op).isLowered = false)
include hs h hin hr hgeneric

/-- The new operations are made by rules, and are no multiply-adds. -/
theorem Answering.kinds_spliced (hk : g.kind op ≠ .extsi) : ∀ d, g'.Inside func d →
    ((g'.kind d).isLowered = true ∧ g'.kind d ≠ .fma) ∨ g'.Integral gen d := by
  have ne : ∀ k, k.isLowered = false → k ∉ integralKinds → ∀ d, g.Inside func d → g.kind d ≠ k := by
    rintro k hl hmem d hd rfl
    rcases h.kinds d hd with ⟨hl', -⟩ | hi
    · rw [hl] at hl'
      cases hl'
    · exact hmem hi.types.mem_integralKinds
  intro d hd
  rcases (hs.inside_iff hin).mp hd with ⟨hd, -⟩ | hn
  · rw [hs.kind_of_hasOp (hd.hasOp h.scene.consistent.toNestingAgrees)]
    exact (h.kinds d hd).imp_right fun hi => hi.spliced hs h.scene hr hk hd
  · obtain ⟨i, e, he, rfl⟩ := mem_nextOps_all.mp hn
    rw [hs.kind_made he]
    have hok := hr.steps i e he
    refine Or.inl ⟨hok.lowered, fun hfma => ?_⟩
    -- A multiply-add is written only for products, and there are none.
    rcases hok.macs hfma with hop | ⟨p, hp, hmul⟩
    · rw [hop] at hgeneric
      cases hgeneric
    · exact ne .muli rfl (by decide) p hp hmul

/-- New loads come from reads, which give no more than one load may. -/
theorem Answering.loadsFit_spliced : g'.LoadsFit gen func := by
  intro d hd hk
  rcases (hs.inside_iff hin).mp hd with ⟨hd, -⟩ | hn
  · have hop := hd.hasOp h.scene.consistent.toNestingAgrees
    rw [hs.kind_of_hasOp hop] at hk
    obtain ⟨hoffset, hloads⟩ := h.loadsFit d hd hk
    rw [updOffset, hs.attrs_of_hasOp hop, hs.results_of_hasOp hop]
    refine ⟨hoffset, fun v hv => ?_⟩
    rw [hs.value_of_hasValue (hs.before.hasValue_of_mem_results hv)]
    exact hloads v hv
  · obtain ⟨i, e, he, rfl⟩ := mem_nextOps_all.mp hn
    rw [hs.kind_made he] at hk
    obtain ⟨⟨hkind, hty⟩, hoffset⟩ := (hr.steps i e he).loads hk
    rw [updOffset, hs.attrs_made he, hs.results_made he]
    refine ⟨hoffset, fun v hv => ?_⟩
    rw [List.mem_singleton.mp hv, value, hs.value?_made he]
    change gen.Loads e.resultType
    rw [← hty old (by simp [hs.single])]
    -- The operation that goes is a read.
    rcases hkind with hread | hload
    · have hi := (h.kinds op hin).resolve_left fun hl => by
        rw [hgeneric] at hl
        exact Bool.false_ne_true hl.1
      have htypes := hi.types
      rw [hread, resultTypes, hs.single] at htypes
      obtain ⟨source, indices, t, shape, -, hres, hshape, -, -, -, hmax⟩ := htypes.of_transferRead
      obtain rfl : (g.value old).ty = t := (List.cons.inj hres).1
      intro shape' hshape'
      obtain rfl := Option.some.inj (hshape.symm.trans hshape')
      exact hmax
    · rw [hload] at hgeneric
      cases hgeneric

omit hin in
/-- If the recipe computes what the operation computed, the spliced function gives the same
answer. -/
theorem Answering.explained_spliced (hret : g.kind op ≠ .ret)
    (hcomputes : ∀ ρ, g.IntegralStage gen gone func entry args ans ρ op old →
      r.Evaluates g ρ (g.known ρ old)) :
    ∃ ρ, g'.Explains entry args ans ρ ∧
      (∀ d, g'.Reached entry d → (g'.kind d).isLowered = false →
        ∀ v ∈ g'.operands d, (g'.known ρ v).Fits) ∧
      ∀ d, g'.Reached entry d → g'.kind d = .transferRead → g'.RoomToRead ρ d := by
  obtain ⟨ρ, hρ, hfits, hroom⟩ := h.explained
  have hsame : g.Reached entry op → ∃ x, ρ.get? old = some x ∧
      r.Evaluates g ρ ⟨(g.value old).ty, x⟩ := by
    intro hreached
    have hstage : g.IntegralStage gen gone func entry args ans ρ op old :=
      ⟨⟨h.scene, h.isEntry, hρ, hreached⟩, hs.single, hgeneric, h.kinds, hfits, hroom⟩
    exact ⟨_, (hstage.toStage.eval hs.single).2, hcomputes ρ hstage⟩
  obtain ⟨ρ', hρ', hkept, hstand⟩ := hs.explains h.scene h.isEntry hret hρ
    (hs.value_standIn hr) hsame
  -- An operation that no rule has made was there, and what it reads was bound to the same.
  have stays : ∀ d, g'.Reached entry d → (g'.kind d).isLowered = false →
      g.Reached entry d ∧ g'.kind d = g.kind d ∧ g'.results d = g.results d ∧
        g'.operands d = (g.operands d).map (renamed old (g.standIn r)) ∧
        ∀ w ∈ g.operands d, g'.known ρ' (renamed old (g.standIn r) w) = g.known ρ w := by
    intro d hd hl
    rcases hs.mem_opsIn.mp hd.mem with ⟨hmem, hne⟩ | ⟨hn, -⟩
    · have hdin := h.isEntry.holdsBlock.inside hmem
      have hop := hdin.hasOp h.scene.consistent.toNestingAgrees
      have hkind := hs.kind_of_hasOp hop
      refine ⟨⟨hmem, by rw [← hkind]; exact hd.proceeds,
        hs.before_kept h.scene h.isEntry hret hne hd.before⟩, hkind, hs.results_of_hasOp hop,
        hs.operands_of_inside h.scene hdin, fun w hw => ?_⟩
      have hval := h.scene.ordered.hasValue_of_mem_operands h.scene.consistent hdin hw
      have hbound : ρ'.get? (renamed old (g.standIn r) w) = ρ.get? w := by
        unfold renamed
        split
        · next e => rw [hstand, e]
        · exact hkept w hval
      rw [known, known, hs.ty_renamed_of_hasValue hr hval, hbound]
    · obtain ⟨i, e, he, rfl⟩ := mem_nextOps_all.mp hn
      rw [hs.kind_made he, (hr.steps i e he).lowered] at hl
      cases hl
  refine ⟨ρ', hρ', fun d hd hl v hv => ?_, fun d hd hk source' rest' res dims elem hops' hres'
    hty => ?_⟩
  · obtain ⟨hreached, hkind, -, hops, hknown⟩ := stays d hd hl
    rw [hops] at hv
    obtain ⟨w, hw, rfl⟩ := List.mem_map.mp hv
    rw [hknown w hw]
    exact hfits d hreached (by rw [← hkind]; exact hl) w hw
  · obtain ⟨hreached, hkind, hres, hops, hknown⟩ := stays d hd (by rw [hk]; rfl)
    rw [hops] at hops'
    obtain ⟨source, rest, hread, rfl, rfl⟩ := List.map_eq_cons_iff.mp hops'
    have hsource : (g.value source).ty = .memory dims elem :=
      (congrArg Known.ty (hknown source (by simp [hread]))).symm.trans hty
    have hmem : res ∈ g.results d := by rw [← hres, hres']; exact List.mem_singleton_self res
    have hresTy : (g'.value res).ty = (g.value res).ty := by
      rw [hs.value_of_hasValue (hs.before.hasValue_of_mem_results hmem)]
    have hnumbers : (rest.map (renamed old (g.standIn r))).map (g'.known ρ') =
        rest.map (g.known ρ) := by
      rw [List.map_map]
      exact List.map_congr_left fun w hw => hknown w (by simp [hread, hw])
    rw [hnumbers, hresTy]
    exact hroom d hreached (by rw [← hkind, hk]) source rest res dims elem hread
      (by rw [← hres, hres']) hsource

end

end Graph

end SimdLowering
