/-
Loads, and how much they contribute.

A load of up to two registers more than one load may contribute is split once: the half in front
is carried by a half that starts behind it, and so each contributes no more than it may. That is
for good. A load is light if its type is short, or it starts behind, or one that starts behind
carries it; and since no visit touches a load that starts behind, what is light stays light.

What is remembered of sizes agrees with this. A size is remembered when the load is visited, and
by then the load is light or is about to be split.
-/
import SimdLowering.Proofs.Lowering.Rounds
import SimdLowering.Proofs.Rewrite.Evaluation
import SimdLowering.Proofs.Rewrite.Uses
import SimdLowering.Proofs.Target.Queries

set_option autoImplicit false

namespace SimdLowering

open SimdLowering.Graph SimdLowering.Rules

variable {g g' : Graph} {gone : List OpId} {func op d : OpId} {b : BlockId} {v old : ValueId}
  {r : Recipe} {c c' : AccessSizes} {n bound : Nat}

/-! ## Remembered sizes -/

namespace AccessSizes

/-- A size is known, or it is computed and known from then on. -/
theorem query_eq_ok : c.query g op = .ok (n, c') ↔ (c.get? op = some n ∧ c' = c) ∨
    (c.get? op = none ∧ g.accessSize op = .ok n ∧ c' = ⟨(op, n) :: c.entries⟩) := by
  unfold query
  cases hget : c.get? op with
  | some m =>
    simp only [Except.ok.injEq, Prod.mk.injEq, Option.some.injEq, reduceCtorEq, false_and, or_false,
      eq_comm]
  | none =>
    simp only [reduceCtorEq, false_and, false_or, true_and]
    cases hsize : g.accessSize op with
    | error e => simp [bind, Except.bind]
    | ok m =>
      simp only [bind, Except.bind, pure, Except.pure, Except.ok.injEq, Prod.mk.injEq]
      constructor
      · rintro ⟨rfl, rfl⟩
        exact ⟨rfl, rfl⟩
      · rintro ⟨rfl, rfl⟩
        exact ⟨rfl, rfl⟩

/-- The last that was learned of an operation is what is known of it. -/
theorem get?_cons : (⟨(op, n) :: c.entries⟩ : AccessSizes).get? d =
    if d = op then some n else c.get? d := by
  unfold get?
  rw [List.lookup_cons]
  by_cases h : d = op
  · simp [h]
  · simp [h, beq_false_of_ne h]

/-- What is remembered after sizes are forgotten was remembered before. -/
theorem get?_of_invalidateAll {ops : List OpId} (h : (c.invalidateAll ops).get? d = some n) :
    c.get? d = some n := by
  induction ops generalizing c with
  | nil => exact h
  | cons o ops ih =>
    have := ih h
    rw [get?_invalidate] at this
    split at this
    · cases this
    · exact this

end AccessSizes

namespace AsksAtMost

/-- Asking twice is asking. -/
theorem trans {c₁ c₂ c₃ : AccessSizes} (h₁ : AsksAtMost g op c₁ c₂) (h₂ : AsksAtMost g op c₂ c₃) :
    AsksAtMost g op c₁ c₃ := by
  rcases h₁ with rfl | ⟨hk, n, hn⟩
  · exact h₂
  rcases h₂ with rfl | ⟨-, m, hm⟩
  · exact Or.inr ⟨hk, n, hn⟩
  -- The second answer is the one that is remembered from the first.
  have hget : c₂.get? op = some n := by
    rcases AccessSizes.query_eq_ok.mp hn with ⟨hget, rfl⟩ | ⟨-, -, rfl⟩
    · exact hget
    · rw [AccessSizes.get?_cons, if_pos rfl]
  rcases AccessSizes.query_eq_ok.mp hm with ⟨-, rfl⟩ | ⟨hnone, -⟩
  · exact Or.inr ⟨hk, n, hn⟩
  · rw [hget] at hnone
    cases hnone

/-- Only the sizes of loads are asked for. -/
theorem eq_of_ne (h : AsksAtMost g op c c') (hk : g.kind op ≠ .upd) : c' = c :=
  h.resolve_right fun ⟨hk', _⟩ => hk hk'

/-- And only that of the operation in question. -/
theorem get?_of_ne (h : AsksAtMost g op c c') (hne : d ≠ op) : c'.get? d = c.get? d := by
  rcases h with rfl | ⟨-, n, hn⟩
  · rfl
  rcases AccessSizes.query_eq_ok.mp hn with ⟨-, rfl⟩ | ⟨-, -, rfl⟩
  · rfl
  · rw [AccessSizes.get?_cons, if_neg hne]

/-- What is remembered of the operation that was asked for is what was remembered before, or what
it contributes. -/
theorem get?_self (h : AsksAtMost g op c c') (hn : c'.get? op = some n) :
    c.get? op = some n ∨ g.accessSize op = .ok n := by
  rcases h with rfl | ⟨-, m, hm⟩
  · exact Or.inl hn
  rcases AccessSizes.query_eq_ok.mp hm with ⟨-, rfl⟩ | ⟨-, hsize, rfl⟩
  · exact Or.inl hn
  · rw [AccessSizes.get?_cons, if_pos rfl] at hn
    exact Or.inr (Option.some.inj hn ▸ hsize)

end AsksAtMost

/-- Rules and checks keep to this. -/
theorem LowerOptions.tracks_asks (o : LowerOptions) (g : Graph) (op : OpId) :
    Application.Tracks o.ruleSet o.target.conversionTarget g op (AsksAtMost g op) :=
  o.tracks (fun _ => Or.inl rfl) AsksAtMost.trans fun _ _ => Or.inr

namespace Graph

/-! ## Light loads -/

/-- The type of the load is short, or the load starts behind, or one that starts behind carries
it. -/
def Light (g : Graph) (bound : Nat) (d : OpId) : Prop :=
  (∀ shape, g.resultShape? d = some shape → shape.bits ≤ bound) ∨ bound ≤ g.updOffset d ∨
    ∃ v ∈ g.results d, ∃ u ∈ g.uses v, g.kind u.user = .upd ∧ bound ≤ g.updOffset u.user

/-- The load is light and stays so while dead operations go: its type is short, or it starts
behind, or it is read, and only by loads that start behind. -/
def Settled (g : Graph) (bound : Nat) (d : OpId) : Prop :=
  (∀ shape, g.resultShape? d = some shape → shape.bits ≤ bound) ∨ bound ≤ g.updOffset d ∨
    ∃ v, g.results d = [v] ∧ g.uses v ≠ [] ∧
      ∀ u ∈ g.uses v, g.kind u.user = .upd ∧ bound ≤ g.updOffset u.user

/-- A load that is settled does not contribute too much. -/
theorem Settled.light (h : g.Settled bound d) : g.Light bound d := by
  refine h.imp_right (Or.imp_right ?_)
  rintro ⟨v, hv, hread, hall⟩
  obtain ⟨u, hu⟩ := List.exists_mem_of_ne_nil _ hread
  exact ⟨v, by simp [hv], u, hu, hall u hu⟩

/-- The loads under the function start in front or behind what one load may contribute, and
neither loads nor reads are longer than two of these. -/
structure Halved (g : Graph) (func : OpId) (bound : Nat) : Prop where
  short : ∀ d, g.Inside func d → g.kind d = .transferRead ∨ g.kind d = .upd →
    ∀ shape, g.resultShape? d = some shape → shape.bits ≤ 2 * bound
  offsets : ∀ d, g.Inside func d → g.kind d = .upd → g.updOffset d = 0 ∨ g.updOffset d = bound

/-- What carries an operation under the function starts in front or behind. -/
theorem Halved.offset_of_reads (h : g.Halved func bound) (hc : Consistent g gone)
    (hvalid : g.Valid func gone) (hd : g.Inside func d) (hv : v ∈ g.results d) {u : Use}
    (hu : u ∈ g.uses v) (hk : g.kind u.user = .upd) :
    g.updOffset u.user = 0 ∨ g.updOffset u.user = bound :=
  h.offsets u.user ((hvalid.mem_uses hc (Or.inr ⟨d, hd, hv⟩)).mp hu).1 hk

/-- A load that reads another one has an offset that is not negative. -/
theorem Halved.nonneg_of_reads (h : g.Halved func bound) (hc : Consistent g gone)
    (hvalid : g.Valid func gone) (hd : g.Inside func d) (hv : v ∈ g.results d) {u : Use}
    (hu : u ∈ g.uses v) (hk : g.kind u.user = .upd) : 0 ≤ g.updOffset u.user := by
  rcases h.offset_of_reads hc hvalid hd hv hu hk with h0 | h1 <;> omega

/-- Light loads are those that contribute no more than one may. -/
theorem Halved.light_iff (h : g.Halved func bound) (hbound : 0 < bound)
    (hword : 2 * bound < twoPow 32) (hc : Consistent g gone) (hvalid : g.Valid func gone)
    (hd : g.Inside func d) (hk : g.kind d = .upd) (hres : g.results d = [v])
    (hn : g.accessSize d = .ok n) : n ≤ bound ↔ g.Light bound d := by
  replace hn := (size_of_accessSize (by rw [hres]; rfl) hn).2
  have htotal : ((g.resultShape? d).map VectorShape.bits).getD 0 ≤ 2 * bound := by
    cases hs : g.resultShape? d with
    | none => exact Nat.zero_le _
    | some shape => exact h.short d hd (Or.inr hk) shape hs
  have hoff := h.offsets d hd hk
  have hreader : ∀ u ∈ g.uses v, g.kind u.user = .upd →
      g.updOffset u.user = 0 ∨ g.updOffset u.user = bound := fun u hu hkind =>
    h.offset_of_reads hc hvalid hd (by simp [hres]) hu hkind
  have hoffsets : ∀ u ∈ g.uses v, g.kind u.user = .upd → 0 ≤ g.updOffset u.user := by
    intro u hu hkind
    rcases hreader u hu hkind with h0 | h1 <;> omega
  have hcarried := carried_nonneg hoffsets
  -- The count does not reach the end of its word.
  have hsize : n = (max 0 ((((g.resultShape? d).map VectorShape.bits).getD 0 : Nat) -
      g.updOffset d - g.carried v)).toNat := by
    rw [hn, Nat.mod_eq_of_lt]
    omega
  constructor
  · intro hle
    by_contra hlight
    obtain ⟨hlong, hfront, hfree⟩ : (∃ shape, g.resultShape? d = some shape ∧ bound < shape.bits) ∧
        g.updOffset d < bound ∧ ∀ v ∈ g.results d, ∀ u ∈ g.uses v, g.kind u.user = .upd →
          g.updOffset u.user < bound := by
      simpa only [Light, not_or, not_forall, not_exists, not_and, not_le, exists_prop] using hlight
    have hnone : g.carried v = 0 := by
      refine totalOffset_eq_zero fun u hu => ?_
      obtain ⟨hmem, hkind⟩ := mem_filter_loads.mp hu
      have := hfree v (by simp [hres]) u hmem hkind
      rcases hreader u hmem hkind with h0 | h1
      · exact h0
      · omega
    obtain ⟨shape, hshape, hlong⟩ := hlong
    rw [hshape, hnone] at hsize
    simp only [Option.map_some, Option.getD_some] at hsize
    omega
  · rintro (hshort | hbehind | ⟨w, hw, u, hu, hkind, hbehind⟩)
    · have hle : ((g.resultShape? d).map VectorShape.bits).getD 0 ≤ bound := by
        cases hs : g.resultShape? d with
        | none => exact Nat.zero_le _
        | some shape => exact hshort shape hs
      omega
    · omega
    · obtain rfl : w = v := by simpa [hres] using hw
      have hle := le_carried hoffsets hu hkind
      omega

/-! ## Splices -/

section

variable (hs : Spliced g g' gone op b old r) (hin : g.Inside func op) (hr : r.Lawful g func op)
include hs hr

/-- A new load has the lanes of the read or load that it stands for. -/
theorem Spliced.resultShape?_of_upd {i : Nat} {e : Step} (he : r.all[i]? = some e)
    (hk : e.kind = .upd) : (g.kind op = .transferRead ∨ g.kind op = .upd) ∧
      g'.resultShape? ⟨g.ops.size + i⟩ = g.resultShape? op := by
  obtain ⟨⟨hkind, hty⟩, -⟩ := (hr.steps i e he).loads hk
  refine ⟨hkind, ?_⟩
  rw [resultShape?_eq (hs.results_made he), resultShape?_eq hs.single, Graph.value,
    hs.value?_made he, hty old (by simp [hs.single])]
  rfl

include hin

/-- What is true of the lanes of all reads and loads stays so, since new loads have the lanes of
what they stand for. -/
theorem Spliced.forall_shape {P : VectorShape → Prop} (h : ∀ d, g.Inside func d →
      g.kind d = .transferRead ∨ g.kind d = .upd → ∀ shape, g.resultShape? d = some shape → P shape)
    (hd : g'.Inside func d) (hk : g'.kind d = .transferRead ∨ g'.kind d = .upd)
    {shape : VectorShape} (hshape : g'.resultShape? d = some shape) : P shape := by
  rcases (hs.inside_iff hin).mp hd with ⟨hd, -⟩ | hd
  · have hop := hd.hasOp hs.before.toNestingAgrees
    rw [hs.kind_of_hasOp hop] at hk
    rw [hs.resultShape?_of_hasOp hop] at hshape
    exact h d hd hk shape hshape
  · obtain ⟨i, e, he, rfl⟩ := mem_nextOps_all.mp hd
    rw [hs.kind_made he] at hk
    have hupd : e.kind = .upd := hk.resolve_left fun hread => by
      have := (hr.steps i e he).lowered
      rw [hread] at this
      cases this
    obtain ⟨hkind, hsame⟩ := hs.resultShape?_of_upd hr he hupd
    exact h op hin hkind shape (hsame ▸ hshape)

/-- Loads that are made in front or at the bound keep to halves. -/
theorem Halved.spliced (h : g.Halved func bound)
    (hoffset : ∀ (i : Nat) (e : Step), r.all[i]? = some e → e.kind = .upd →
      e.attrs.intOrZero AttrName.offset = 0 ∨ e.attrs.intOrZero AttrName.offset = bound) :
    g'.Halved func bound := by
  refine ⟨fun d hd hk _ => hs.forall_shape hin hr h.short hd hk, fun d hd hk => ?_⟩
  rcases (hs.inside_iff hin).mp hd with ⟨hd, -⟩ | hd
  · have hop := hd.hasOp hs.before.toNestingAgrees
    rw [hs.kind_of_hasOp hop] at hk
    rw [updOffset, hs.attrs_of_hasOp hop]
    exact h.offsets d hd hk
  · obtain ⟨i, e, he, rfl⟩ := mem_nextOps_all.mp hd
    rw [hs.kind_made he] at hk
    rw [updOffset, hs.attrs_made he]
    exact hoffset i e he hk

omit hin hr in
/-- A light load stays light if no load goes that starts behind. -/
theorem Light.spliced (hlight : g.Light bound d) (hd : g.HasOp d) (hne : d ≠ op)
    (hfront : g.kind op = .upd → g.updOffset op < bound) : g'.Light bound d := by
  refine hlight.imp (fun hshort => ?_) (Or.imp (fun hbehind => ?_) ?_)
  · rwa [hs.resultShape?_of_hasOp hd]
  · rwa [updOffset, hs.attrs_of_hasOp hd]
  rintro ⟨v, hv, u, hu, hk, hbehind⟩
  have hreader := hasOp_of_mem_operands (hs.before.mem_operands_of_mem_uses hu)
  have hstays : u.user ≠ op := by
    intro e
    rw [e] at hk hbehind
    exact absurd (hfront hk) (by omega)
  have hold : v ≠ old := by
    rintro rfl
    exact hne (hs.before.eq_of_mem_results hv (by simp [hs.single]))
  refine ⟨v, by rwa [hs.results_of_hasOp hd], u, ?_, ?_, ?_⟩
  · exact (hs.mem_uses_of_hasValue (hs.before.hasValue_of_mem_results hv) hold).mpr
      (Or.inl ⟨hu, hstays⟩)
  · rw [hs.kind_of_hasOp hreader, hk]
  · rwa [updOffset, hs.attrs_of_hasOp hreader]

end

end Graph

/-! ## What the rules for reads and loads write -/

namespace Rules

variable {access : MemAccess ValueId} {innermost : ValueId} {ty indexTy : Ty} {shape : VectorShape}

/-- The step, if it is a load, is a plain one from the given source with so many indices. -/
def PlainLoad (a : Source) (n : Nat) (d : Step) : Prop :=
  d.kind = .upd → ∃ ty indices, d = loadStep ty a indices ∧ indices.length = n

/-- A load with as many indices as its memory has dimensions is plain. -/
theorem plainLoad_loadStep (ty : Ty) (a : Source) (indices : List Source) :
    PlainLoad a indices.length (loadStep ty a indices) := fun _ => ⟨ty, indices, rfl, rfl⟩

/-- One more index makes one more dimension. -/
theorem plainLoad_atIndex {a : Source} {outer : List Source} (index : Source) :
    PlainLoad a (outer.length + 1) (loadStep ty a (outer ++ [index])) := by
  have h := plainLoad_loadStep ty a (outer ++ [index])
  rwa [List.length_append, List.length_singleton] at h

/-- The load of an aligned read is plain. -/
theorem wholePlan_plain {a : Source} {outer : List Source} {aligned : Int} :
    (wholePlan ty a outer indexTy aligned).Makes
      (fun (_ : List Unit) d _ => PlainLoad a (outer.length + 1) d) []
      fun _ d => PlainLoad a (outer.length + 1) d :=
  .emit_bind (y := ()) nofun (.pure (plainLoad_atIndex _))

/-- So are both loads of any other. -/
theorem windowPlan_plain {a : Source} {outer : List Source} {aligned next bytes : Int} :
    (windowPlan ty a outer indexTy aligned next bytes).Makes
      (fun (_ : List Unit) d _ => PlainLoad a (outer.length + 1) d) []
      fun _ d => PlainLoad a (outer.length + 1) d := by
  refine .emit_bind (y := ()) nofun ?_
  refine .emit_bind (y := ()) (plainLoad_atIndex _) ?_
  refine .emit_bind (y := ()) nofun ?_
  refine .emit_bind (y := ()) (plainLoad_atIndex _) ?_
  exact .emit_bind (y := ()) nofun (.pure nofun)

/-- However a read is aligned, what is loaded is loaded plainly, and something is. -/
theorem alignedPlan_plain {lanes elemBits : Nat} {a : Source} {outer : List Source} {value : Int}
    {p : Plan Step} (h : alignedPlan ty lanes elemBits a outer indexTy value = .ok p) :
    (∀ d ∈ p.toRecipe.all, PlainLoad a (outer.length + 1) d) ∧
      ∃ d ∈ p.toRecipe.all, d.kind = .upd := by
  obtain ⟨bits, -, h⟩ := bind_eq_ok.mp h
  dsimp only at h
  split at h
  · cases h
    exact ⟨wholePlan_plain.forall_mem, loadStep ty a (outer ++ [.step 0]),
      List.mem_append_right _ (List.mem_singleton_self _), rfl⟩
  · obtain ⟨next, -, h⟩ := bind_eq_ok.mp h
    cases h
    -- The amount and the second load come after the first.
    exact ⟨windowPlan_plain.forall_mem, loadStep ty a (outer ++ [.step 0]),
      List.mem_append_left _ (.tail _ (.head _)), rfl⟩

/-- What is planned for a read loads from where it reads, with as many indices. -/
theorem readPlan_plain {g : Graph} (hm : innermost ∈ access.indices)
    (h : readPlan g access innermost ty shape = .ok (.rewrite r)) :
    (∀ d ∈ r.all, PlainLoad (.value access.source) access.indices.length d) ∧
      ∃ d ∈ r.all, d.kind = .upd := by
  obtain ⟨value, -, h⟩ := bind_eq_ok.mp h
  dsimp only at h
  -- One load as it stands, or the aligned ones with a new last index.
  split at h
  · cases h
    have hplain := plainLoad_loadStep ty (.value access.source) (access.indices.map Source.value)
    rw [List.length_map] at hplain
    exact ⟨List.forall_mem_singleton.mpr hplain, _, List.mem_singleton_self _, rfl⟩
  split at h
  · cases h
  · obtain ⟨indexTy, -, h⟩ := bind_eq_ok.mp h
    obtain ⟨p, hp, h⟩ := bind_eq_ok.mp h
    cases h
    have hlen : (access.indices.dropLast.map Source.value).length + 1 = access.indices.length := by
      rw [List.length_map, List.length_dropLast]
      exact Nat.sub_add_cancel (List.length_pos_of_mem hm)
    exact hlen ▸ alignedPlan_plain hp

section

variable (h : Scene g gone func) (hin : g.Inside func op) (hr : r.Lawful g func op)
include h hin hr

/-- What takes the place of a read loads from where it reads, with as many indices. -/
theorem plain_of_run (hk : g.kind op = .transferRead)
    (hrun : transferReadToUpd.run g op c =
      .ok ((g.addRecipe r).1, c', .matched (g.addRecipe r).2)) :
    ∃ access, g.memAccess? op = .ok (some access) ∧
      (∀ d ∈ r.all, PlainLoad (.value access.source) access.indices.length d) ∧
      ∃ d ∈ r.all, d.kind = .upd := by
  obtain ⟨old, hold⟩ := h.single_of_kind hin (by rw [hk]; decide) (by rw [hk]; decide)
  obtain ⟨-, decision, hlook, hperform⟩ := Rule.run_ofDecision_eq_ok.mp hrun
  cases decision with
  | decline => cases (Prod.mk.inj hperform).2
  | refuse reason => cases (Prod.mk.inj hperform).2
  | rewrite r' =>
    -- It is the plan for the read that has been followed.
    obtain ⟨access, innermost, shape, haccess, hs, hi, hm, hshape, hplan⟩ : ∃ access innermost
      shape,
        g.memAccess? op = .ok (some access) ∧ g.AtHand func op access.source ∧
          (∀ v ∈ access.indices, g.AtHand func op v) ∧ innermost ∈ access.indices ∧
          g.resultShape? op = some shape ∧
          readPlan g access innermost (g.value old).ty shape = .ok (.rewrite r') := by
      obtain ⟨access?, haccess, hlook⟩ := bind_eq_ok.mp hlook
      have hspec := (h.memAccess? hin).of_eq_ok haccess
      cases access? with
      | none => cases hlook
      | some access =>
        obtain ⟨hs, hi, -, -⟩ := hspec access rfl
        dsimp only at hlook
        split at hlook
        · cases hlook
        split at hlook
        · cases hlook
        split at hlook
        · cases hlook
        rw [firstResultType_eq hold] at hlook
        split at hlook
        · next shape innermost hshape hlast =>
          exact ⟨access, innermost, shape, haccess, hs, hi, List.mem_of_getLast? hlast, hshape,
            hlook⟩
        · cases hlook
    have hlawful : r'.Lawful g func op :=
      (readPlan_spec h hin hk (loads_of_kind hold (Or.inl hk)) hs hi hm hold hshape).of_eq_ok hplan
    obtain rfl : r = r' := by
      refine Recipe.eq_of_addRecipe h.consistent (hr.hasValue h.consistent)
        (hlawful.hasValue h.consistent) (Prod.ext (Prod.mk.inj hperform).1.symm ?_)
      exact (Outcome.matched.inj (Prod.mk.inj hperform).2).symm
    exact ⟨access, haccess, readPlan_plain hm hplan⟩

/-- The loads that take the place of a read start in front. -/
theorem inFront_of_run (hk : g.kind op = .transferRead)
    (hrun : transferReadToUpd.run g op c =
      .ok ((g.addRecipe r).1, c', .matched (g.addRecipe r).2)) {d : Step} (hd : d ∈ r.all)
    (hload : d.kind = .upd) : d.attrs.intOrZero AttrName.offset = 0 := by
  obtain ⟨access, -, hplain, -⟩ := plain_of_run h hin hr hk hrun
  obtain ⟨ty, indices, rfl, -⟩ := hplain d hd hload
  rfl

/-- What takes the place of a load are a load in front and one behind that carries it. -/
theorem split_of_run {bits : Nat} (hk : g.kind op = .upd)
    (hrun : (splitUpd bits).run g op c =
      .ok ((g.addRecipe r).1, c', .matched (g.addRecipe r).2)) :
    ∃ access, g.memAccess? op = .ok (some access) ∧ ∃ ty, r.all =
      [loadStep ty (.value access.source) (access.indices.map .value),
        Instr.upd ty (.value access.source) (access.indices.map .value) (2 * bits) 1
          (some (.step 0))] := by
  obtain ⟨old, hold⟩ := h.single_of_kind hin (by rw [hk]; decide) (by rw [hk]; decide)
  -- The rule has matched, so each check on the way was passed.
  obtain ⟨decision, hlook, hperform⟩ := Rule.run_ofSizedDecision_eq_ok.mp hrun
  obtain ⟨⟨size, c₁⟩, -, hlook⟩ := bind_eq_ok.mp hlook
  obtain ⟨most, -, hlook⟩ := bind_eq_ok.mp hlook
  dsimp only at hlook
  split at hlook
  · cases hlook
    cases (Prod.mk.inj hperform).2
  obtain ⟨access?, haccess, hlook⟩ := bind_eq_ok.mp hlook
  have hspec := (h.memAccess? hin).of_eq_ok haccess
  cases access? with
  | none =>
    cases hlook
    cases (Prod.mk.inj hperform).2
  | some access =>
    obtain ⟨hs, hi, -, -⟩ := hspec access rfl
    dsimp only at hlook
    rw [firstResultType_eq hold] at hlook
    cases hlook
    refine ⟨access, haccess, (g.value old).ty, ?_⟩
    -- The steps of the plan are recovered from what was added to the graph.
    have hlawful : (splitPlan (g.value old).ty (.value access.source)
        (access.indices.map .value) bits).toRecipe.Lawful g func op :=
      .of_makes hold (splitPlan_makes (loads_of_kind hold (Or.inr hk)) (.value hs)
        (readable_map hi))
    rw [Recipe.eq_of_addRecipe h.consistent (hr.hasValue h.consistent)
      (hlawful.hasValue h.consistent) (Prod.ext (Prod.mk.inj hperform).1.symm
        (Outcome.matched.inj (Prod.mk.inj hperform).2).symm)]
    rfl

end

end Rules

end SimdLowering
