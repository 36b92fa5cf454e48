/-
Loads that no visit splits.

A load is spared if it was refused, or does not read memory as a load should, or is light and
no more is remembered of it than that. A visit to a load of which nothing is remembered either
splits it or shows that it is spared, both halves of a load that is split are spared, and what
is spared stays spared while loads in front go.
-/
import SimdLowering.Proofs.Fixpoint.Loads

set_option autoImplicit false

namespace SimdLowering

open SimdLowering.Graph SimdLowering.Application SimdLowering.Rules

variable {o : LowerOptions} {gen : Generation} {g : Graph} {gone : List OpId} {func op d : OpId}
  {size n : Nat} {c c' : AccessSizes} {s s' : Application} {b : BlockId} {old : ValueId}
  {r : Recipe}

theorem Generation.maxLoadBits_bounds (gen : Generation) :
    0 < gen.maxLoadBits ∧ 2 * gen.maxLoadBits < twoPow 32 := by
  cases gen <;> decide

/-- Both generations have the rule for loads. -/
theorem LowerOptions.exists_splitUpd (o : LowerOptions) :
    ∃ e ∈ o.ruleSet.entries, e.rule = splitUpd o.target.nativeBits := by
  unfold ruleSet
  cases ht : o.target with
  | aie => exact RuleSet.exists_entry_ofList (by simp [aieRules])
  | aieml => exact RuleSet.exists_entry_ofList (by simp [aiemlRules])

namespace Application

theorem isRejected_mono (h : s.rejected <+: s'.rejected) (hd : s.isRejected d = true) :
    s'.isRejected d = true := by
  obtain ⟨x, hx, hxd⟩ := List.any_eq_true.mp hd
  exact List.any_eq_true.mpr ⟨x, h.subset hx, hxd⟩

/-- A visit to an operation that was refused does nothing. -/
theorem changes_of_isRejected {rules : RuleSet} {target : ConversionTarget}
    (hd : s.isRejected op = true) (hv : s.visitOp rules target op = .ok s') :
    s'.changes = s.changes := by
  obtain ⟨⟨verdict, sizes⟩, -, hv⟩ := bind_eq_ok.mp hv
  have hpass : (verdict = .legal || isRejected { s with sizes := sizes } op) = true := by
    rw [Bool.or_eq_true]
    exact Or.inr hd
  dsimp only at hv
  rw [if_pos hpass] at hv
  cases hv
  rfl

/-- No visit splits the load. -/
def Spared (s : Application) (bound : Nat) (d : OpId) : Prop :=
  s.isRejected d = true ∨ s.graph.memAccess? d = .ok none ∨
    (s.graph.Light bound d ∧ ∀ n, s.sizes.get? d = some n → n ≤ bound)

/-- A visit leaves a load alone, of which nothing is remembered, if it was refused, or is not
addressed as a load should be, or contributes no more than one load may. -/
theorem unsplit_of_idle (hk : s.graph.kind op = .upd) (hnone : s.sizes.get? op = none)
    (hidle : Idle o.ruleSet o.target.conversionTarget (AsksAtMost s.graph op) s.sizes s op s') :
    s'.isRejected op = true ∨ s.graph.memAccess? op = .ok none ∨
      ∃ n, s.graph.accessSize op = .ok n ∧ n ≤ o.target.maxLoadBits := by
  -- Whatever was asked on the way, the answer was computed on this graph.
  have asked : ∀ {c c₁ n}, AsksAtMost s.graph op s.sizes c → c.query s.graph op = .ok (n, c₁) →
      s.graph.accessSize op = .ok n := by
    intro c c₁ n hc hn
    rcases AccessSizes.query_eq_ok.mp hn with ⟨hget, -⟩ | ⟨-, hsize, -⟩
    · refine (hc.get?_self hget).resolve_left fun hold => ?_
      rw [hnone] at hold
      cases hold
    · exact hsize
  cases hidle with
  | legal c hlegal _ =>
    obtain ⟨n, hquery, hverdict⟩ := Generation.legality_upd hk hlegal
    refine Or.inr (Or.inr ⟨n, asked (Or.inl rfl) hquery, ?_⟩)
    by_contra hgt
    rw [if_neg hgt] at hverdict
    cases hverdict
  | already hrejected hsame =>
    exact Or.inl (isRejected_mono (hsame ▸ List.prefix_refl _) hrejected)
  | refused e reason _ _ _ hnoted =>
    refine Or.inl ?_
    rw [isRejected, hnoted, List.any_append]
    simp
  | declined hall _ =>
    -- The rule that splits declines in two cases: the size is in bounds, or the access is not
    -- understood.
    obtain ⟨e, he, hrule⟩ := o.exists_splitUpd
    obtain ⟨c, c', hc, hrun⟩ := hall e he (by rw [hrule, hk]; exact List.mem_singleton_self _)
    rw [hrule] at hrun
    obtain ⟨decision, hlook, hperform⟩ := Rule.run_ofSizedDecision_eq_ok.mp hrun
    obtain ⟨⟨n, c₁⟩, hquery, hlook⟩ := bind_eq_ok.mp hlook
    obtain ⟨most, hmost, hlook⟩ := bind_eq_ok.mp hlook
    obtain rfl : most = o.target.maxLoadBits := (fitU32_eq_ok.mp hmost).2
    dsimp only at hlook
    split at hlook
    · next hlt => exact Or.inr (Or.inr ⟨n, asked hc hquery, Nat.le_of_lt hlt⟩)
    obtain ⟨access?, haccess, hlook⟩ := bind_eq_ok.mp hlook
    cases access? with
    | none => exact Or.inr (Or.inl haccess)
    | some access =>
      obtain ⟨ty, -, hlook⟩ := bind_eq_ok.mp hlook
      cases hlook
      cases (Prod.mk.inj hperform).2

section

variable (h : Upright s.graph gone func size) (hH : s.graph.Halved func o.target.maxLoadBits)
  (hin : s.graph.Inside func op) (hk : s.graph.kind op = .upd)
include h hH hin hk

theorem light_iff_of_upright (hn : s.graph.accessSize op = .ok n) :
    n ≤ o.target.maxLoadBits ↔ s.graph.Light o.target.maxLoadBits op := by
  obtain ⟨v, hres⟩ := h.scene.single_of_kind hin (by rw [hk]; decide) (by rw [hk]; decide)
  obtain ⟨hpos, hword⟩ := o.target.maxLoadBits_bounds
  exact hH.light_iff hpos hword h.scene.consistent h.valid hin hk hres hn

theorem Spared.not_rewrites (hspared : s.Spared o.target.maxLoadBits op)
    (hv : s.visitOp o.ruleSet o.target.conversionTarget op = .ok s') {Q : AccessSizes →
      AccessSizes → Prop} :
    ¬ Rewrites o.ruleSet o.target.conversionTarget Q func gone s.sizes s op s' b old r := by
  intro hrw
  rcases hspared with hrejected | hnone | ⟨hlight, hsizes⟩
  · have := hrw.changes.symm.trans (changes_of_isRejected hrejected hv)
    omega
  · obtain ⟨e, he, hroot, c, c', -, hrun, -⟩ := hrw.rule
    rw [rule_of_upd he (hk ▸ hroot)] at hrun
    obtain ⟨access, haccess, -⟩ := split_of_run h.scene hin hrw.lawful hk hrun
    rw [hnone] at haccess
    cases haccess
  · obtain ⟨verdict, c, hlegal, hopen⟩ := hrw.opened
    obtain ⟨n, hquery, hverdict⟩ := Generation.legality_upd hk hlegal
    refine hopen (hverdict.trans (if_pos ?_))
    rcases AccessSizes.query_eq_ok.mp hquery with ⟨hget, -⟩ | ⟨-, hsize, -⟩
    · exact hsizes n hget
    · exact (light_iff_of_upright h hH hin hk hsize).mpr hlight

/-- A visit that leaves a load alone of which nothing is remembered shows that it is spared. -/
theorem spared_of_idle (hnone : s.sizes.get? op = none) (hg : s'.graph = s.graph)
    (hsizes : AsksAtMost s.graph op s.sizes s'.sizes)
    (hidle : Idle o.ruleSet o.target.conversionTarget (AsksAtMost s.graph op) s.sizes s op s') :
    s'.Spared o.target.maxLoadBits op := by
  rcases unsplit_of_idle hk hnone hidle with hrejected | haccess | ⟨n, hsize, hle⟩
  · exact Or.inl hrejected
  · exact Or.inr (Or.inl (hg ▸ haccess))
  · refine Or.inr (Or.inr ⟨hg ▸ (light_iff_of_upright h hH hin hk hsize).mp hle, fun m hm => ?_⟩)
    -- Whatever is remembered now was found out during the visit.
    obtain hm | hm := hsizes.get?_self hm
    · rw [hnone] at hm
      cases hm
    · rw [hsize] at hm
      cases hm
      exact hle

end

/-- Of a light load no more comes to be remembered than it may contribute. -/
theorem known_of_light (h : Upright s.graph gone func size)
    (hH : s.graph.Halved func o.target.maxLoadBits) (hlight : s.graph.Light o.target.maxLoadBits d)
    (hd : s.graph.Inside func d) (hk : s.graph.kind d = .upd)
    (hsizes : AsksAtMost s.graph op s.sizes s'.sizes)
    (hknown : ∀ n, s.sizes.get? d = some n → n ≤ o.target.maxLoadBits) :
    ∀ n, s'.sizes.get? d = some n → n ≤ o.target.maxLoadBits := by
  intro n hn
  by_cases e : d = op
  · subst e
    exact (hsizes.get?_self hn).elim (hknown n) fun hsize =>
      (light_iff_of_upright h hH hd hk hsize).mpr hlight
  · exact hknown n (hsizes.get?_of_ne e ▸ hn)

/-- A load that is spared stays spared while sizes are asked for. -/
theorem Spared.same (h : Upright s.graph gone func size)
    (hH : s.graph.Halved func o.target.maxLoadBits)
    (hspared : s.Spared o.target.maxLoadBits d) (hg : s'.graph = s.graph)
    (hrejected : s.rejected <+: s'.rejected) (hsizes : AsksAtMost s.graph op s.sizes s'.sizes)
    (hd : s.graph.Inside func d) (hk : s.graph.kind d = .upd) :
    s'.Spared o.target.maxLoadBits d :=
  hspared.imp (isRejected_mono hrejected) (Or.imp (fun hnone => hg ▸ hnone)
    fun ⟨hlight, hknown⟩ => ⟨hg ▸ hlight, known_of_light h hH hlight hd hk hsizes hknown⟩)

/-! ## Splices -/

section

variable (h : Upright s.graph gone func size) (hin : s.graph.Inside func op)
  (hrw : Rewrites o.ruleSet o.target.conversionTarget (AsksAtMost s.graph op) func gone s.sizes s
    op s' b old r)
include hrw

/-- A rewrite forgets sizes, and else what is remembered of others is what was remembered. -/
theorem Rewrites.get?_sizes (hne : d ≠ op) (hn : s'.sizes.get? d = some n) :
    s.sizes.get? d = some n := by
  obtain ⟨-, -, -, c, c', touched, -, hsizes, -, hforget⟩ := hrw.rule
  rw [hforget] at hn
  rw [← hsizes.get?_of_ne hne]
  exact AccessSizes.get?_of_invalidateAll hn

include h in
theorem Spared.rewritten {bound : Nat} (hspared : s.Spared bound d)
    (hd : s.graph.Inside func d) (hne : d ≠ op)
    (hfront : s.graph.kind op = .upd → s.graph.updOffset op < bound) : s'.Spared bound d := by
  refine hspared.imp (fun hrejected => ?_) (Or.imp (fun hnone => ?_) ?_)
  · exact isRejected_mono (hrw.rejected ▸ List.prefix_refl _) hrejected
  · rw [hrw.spliced.memAccess?_eq h.scene hrw.lawful hd, hnone]
    rfl
  · rintro ⟨hlight, hsizes⟩
    exact ⟨hlight.spliced hrw.spliced (hd.hasOp h.scene.consistent.toNestingAgrees) hne hfront,
      fun n hn => hsizes n (hrw.get?_sizes hne hn)⟩

theorem Rewrites.get?_kept (hne : d ≠ op) (hnone : s.sizes.get? d = none) :
    s'.sizes.get? d = none :=
  Option.eq_none_iff_forall_not_mem.mpr fun n hn => by
    rw [hrw.get?_sizes hne hn] at hnone
    cases hnone

/-- After a rewrite sizes are remembered of what is there, if they were before it. -/
theorem Rewrites.hasOp_of_get? (hkeys : ∀ d n, s.sizes.get? d = some n → s.graph.HasOp d)
    (hn : s'.sizes.get? d = some n) : s.graph.HasOp d := by
  by_cases hd : d = op
  · exact hd ▸ hrw.spliced.hasOp_op
  · exact hkeys d n (hrw.get?_sizes hd hn)

/-- Nothing is remembered of what was not there. -/
theorem Rewrites.get?_made (hkeys : ∀ d n, s.sizes.get? d = some n → s.graph.HasOp d) (i : Nat) :
    s'.sizes.get? ⟨s.graph.ops.size + i⟩ = none :=
  Option.eq_none_iff_forall_not_mem.mpr fun _ hn =>
    not_hasOp_add i (hrw.hasOp_of_get? hkeys hn)

include h hin

/-- A load is split into a load in front and one that starts behind, and that is all that reads
the one in front. -/
theorem Rewrites.halves (hk : s.graph.kind op = .upd) :
    r.all.map Draft.kind = [.upd, .upd] ∧
      s'.graph.updOffset ⟨s.graph.ops.size + 0⟩ = 0 ∧
      s'.graph.updOffset ⟨s.graph.ops.size + 1⟩ = o.target.maxLoadBits ∧
      ∃ slot, s'.graph.uses ⟨s.graph.values.size + 0⟩ = [⟨⟨s.graph.ops.size + 1⟩, slot⟩] := by
  obtain ⟨e', he', hroot, c, c', -, hrun, -⟩ := hrw.rule
  rw [rule_of_upd he' (hk ▸ hroot)] at hrun
  obtain ⟨access, -, ty, hall⟩ := split_of_run h.scene hin hrw.lawful hk hrun
  have hs := hrw.spliced
  have hlen : r.steps.length = 1 := by
    have := r.length_all
    rw [hall] at this
    simpa using this.symm
  have hlow : r.all[0]? = some (loadStep ty (.value access.source)
      (access.indices.map .value)) := by rw [hall]; rfl
  have hhigh : r.all[1]? = some (Instr.upd ty (.value access.source) (access.indices.map .value)
      (2 * o.target.nativeBits) 1 (some (.step 0))) := by rw [hall]; rfl
  refine ⟨by rw [hall]; rfl, ?_, ?_, access.indices.length + 1, ?_⟩
  · rw [updOffset, hs.attrs_made hlow]
    rfl
  · rw [updOffset, hs.attrs_made hhigh]
    rfl
  -- Of all operands of the two only the last one is the result of a step.
  rw [hs.after.uses_eq_singleton]
  intro u
  rw [hs.mem_uses_step hrw.lawful.visible h.reads (by omega)]
  constructor
  · rintro ⟨j, d, hd, huser, hslot⟩
    have hj : j = 0 ∨ j = 1 := by
      have := (List.getElem?_eq_some_iff.mp hd).1
      rw [hall] at this
      simp only [List.length_cons, List.length_nil] at this
      omega
    rcases hj with rfl | rfl
    · obtain rfl := Option.some.inj (hlow.symm.trans hd)
      have hmem := List.mem_of_getElem? hslot
      simp [loadStep, Instr.upd, Draft.withAttr, Draft.pureOp] at hmem
    · obtain rfl := Option.some.inj (hhigh.symm.trans hd)
      obtain ⟨user, slot⟩ := u
      dsimp only [Instr.upd, Draft.withAttr, Draft.pureOp, Option.toList_some] at huser hslot
      rw [List.getElem?_append] at hslot
      split at hslot
      · have hmem := List.mem_of_getElem? hslot
        simp at hmem
      · next hge =>
        rw [List.getElem?_singleton] at hslot
        split at hslot
        · next hzero =>
          rw [List.length_cons, List.length_map] at hge hzero
          rw [huser, Use.mk.injEq]
          exact ⟨rfl, by omega⟩
        · cases hslot
  · rintro rfl
    refine ⟨1, _, hhigh, rfl, ?_⟩
    simp [Instr.upd, Draft.withAttr, Draft.pureOp]

/-- The halves of a load that is split are settled. -/
theorem settled_of_split (hk : s.graph.kind op = .upd) {i : Nat} {e : Step}
    (he : r.all[i]? = some e) :
    (e.attrs.intOrZero AttrName.offset = 0 ∨
      e.attrs.intOrZero AttrName.offset = o.target.maxLoadBits) ∧
    s'.graph.Settled o.target.maxLoadBits ⟨s.graph.ops.size + i⟩ := by
  have hs := hrw.spliced
  obtain ⟨hall, hfront, hbehind, slot, huses⟩ := hrw.halves h hin hk
  have hoffset : s'.graph.updOffset ⟨s.graph.ops.size + i⟩ = e.attrs.intOrZero AttrName.offset := by
    rw [updOffset, hs.attrs_made he]
  have hlen : r.all.length = 2 := by
    have := congrArg List.length hall
    rwa [List.length_map] at this
  have hi : i = 0 ∨ i = 1 := by
    have := (List.getElem?_eq_some_iff.mp he).1
    omega
  have hhigh : s'.graph.kind ⟨s.graph.ops.size + 1⟩ = .upd := by
    obtain ⟨d, hd, hkind⟩ := Option.map_eq_some_iff.mp
      (show r.all[1]?.map Draft.kind = some .upd by rw [← List.getElem?_map, hall]; rfl)
    rw [hs.kind_made hd, hkind]
  -- The first half is read by the second one, and the second one has the offset itself.
  rcases hi with rfl | rfl
  · refine ⟨Or.inl (hoffset ▸ hfront), Or.inr (Or.inr ⟨_, hs.results_made he, ?_, ?_⟩)⟩
    · rw [huses]
      exact List.cons_ne_nil _ _
    · rw [huses, List.forall_mem_singleton]
      exact ⟨hhigh, Int.le_of_eq hbehind.symm⟩
  · exact ⟨Or.inr (hoffset ▸ hbehind), Or.inr (Or.inl (Int.le_of_eq hbehind.symm))⟩

/-- Both halves of a load that is split are spared. -/
theorem spared_of_split (hk : s.graph.kind op = .upd)
    (hkeys : ∀ d n, s.sizes.get? d = some n → s.graph.HasOp d) {i : Nat} {e : Step}
    (he : r.all[i]? = some e) : s'.Spared o.target.maxLoadBits ⟨s.graph.ops.size + i⟩ := by
  refine Or.inr (Or.inr ⟨(settled_of_split h hin hrw hk he).2.light, fun n hn => ?_⟩)
  rw [hrw.get?_made hkeys] at hn
  cases hn

end

/-! ## Visits -/

/-- What a visit does, where sizes are only asked for. -/
abbrev Goes (o : LowerOptions) (func : OpId) (gone : List OpId) (s : Application)
    (op : OpId) (s' : Application) : Prop :=
  Visited o.ruleSet o.target.conversionTarget (AsksAtMost s.graph op) func gone s.sizes s op s'

/-- Sizes are remembered of what is there. -/
theorem Goes.keys (h : s.Goes o func gone op s') (hop : s.graph.HasOp op)
    (hkeys : ∀ d n, s.sizes.get? d = some n → s.graph.HasOp d) :
    ∀ d n, s'.sizes.get? d = some n → s'.graph.HasOp d := by
  intro d n hn
  cases h with
  | same hg _ _ hsizes =>
    rw [hg]
    by_cases hd : d = op
    · exact hd ▸ hop
    · exact hkeys d n (hsizes.get?_of_ne hd ▸ hn)
  | rewritten b old r hrw =>
    exact hrw.spliced.hasOp_iff.mpr (Or.inl (hrw.hasOp_of_get? hkeys hn))

end Application

theorem goes_of_visit (h : Upright s.graph gone func size) (hin : s.graph.Inside func op)
    (hv : s.visitOp o.ruleSet o.target.conversionTarget op = .ok s') : s.Goes o func gone op s' :=
  LowerOptions.visited h hin (o.tracks_asks s.graph op) hv

end SimdLowering
