/-
Loads that are too long to fit.

To split a load takes from it what one load may contribute, and of a load that is longer than
twice that, too much is left over. It is split again in the next round and the next, and each time
there is again a load in front that nobody has asked about, that only the new half behind carries,
and that contributes too much. So as long as nothing is refused, a function with such a read never
comes to rest, and verification finds a load that may not stay.

A size is a 32-bit count. Where a load has more bits than that its size is not computed, and there
is no run to speak of.
-/
import SimdLowering.Proofs.Settled.Loads

set_option autoImplicit false

namespace SimdLowering

open SimdLowering.Graph SimdLowering.Application SimdLowering.Rules

variable {o : LowerOptions} {g g₀ g' : Graph} {gone : List OpId} {func op x d : OpId}
  {size n bound : Nat} {s t t' : Application} {b : BlockId} {v old : ValueId} {r : Recipe}
  {rest : List OpId}

namespace Graph

/-- The result of the operation is longer than two loads may be. -/
def IsLong (g : Graph) (bound : Nat) (d : OpId) : Prop :=
  ∃ shape, g.resultShape? d = some shape ∧ 2 * bound < shape.bits

/-- A long load in front contributes too much, if no more than one load that starts behind
carries it. -/
theorem IsLong.lt_accessSize (h : g.IsLong bound d) (hres : g.results d = [v])
    (hfront : g.updOffset d = 0) (hcarried : g.carried v = 0 ∨ g.carried v = bound)
    (hn : g.accessSize d = .ok n) : bound < n := by
  obtain ⟨shape, hshape, hlong⟩ := h
  obtain ⟨hword, rfl⟩ := size_of_accessSize (v := v) (by rw [hres]; rfl) hn
  have hword := hword shape hshape
  rw [hshape, hfront]
  simp only [Option.map_some, Option.getD_some, Int.sub_zero]
  rw [Nat.mod_eq_of_lt (by omega)]
  omega

end Graph

/-- The load contributes too much, nobody has asked for its size, and this will not change before
its turn comes: that is still to come, or only loads that have been visited read it. -/
structure Overlong (bound : Nat) (func : OpId) (rest : List OpId) (s : Application) (d : OpId)
    (v : ValueId) : Prop where
  inside : s.graph.Inside func d
  kind : s.graph.kind d = .upd
  results : s.graph.results d = [v]
  addressed : s.graph.Addressed d
  long : s.graph.IsLong bound d
  front : s.graph.updOffset d = 0
  unknown : s.sizes.get? d = none
  carried : s.graph.carried v = 0 ∨ s.graph.carried v = bound
  readers : d ∈ rest ∨ ∀ u ∈ s.graph.uses v, s.graph.kind u.user = .upd ∧ u.user ∉ rest

namespace Overlong

/-- A visit that refuses nothing does not leave the load alone. -/
theorem not_idle (h : Overlong o.target.maxLoadBits func (op :: rest) t op v)
    (hrejected : t'.rejected = []) : ¬ Idle o.ruleSet o.target.conversionTarget
      (AsksAtMost t.graph op) t.sizes t op t' := by
  intro hidle
  rcases unsplit_of_idle h.kind h.unknown hidle with hnoted | hnone | ⟨n, hsize, hle⟩
  · rw [isRejected, hrejected] at hnoted
    cases hnoted
  · obtain ⟨access, haccess⟩ := h.addressed
    rw [haccess] at hnone
    cases hnone
  · have := h.long.lt_accessSize h.results h.front h.carried hsize
    omega

section

variable (hp : Pending g₀ t.graph func (op :: rest)) (hup : Upright t.graph gone func size)
  (hrw : Rewrites o.ruleSet o.target.conversionTarget (AsksAtMost t.graph op) func gone t.sizes t op
    t' b old r)
include hp hup hrw

/-- Of a load that is split, half is left that contributes too much. -/
theorem split (hkeys : ∀ d n, t.sizes.get? d = some n → t.graph.HasOp d)
    (h : Overlong o.target.maxLoadBits func (op :: rest) t op v) :
    ∃ d v, Overlong o.target.maxLoadBits func rest t' d v := by
  have hin := hp.inside op (List.mem_cons_self ..)
  have hs := hrw.spliced
  -- The load is replaced by two halves in a chain, and the first one is as long as it was.
  obtain ⟨hall, hfront, hbehind, slot, huses⟩ := hrw.halves hup hin h.kind
  have halves : ∀ (i : Nat), i < 2 → ∃ e, r.all[i]? = some e ∧ e.kind = .upd := by
    intro i hi
    have : (r.all.map Draft.kind)[i]? = some .upd := by
      rw [hall]
      match i, hi with
      | 0, _ => rfl
      | 1, _ => rfl
    rw [List.getElem?_map] at this
    exact Option.map_eq_some_iff.mp this
  obtain ⟨low, hlow, hlowKind⟩ := halves 0 (by omega)
  obtain ⟨high, hhigh, hhighKind⟩ := halves 1 (by omega)
  have hkind : t'.graph.kind ⟨t.graph.ops.size + 1⟩ = .upd := by
    rw [hs.kind_made hhigh, hhighKind]
  obtain ⟨shape, hshape, hbits⟩ := h.long
  -- The second half is its only reader, so its offset is all that the first one carries.
  refine ⟨⟨t.graph.ops.size + 0⟩, ⟨t.graph.values.size + 0⟩,
    (hs.inside_iff hin).mpr (Or.inr (mem_nextOps_all.mpr ⟨0, low, hlow, rfl⟩)), ?_,
    hs.results_made hlow, hrw.addressed hup.scene hin hlow hlowKind, ⟨shape, ?_, hbits⟩, hfront,
    hrw.get?_made hkeys 0, Or.inr ?_, Or.inr ?_⟩
  · rw [hs.kind_made hlow, hlowKind]
  · rw [(hs.resultShape?_of_upd hrw.lawful hlow hlowKind).2, hshape]
  · rw [Graph.carried, huses, List.filter_cons_of_pos (by simp [hkind]), List.filter_nil,
      totalOffset_cons, totalOffset_nil, Int.add_zero, hbehind]
  · rw [huses, List.forall_mem_singleton]
    refine ⟨hkind, fun hmem => not_hasOp_add (g := t.graph) 1 ?_⟩
    exact (hp.tail.inside _ hmem).hasOp hs.before.toNestingAgrees

/-- A rewrite elsewhere changes nothing about it. -/
theorem rewritten (h : Overlong o.target.maxLoadBits func (op :: rest) t d v) (hne : d ≠ op) :
    Overlong o.target.maxLoadBits func rest t' d v := by
  have hin := hp.inside op (List.mem_cons_self ..)
  have hs := hrw.spliced
  have hc := hs.before
  have hop := h.inside.hasOp hc.toNestingAgrees
  have hv : v ∈ t.graph.results d := by simp [h.results]
  have huses : ∀ u, u ∈ t'.graph.uses v ↔ u ∈ t.graph.uses v := by
    intro u
    rcases h.readers with hmem | hall
    · exact hp.mem_uses_spliced hup.scene hs hrw.lawful
        ((List.mem_cons.mp hmem).resolve_left hne) hv
    · -- Those that read it have been visited, and are nothing to look through.
      refine hs.mem_uses_of_opaque hin hrw.lawful (hc.hasValue_of_mem_results hv) ?_ ?_
      · rintro rfl
        exact hne (hs.eq_of_old_mem_results hv)
      · intro p hpin hmem
        obtain ⟨w, hw, rfl⟩ := hc.mem_uses_of_mem_operands (hup.scene.not_mem_gone hpin hmem) hmem
        obtain ⟨hk, hnot⟩ := hall w hw
        exact ⟨fun e => hnot (e ▸ List.mem_cons_self ..), by rw [hk]; rfl⟩
  have hsame : ∀ u ∈ t.graph.uses v, t'.graph.kind u.user = t.graph.kind u.user ∧
      t'.graph.updOffset u.user = t.graph.updOffset u.user := by
    intro u hu
    have hreader := hasOp_of_mem_operands (hc.mem_operands_of_mem_uses hu)
    exact ⟨hs.kind_of_hasOp hreader, by rw [updOffset, updOffset, hs.attrs_of_hasOp hreader]⟩
  refine ⟨(hs.inside_iff hin).mpr (Or.inl ⟨h.inside, hne⟩), ?_, ?_,
    h.addressed.spliced hs hup.scene hrw.lawful h.inside, ?_, ?_, hrw.get?_kept hne h.unknown,
      ?_, ?_⟩
  · rw [hs.kind_of_hasOp hop, h.kind]
  · rw [hs.results_of_hasOp hop, h.results]
  · obtain ⟨shape, hshape, hbits⟩ := h.long
    exact ⟨shape, by rw [hs.resultShape?_of_hasOp hop, hshape], hbits⟩
  · rw [updOffset, hs.attrs_of_hasOp hop]
    exact h.front
  · rw [carried_congr hc hs.after (fun u => ?_) fun u hu _ => (hsame u hu).2]
    · exact h.carried
    · rw [huses]
      exact and_congr_right fun hu => by rw [(hsame u hu).1]
  · refine h.readers.imp (fun hmem => (List.mem_cons.mp hmem).resolve_left hne) fun hall u hu => ?_
    have hu := (huses u).mp hu
    obtain ⟨hk, hnot⟩ := hall u hu
    exact ⟨(hsame u hu).1.trans hk, fun hmem => hnot (List.mem_cons_of_mem _ hmem)⟩

end

/-- After a visit there is a load that contributes too much, if there was one. -/
theorem visit (hI : Tended func size t) (hp : Pending g₀ t.graph func (op :: rest))
    (h : Overlong o.target.maxLoadBits func (op :: rest) t d v)
    (hv : t.visitOp o.ruleSet o.target.conversionTarget op = .ok t')
      (hrejected : t'.rejected = []) :
    ∃ d v, Overlong o.target.maxLoadBits func rest t' d v := by
  obtain ⟨gone, hup⟩ := hI.upright
  have hin := hp.inside op (List.mem_cons_self ..)
  by_cases e : d = op
  · subst e
    cases goes_of_visit hup hin hv with
    | same _ _ _ _ hidle => exact absurd hidle (h.not_idle hrejected)
    | rewritten b old r hrw => exact h.split hp hup hrw hI.keys
  · cases goes_of_visit hup hin hv with
    | same hg _ _ hsizes _ =>
      refine ⟨d, v, hg ▸ h.inside, hg ▸ h.kind, hg ▸ h.results, hg ▸ h.addressed, hg ▸ h.long,
        hg ▸ h.front, ?_, hg ▸ h.carried, ?_⟩
      · rw [hsizes.get?_of_ne e, h.unknown]
      · rw [hg]
        exact h.readers.imp (fun hmem => (List.mem_cons.mp hmem).resolve_left e) fun hall u hu =>
          (hall u hu).imp_right fun hnot hmem => hnot (List.mem_cons_of_mem _ hmem)
    | rewritten b old r hrw => exact ⟨d, v, h.rewritten hp hup hrw e⟩

end Overlong

/-! ## The first round -/

/-- A long read stays a long read or becomes long loads. -/
theorem isLong_visit (hI : Tended func size t) (hp : Pending g₀ t.graph func (op :: rest))
    (h : FirstLoads func (op :: rest) t)
    (hv : t.visitOp o.ruleSet o.target.conversionTarget op = .ok t')
    (hlong : ∃ x, t.graph.Inside func x ∧ t.graph.IsLong bound x ∧
      (t.graph.kind x = .transferRead ∨ t.graph.kind x = .upd)) :
    ∃ x, t'.graph.Inside func x ∧ t'.graph.IsLong bound x ∧
      (t'.graph.kind x = .transferRead ∨ t'.graph.kind x = .upd) := by
  obtain ⟨gone, hup⟩ := hI.upright
  have hin := hp.inside op (List.mem_cons_self ..)
  cases goes_of_visit hup hin hv with
  | same hg => exact hg ▸ hlong
  | rewritten b old r hrw =>
    have hs := hrw.spliced
    obtain ⟨x, hx, ⟨shape, hshape, hbits⟩, hk⟩ := hlong
    -- A read becomes a load of the same type; what is not rewritten stays as long as it is.
    by_cases e : x = op
    · subst e
      have hread : t.graph.kind x = .transferRead := hk.resolve_right fun hk =>
        (h.loads x hin hk).1 (List.mem_cons_self ..)
      obtain ⟨entry, hentry, hroot, c, c', -, hrun, -⟩ := hrw.rule
      rw [rule_of_transferRead hentry (hread ▸ hroot)] at hrun
      obtain ⟨-, -, -, e, hmem, hload⟩ := plain_of_run hup.scene hin hrw.lawful hread hrun
      obtain ⟨i, he⟩ := List.mem_iff_getElem?.mp hmem
      refine ⟨⟨t.graph.ops.size + i⟩,
        (hs.inside_iff hin).mpr (Or.inr (mem_nextOps_all.mpr ⟨i, e, he, rfl⟩)),
        ⟨shape, ?_, hbits⟩, Or.inr ?_⟩
      · rw [(hs.resultShape?_of_upd hrw.lawful he hload).2, hshape]
      · rw [hs.kind_made he, hload]
    · have hop := hx.hasOp hs.before.toNestingAgrees
      refine ⟨x, (hs.inside_iff hin).mpr (Or.inl ⟨hx, e⟩), ⟨shape, ?_, hbits⟩, ?_⟩
      · rw [hs.resultShape?_of_hasOp hop, hshape]
      · rwa [hs.kind_of_hasOp hop]

/-- A long load that comes out of the first round contributes too much. -/
theorem FirstLoads.overlong (hI : Tended func size s) (h : FirstLoads func [] s)
    (hx : s.graph.Inside func x) (hlong : s.graph.IsLong bound x) (hk : s.graph.kind x = .upd) :
    ∃ d v, Overlong bound func (s.graph.postorder func) s d v := by
  obtain ⟨gone, hup⟩ := hI.upright
  have hc := hup.scene.consistent
  obtain ⟨v, hres⟩ := hup.scene.single_of_kind hx (by rw [hk]; decide) (by rw [hk]; decide)
  obtain ⟨-, hfront, hnone⟩ := h.loads x hx hk
  refine ⟨x, v, hx, hk, hres, h.addressed x hx hk, hlong, hfront, hnone, Or.inl ?_,
    Or.inl ((mem_postorder hc hup.valid.acyclic).mpr hx)⟩
  -- All loads that may carry it start in front.
  refine totalOffset_eq_zero fun u hu => ?_
  obtain ⟨hu, hku⟩ := mem_filter_loads.mp hu
  obtain ⟨hin, -⟩ := (hup.valid.mem_uses hc (Or.inr ⟨x, hx, by simp [hres]⟩)).mp hu
  exact (h.loads u.user hin hku).2.1

end SimdLowering
