/-
What a lowering that leaves nothing behind has done with loads.

A lowering of a function in the generic vocabulary starts without loads. If it refuses nothing and
verification finds nothing that may not stay, there are no reads left; no read was too long, since
else a load would have been found that is; and so each load is settled at the end, or nobody has
asked for its size and verification has measured it as it is. In either case it is settled, and
may stay whatever else goes.

Since reads are short, what was remembered of a load is what it contributes at the end. So the size
of every load can be computed there, and no count gets too large.
-/
import SimdLowering.Proofs.Settled.Freshness
import SimdLowering.Proofs.Settled.Long

set_option autoImplicit false

namespace SimdLowering

open SimdLowering.Graph SimdLowering.Application SimdLowering.Rules

variable {o : LowerOptions} {g g₀ g' : Graph} {gone : List OpId} {func op x d : OpId}
  {size bound : Nat} {s s' t t' : Application} {rest : List OpId} {P : VectorShape → Prop}

/-! ## Visits -/

/-- If nothing has been refused by the end of a visit, nothing had been before it. -/
theorem rejected_of_visit (hI : Tended func size t) (hp : Pending g₀ t.graph func (op :: rest))
    (hv : t.visitOp o.ruleSet o.target.conversionTarget op = .ok t')
      (hrejected : t'.rejected = []) :
    t.rejected = [] := by
  have hprefix := rejected_of_visits hI.upright
    (.single ⟨op, hp.inside op (List.mem_cons_self ..), hv⟩)
  rw [hrejected] at hprefix
  exact List.prefix_nil.mp hprefix

/-- An idle read that is under the function stays there and idle. -/
theorem idleRead_visit (hI : Tended func size t) (hp : Pending g₀ t.graph func (op :: rest))
    (hv : t.visitOp o.ruleSet o.target.conversionTarget op = .ok t')
    (hidle : ∃ x, t.graph.Inside func x ∧ t.graph.kind x = .transferRead ∧ t.graph.IdleRead x) :
    ∃ x, t'.graph.Inside func x ∧ t'.graph.kind x = .transferRead ∧ t'.graph.IdleRead x := by
  obtain ⟨gone, hup⟩ := hI.upright
  have hin := hp.inside op (List.mem_cons_self ..)
  cases goes_of_visit hup hin hv with
  | same hg => exact hg ▸ hidle
  | rewritten b old r hrw =>
    obtain ⟨x, hx, hk, hidle⟩ := hidle
    refine ⟨x, (hrw.spliced.inside_iff hin).mpr (Or.inl ⟨hx, hrw.ne_of_idleRead hk hidle⟩), ?_,
      hidle.spliced hrw.spliced hup.scene hrw.lawful hx⟩
    rw [hrw.spliced.kind_of_hasOp (hx.hasOp hrw.spliced.before.toNestingAgrees), hk]

/-- The reads and loads under the function are of a kind with those there were. -/
theorem forall_shape_visit (hI : Tended func size t) (hp : Pending g₀ t.graph func (op :: rest))
    (hv : t.visitOp o.ruleSet o.target.conversionTarget op = .ok t')
    (h : ∀ d, t.graph.Inside func d → t.graph.kind d = .transferRead ∨ t.graph.kind d = .upd →
      ∀ shape, t.graph.resultShape? d = some shape → P shape) :
    ∀ d, t'.graph.Inside func d → t'.graph.kind d = .transferRead ∨ t'.graph.kind d = .upd →
      ∀ shape, t'.graph.resultShape? d = some shape → P shape := by
  obtain ⟨gone, hup⟩ := hI.upright
  have hin := hp.inside op (List.mem_cons_self ..)
  cases goes_of_visit hup hin hv with
  | same hg => exact hg ▸ h
  | rewritten b old r hrw =>
    exact fun d hd hk _ => hrw.spliced.forall_shape hin hrw.lawful h hd hk

/-! ## Rounds -/

section

variable (hI : Tended func size s)
  (hround : s.round o.ruleSet o.target.conversionTarget func = .ok s')
include hI hround

/-- What the first round leaves of a function without loads, if it refuses nothing. -/
theorem firstLoads_of_round (hnone : ∀ d, s.graph.Inside func d → s.graph.kind d ≠ .upd)
    (h : ∀ d, s.graph.Inside func d → s.graph.kind d = .transferRead →
      ∀ shape, s.graph.resultShape? d = some shape → P shape) (hrejected : s'.rejected = []) :
    FirstLoads func [] s' ∧
      ∀ d, s'.graph.Inside func d → s'.graph.kind d = .transferRead ∨ s'.graph.kind d = .upd →
        ∀ shape, s'.graph.resultShape? d = some shape → P shape := by
  obtain ⟨gone, hc, acyclic⟩ := hI.ground
  have hend := round_induction (J := fun rest t => t.rejected = [] → FirstLoads func rest t ∧
      ∀ d, t.graph.Inside func d → t.graph.kind d = .transferRead ∨ t.graph.kind d = .upd →
        ∀ shape, t.graph.resultShape? d = some shape → P shape)
    (tended_visitsKeep o func size) (fun _ h => h.ground) hI
    (fun _ => ⟨⟨fun x hx _ hxr => absurd ((mem_postorder hc acyclic).mpr hx) hxr,
      fun d hd hk => absurd hk (hnone d hd), fun d hd hk => absurd hk (hnone d hd)⟩,
      fun d hd hk => h d hd (hk.resolve_right (hnone d hd))⟩)
    (fun op rest t t' hI hp hJ hv hnil =>
      have ⟨hloads, hshape⟩ := hJ (rejected_of_visit hI hp hv hnil)
      ⟨hloads.visit hI hp hv hnil, forall_shape_visit hI hp hv hshape⟩) hround
  exact hend.1 hrejected

/-- A long read, too, is a long read or a long load at the end of the first round. -/
theorem isLong_of_round (hnone : ∀ d, s.graph.Inside func d → s.graph.kind d ≠ .upd)
    (hx : s.graph.Inside func x) (hlong : s.graph.IsLong bound x)
    (hk : s.graph.kind x = .transferRead) (hrejected : s'.rejected = []) :
    FirstLoads func [] s' ∧ ∃ x, s'.graph.Inside func x ∧ s'.graph.IsLong bound x ∧
      (s'.graph.kind x = .transferRead ∨ s'.graph.kind x = .upd) := by
  obtain ⟨gone, hc, acyclic⟩ := hI.ground
  have hend := round_induction (J := fun rest t => t.rejected = [] → FirstLoads func rest t ∧
      ∃ x, t.graph.Inside func x ∧ t.graph.IsLong bound x ∧
        (t.graph.kind x = .transferRead ∨ t.graph.kind x = .upd))
    (tended_visitsKeep o func size) (fun _ h => h.ground) hI
    (fun _ => ⟨⟨fun x hx _ hxr => absurd ((mem_postorder hc acyclic).mpr hx) hxr,
      fun d hd hk => absurd hk (hnone d hd), fun d hd hk => absurd hk (hnone d hd)⟩,
      x, hx, hlong, Or.inl hk⟩)
    (fun op rest t t' hI hp hJ hv hnil =>
      have ⟨hloads, hlong⟩ := hJ (rejected_of_visit hI hp hv hnil)
      ⟨hloads.visit hI hp hv hnil, isLong_visit hI hp hloads hv hlong⟩) hround
  exact hend.1 hrejected

/-- What a later round leaves. -/
theorem laterLoads_of_round (h : s.rejected = [] → LaterLoads o func (s.graph.postorder func) s)
    (hrejected : s'.rejected = []) : LaterLoads o func [] s' :=
  (round_induction (J := fun rest t => t.rejected = [] → LaterLoads o func rest t)
    (tended_visitsKeep o func size) (fun _ h => h.ground) hI h
    (fun _ _ _ _ hI hp hJ hv hnil => (hJ (rejected_of_visit hI hp hv hnil)).visit hI hp hv hnil)
    hround).1 hrejected

/-- A function that has an idle read or a load that is too long has one after a round. -/
theorem stuck_of_round (h : s.rejected = [] →
      (∃ x, s.graph.Inside func x ∧ s.graph.kind x = .transferRead ∧ s.graph.IdleRead x) ∨
        ∃ d v, Overlong o.target.maxLoadBits func (s.graph.postorder func) s d v)
    (hrejected : s'.rejected = []) :
    (∃ x, s'.graph.Inside func x ∧ s'.graph.kind x = .transferRead ∧ s'.graph.IdleRead x) ∨
      ∃ d v, Overlong o.target.maxLoadBits func [] s' d v :=
  (round_induction (J := fun rest t => t.rejected = [] →
      (∃ x, t.graph.Inside func x ∧ t.graph.kind x = .transferRead ∧ t.graph.IdleRead x) ∨
        ∃ d v, Overlong o.target.maxLoadBits func rest t d v)
    (tended_visitsKeep o func size) (fun _ h => h.ground) hI h
    (fun _ _ _ _ hI hp hJ hv hnil => (hJ (rejected_of_visit hI hp hv hnil)).imp
      (fun hidle => idleRead_visit hI hp hv hidle)
      fun ⟨_, _, hlong⟩ => hlong.visit hI hp hv hnil) hround).1 hrejected

end

/-- A load that is too long in one round is so at the start of the next. -/
theorem Overlong.again {v : ValueId} (hI : Tended func size s)
    (h : Overlong bound func [] s d v) : Overlong bound func (s.graph.postorder func) s d v := by
  obtain ⟨gone, hc, acyclic⟩ := hI.ground
  exact { h with readers := Or.inl ((mem_postorder hc acyclic).mpr h.inside) }

/-! ## All rounds -/

/-- Nothing that is nested may not stay, by sizes that are remembered or agree. -/
def Stays (o : LowerOptions) (func : OpId) (s : Application) : Prop :=
  ∀ x, s.graph.Inside func x → ∃ c verdict c',
    o.target.conversionTarget.legality s.graph x c = .ok (verdict, c') ∧ verdict ≠ .illegal ∧
      ∀ d n, c.get? d = some n → s.sizes.get? d = some n ∨ s.graph.accessSize d = .ok n

namespace Stays

variable (h : Stays o func s)
include h

theorem ne_transferRead (hx : s.graph.Inside func x) : s.graph.kind x ≠ .transferRead := by
  intro hk
  obtain ⟨c, verdict, c', hlegal, hstays, -⟩ := h x hx
  rw [Generation.legality_transferRead hk] at hlegal
  cases hlegal
  exact hstays rfl

/-- If what is remembered is what loads contribute, this can be computed of all that stay. -/
theorem exists_accessSize (hagrees : s.sizes.Agrees s.graph) (hx : s.graph.Inside func x)
    (hk : s.graph.kind x = .upd) : ∃ n, s.graph.accessSize x = .ok n := by
  obtain ⟨c, verdict, c', hlegal, -, hknown⟩ := h x hx
  obtain ⟨n, hquery, -⟩ := Generation.legality_upd hk hlegal
  rcases AccessSizes.query_eq_ok.mp hquery with ⟨hget, -⟩ | ⟨-, hsize, -⟩
  · exact ⟨n, (hknown x n hget).elim (hagrees x n) id⟩
  · exact ⟨n, hsize⟩

/-- A load that stays and of which nothing is remembered contributes no more than it may. -/
theorem accessSize_le (hx : s.graph.Inside func x) (hk : s.graph.kind x = .upd)
    (hnone : s.sizes.get? x = none) :
    ∃ n, s.graph.accessSize x = .ok n ∧ n ≤ o.target.maxLoadBits := by
  obtain ⟨c, verdict, c', hlegal, hstays, hknown⟩ := h x hx
  obtain ⟨n, hquery, hverdict⟩ := Generation.legality_upd hk hlegal
  have hle : n ≤ o.target.maxLoadBits := by
    by_contra hgt
    exact hstays (hverdict.trans (if_neg hgt))
  refine ⟨n, ?_, hle⟩
  rcases AccessSizes.query_eq_ok.mp hquery with ⟨hget, -⟩ | ⟨-, hsize, -⟩
  · refine (hknown x n hget).resolve_left fun hold => ?_
    rw [hnone] at hold
    cases hold
  · exact hsize

end Stays

section

variable (hI : Tended func size s) (hnone : ∀ d, s.graph.Inside func d → s.graph.kind d ≠ .upd)
  {left done : Nat} {y : Application × Nat × Bool}
  (hrounds : rounds o.ruleSet o.target.conversionTarget func left done s = .ok y)
  (hrejected : y.1.rejected = []) (hstays : Stays o func y.1)
include hI hnone hrounds hrejected hstays

/-- A function with a long read does not come out of any number of rounds with nothing left that
may not stay. -/
theorem not_isLong_of_rounds (hx : s.graph.Inside func x) (hk : s.graph.kind x = .transferRead) :
    ¬ s.graph.IsLong o.target.maxLoadBits x := by
  intro hlong
  have hend := rounds_induction (K := fun t => t.rejected = [] →
      (∃ x, t.graph.Inside func x ∧ t.graph.kind x = .transferRead ∧ t.graph.IdleRead x) ∨
        ∃ d v, Overlong o.target.maxLoadBits func (t.graph.postorder func) t d v)
    (tended_visitsKeep o func size) (fun _ h => h.ground) hI
    (fun t hround ht hnil => by
      obtain ⟨hloads, x, hx, hlong, hk | hk⟩ := isLong_of_round hI hround hnone hx hlong hk hnil
      · exact Or.inl ⟨x, hx, hk, hloads.reads x hx hk List.not_mem_nil⟩
      · exact Or.inr (hloads.overlong ht hx hlong hk))
    (fun t t' ht hK hround ht' hnil => (stuck_of_round ht hround hK hnil).imp_right
      fun ⟨d, v, hlong⟩ => ⟨d, v, hlong.again ht'⟩) hrounds
  rcases hend with hsame | hend
  · rw [hsame] at hstays
    exact hstays.ne_transferRead hx hk
  rcases hend hrejected with ⟨x, hx, hk, -⟩ | ⟨d, v, h⟩
  · exact hstays.ne_transferRead hx hk
  · obtain ⟨n, hsize, hle⟩ := hstays.accessSize_le h.inside h.kind h.unknown
    have := h.long.lt_accessSize h.results h.front h.carried hsize
    omega

/-- So its reads were short. -/
theorem short_of_rounds (hx : s.graph.Inside func x) (hk : s.graph.kind x = .transferRead)
    {shape : VectorShape} (hshape : s.graph.resultShape? x = some shape) :
    shape.bits ≤ 2 * o.target.maxLoadBits := by
  by_contra hlong
  exact not_isLong_of_rounds hI hnone hrounds hrejected hstays hx hk
    ⟨shape, hshape, Nat.lt_of_not_le hlong⟩

/-- Rounds after which nothing is left that may not stay leave loads that are settled. -/
theorem settled_of_rounds : y.1.graph.Halved func o.target.maxLoadBits ∧
    ∀ d, y.1.graph.Inside func d → y.1.graph.kind d = .upd →
      y.1.graph.Settled o.target.maxLoadBits d := by
  have hshort : ∀ d, s.graph.Inside func d → s.graph.kind d = .transferRead →
      ∀ shape, s.graph.resultShape? d = some shape → shape.bits ≤ 2 * o.target.maxLoadBits :=
    fun _ hd hk _ => short_of_rounds hI hnone hrounds hrejected hstays hd hk
  -- After the first round every load is a short one, and each further round keeps that.
  have hend := rounds_induction
    (I := Tended func size)
    (K := fun t => Tended func size t ∧ (t.rejected = [] →
      LaterLoads o func (t.graph.postorder func) t))
    (tended_visitsKeep o func size) (fun _ h => h.ground) hI
    (fun t hround ht => ⟨ht, fun hnil => by
      obtain ⟨hloads, hshape⟩ := firstLoads_of_round hI hround hnone hshort hnil
      exact hloads.later ht hshape⟩)
    (fun t t' ht hK hround ht' =>
      ⟨ht', fun hnil => (laterLoads_of_round ht hround hK.2 hnil).again⟩) hrounds
  rcases hend with hsame | ⟨ht, hend⟩
  · rw [hsame]
    exact ⟨⟨fun d hd hk => hshort d hd (hk.resolve_right (hnone d hd)),
      fun d hd hk => absurd hk (hnone d hd)⟩, fun d hd hk => absurd hk (hnone d hd)⟩
  have h := hend hrejected
  obtain ⟨gone, hup⟩ := ht.upright
  refine ⟨h.halved, fun d hd hk => ?_⟩
  -- A load that was not visited again has stayed because it was light.
  rcases h.loads d hd hk with ha | hquiet
  · obtain ⟨n, hsize, hle⟩ := hstays.accessSize_le hd hk ha.unknown
    exact ha.settled_of_light o.target.maxLoadBits_bounds.1
      ((light_iff_of_upright hup h.halved hd hk hsize).mp hle)
  · exact hquiet.settled

end

section

variable {report : LowerReport} (hg : Upright g gone func g.ops.size)
  (h : g.lower func o = .ok (g', .ok report)) (hleft : report.remaining = [])
include hg h hleft

/-- A lowering that leaves nothing illegal behind has made rounds that refused nothing, after which
all may stay. -/
theorem stays_of_lower : g.kind func = .func ∧ ∃ s n fixpoint,
    rounds o.ruleSet o.target.conversionTarget func o.maxIterations 0 (.start g .empty) =
      .ok (s, n, fixpoint) ∧ s.graph = g' ∧ s.rejected = [] ∧ Stays o func s ∧
      Tended func g.ops.size (.start g .empty) := by
  obtain ⟨-, ⟨-, -, hanswer⟩ | ⟨hfunc, s, n, fixpoint, hrounds, hgraph, hanswer⟩⟩ := lower_eq_ok h
  · cases hanswer
  cases hanswer with
  | done ops sizes hrejected hverify _ =>
    obtain rfl : ops = [] := hleft
    exact ⟨hfunc, s, n, fixpoint, hrounds, hgraph, hrejected,
      fun x hx => Generation.stays_of_verify hverify (mem_nested_iff.mpr hx), ⟨gone, hg⟩, nofun⟩

variable (hnone : ∀ d, g.Inside func d → g.kind d ≠ .upd)
include hnone

/-- A function without loads that was lowered so had no long reads. -/
theorem not_isLong_of_lower (hx : g.Inside func x) (hk : g.kind x = .transferRead) :
    ¬ g.IsLong o.target.maxLoadBits x := by
  obtain ⟨-, s, n, fixpoint, hrounds, -, hrejected, hstays, hI⟩ := stays_of_lower hg h hleft
  exact not_isLong_of_rounds hI hnone hrounds hrejected hstays hx hk

/-- A lowering of a function without loads that refuses nothing and leaves nothing illegal behind
leaves loads that are settled and can be measured, and else only what may stay by whatever sizes. -/
theorem lower_settles : (∃ gone', Upright g' gone' func g.ops.size) ∧ g'.kind func = .func ∧
      g'.Halved func o.target.maxLoadBits ∧
      (∀ d, g'.Inside func d → g'.kind d = .upd →
        g'.Settled o.target.maxLoadBits d ∧ ∃ n, g'.accessSize d = .ok n) ∧
      ∀ x, g'.Inside func x → g'.kind x ≠ .upd → ∀ c, ∃ verdict,
        o.target.conversionTarget.legality g' x c = .ok (verdict, c) ∧ verdict ≠ .illegal := by
  obtain ⟨hfunc, s, n, fixpoint, hrounds, rfl, hrejected, hstays, hI⟩ := stays_of_lower hg h hleft
  obtain ⟨hvisits, hend⟩ := rounds_visits (tended_visitsKeep o func g.ops.size)
    (fun _ h => h.ground) hI hrounds
  obtain ⟨gone', hup⟩ := hend.upright
  obtain ⟨hhalved, hsettled⟩ := settled_of_rounds hI hnone hrounds hrejected hstays
  have hlayered : g.Layered func o.target.maxLoadBits := .of_unloaded hnone fun d hd hk _ =>
    short_of_rounds hI hnone hrounds hrejected hstays hd hk
  have hfresh := (fresh_visitsKeep o func g.ops.size).visits (.start hg hlayered) hvisits
  refine ⟨⟨gone', hup⟩, ?_, hhalved, fun d hd hk =>
    ⟨hsettled d hd hk, hstays.exists_accessSize hfresh.agrees hd hk⟩, fun x hx hk c => ?_⟩
  · exact (kind_of_visits ⟨gone, hg⟩ hvisits hg.root).2.trans hfunc
  · obtain ⟨c₀, verdict, c', hlegal, hnot, -⟩ := hstays x hx
    exact ⟨verdict, Generation.legality_of_not_load hk hlegal c, hnot⟩

end

end SimdLowering
