/-
One sweep is enough, and it drops what nobody needs.

An operation is needed if a chain of readers leads from it to one that stays whatever happens: a
return, an owner of regions, or an operation that does not lie under the root. A sweep takes a
block from its end, and what is nested in a block before the block itself. So when it comes to
an operation it has been to everything that can read the results, and knows of each reader
whether it is needed: those that are not have been dropped by then. Hence the operation is read
exactly if it is needed, and it is dropped exactly if it is not.

After one sweep nothing is dead, a second one finds nothing to do, and the budget makes no
difference.
-/
import SimdLowering.Proofs.Graph.DeadCode
import SimdLowering.Proofs.Graph.Postorder
import Mathlib.Logic.Relation

set_option autoImplicit false

namespace SimdLowering

namespace Graph

variable {g g₀ g' : Graph} {gone dropped : List OpId} {root o p x y z : OpId} {b c : BlockId}
  {r s : RegionId} {v : ValueId} {n m depth : Nat} {t : Graph × Nat} {D D' : OpId → Prop}

/-! ## Nesting with fewer operations -/

namespace Cleared

variable (h : Cleared g g')
include h

/-- The regions under a root are those that were there, since owners stay. -/
theorem under_iff : g'.Under root n s ↔ g.Under root n s := by
  constructor
  · intro hu
    induction hu with
    | own hr => exact .own (h.regionsOf root ▸ hr)
    | inner _ hb ho hs ih =>
      exact .inner ih (h.blocksIn _ ▸ hb) ((h.opsIn _).subset ho) (h.regionsOf _ ▸ hs)
  · intro hu
    induction hu with
    | own hr => exact .own ((h.regionsOf root).symm ▸ hr)
    | inner _ hb ho hs ih =>
      exact .inner ih ((h.blocksIn _).symm ▸ hb) (h.owners _ _ ho (List.ne_nil_of_mem hs))
        ((h.regionsOf _).symm ▸ hs)

/-- Blocks are under the root as they were. -/
theorem holdsBlock_iff : g'.HoldsBlock root c ↔ g.HoldsBlock root c := by
  simp only [HoldsBlock, h.under_iff, h.blocksIn]

/-- Nothing comes in. -/
theorem inside (ho : g'.Inside root o) : g.Inside root o := by
  obtain ⟨c, hc, ho⟩ := ho
  exact ⟨c, h.holdsBlock_iff.mp hc, (h.opsIn c).subset ho⟩

end Cleared

/-- The operation lies in the block or is nested in an operation of it. -/
def BelowBlock (g : Graph) (b : BlockId) (x : OpId) : Prop :=
  ∃ o ∈ g.opsIn b, ∃ n, g.Within n o x

/-- The operation lies in a block of the region or is nested in an operation of one. -/
def Below (g : Graph) (r : RegionId) (x : OpId) : Prop := ∃ b ∈ g.blocksIn r, g.BelowBlock b x

/-- What is nested in an operation is below one of its regions. -/
theorem exists_below_iff : (∃ s ∈ g.regionsOf p, g.Below s x) ↔ ∃ n, g.Within (n + 1) p x := by
  constructor
  · rintro ⟨s, hs, c, hc, o, ho, n, hw⟩
    have hfirst : g.Within 1 p o := .deeper (.self p) hs hc ho
    exact ⟨n, Nat.add_comm 1 n ▸ hfirst.trans hw⟩
  · rintro ⟨n, hw⟩
    obtain ⟨s, c, o, hs, hc, ho, hw⟩ := hw.first
    exact ⟨s, hs, c, hc, o, ho, n, hw⟩

/-! ## What is needed -/

/-- The second operation reads a result of the first one and has not been removed. -/
def Feeds (g : Graph) (gone : List OpId) (x y : OpId) : Prop :=
  y ∉ gone ∧ ∃ v ∈ g.results x, v ∈ g.operands y

/-- The operation stays, whoever reads it: it returns, or owns a region, or does not lie under
the root. -/
def Stays (g : Graph) (root o : OpId) : Prop :=
  g.kind o = .ret ∨ g.regionsOf o ≠ [] ∨ ¬ g.Inside root o

/-- A chain of readings leads from the operation to one that stays; it may have no links. -/
def Needed (g : Graph) (gone : List OpId) (root x : OpId) : Prop :=
  ∃ y, Relation.ReflTransGen (g.Feeds gone) x y ∧ g.Stays root y

/-- What stays for its own sake is needed. -/
theorem Stays.needed (h : g.Stays root x) : g.Needed gone root x := ⟨x, .refl, h⟩

/-- And so is what feeds what is needed. -/
theorem Feeds.needed (h : g.Feeds gone x y) (hy : g.Needed gone root y) :
    g.Needed gone root x := by
  obtain ⟨z, hchain, hz⟩ := hy
  exact ⟨z, .head h hchain, hz⟩

/-- What is needed and does not stay by itself has a reader that is needed. -/
theorem Needed.stays_or_feeds (h : g.Needed gone root x) :
    g.Stays root x ∨ ∃ y, g.Feeds gone x y ∧ g.Needed gone root y := by
  obtain ⟨z, hchain, hz⟩ := h
  rcases hchain.cases_head with rfl | ⟨y, hxy, hchain⟩
  · exact Or.inl hz
  · exact Or.inr ⟨y, hxy, z, hchain, hz⟩

/-! ## What a sweep has been to -/

/-- A sweep that began with `g₀` has been to the operations of `D`, among which those count that
do not lie under the root. It has dropped those of a list, which nobody needs, and has left the
others, which are needed. -/
structure Sweeping (g₀ : Graph) (gone : List OpId) (root : OpId) (D : OpId → Prop)
    (t : Graph × Nat) (dropped : List OpId) : Prop where
  cleared : Cleared g₀ t.1
  consistent : Consistent t.1 (dropped ++ gone)
  opsIn : ∀ c, t.1.opsIn c = (g₀.opsIn c).filter fun o => o ∉ dropped
  nodup : dropped.Nodup
  count : t.2 = dropped.length
  outside : ∀ x, ¬ g₀.Inside root x → D x
  needless : ∀ x ∈ dropped, D x ∧ g₀.Inside root x ∧ ¬ g₀.Needed gone root x
  needed : ∀ x, D x → x ∉ dropped → g₀.Needed gone root x

/-- A sweep has been to the operations of `D`, whatever it has dropped. -/
def Swept (g₀ : Graph) (gone : List OpId) (root : OpId) (D : OpId → Prop) (t : Graph × Nat) :
    Prop :=
  ∃ dropped, Sweeping g₀ gone root D t dropped

namespace Sweeping

/-- A block has lost what was dropped. -/
theorem mem_opsIn (h : Sweeping g₀ gone root D t dropped) :
    o ∈ t.1.opsIn c ↔ o ∈ g₀.opsIn c ∧ o ∉ dropped := by
  simp [h.opsIn]

/-- Who is on a chain has read the value from the start and has not been dropped. -/
theorem reader (h : Sweeping g₀ gone root D t dropped) {u : Use} (hu : u ∈ t.1.uses v) :
    u.user ∉ dropped ∧ u.user ∉ gone ∧ v ∈ g₀.operands u.user := by
  obtain ⟨hlive, hslot⟩ := (h.consistent.reads v u).mp hu
  rw [List.mem_append, not_or] at hlive
  rw [h.cleared.operands] at hslot
  exact ⟨hlive.1, hlive.2, List.mem_of_getElem? hslot⟩

/-- The sweep gets to one more operation. It has been to all that read the results. -/
theorem sweepOp (h : Sweeping g₀ gone root D t dropped) (hz : z ∈ t.1.opsIn b)
    (hin : g₀.Inside root z) (fresh : ¬ D z)
    (readers : ∀ v ∈ t.1.results z, ∀ u ∈ t.1.uses v, D u.user) :
    ∃ t', Graph.sweepOp b t z = .ok t' ∧ Swept g₀ gone root (fun x => D x ∨ x = z) t' := by
  by_cases hdead : t.1.isDead z = true
  · obtain ⟨g', hrun, hd⟩ := sweepOp_dead (n := t.2) h.consistent hz hdead
    refine ⟨(g', t.2 + 1), hrun, z :: dropped, ?_⟩
    constructor
    case cleared => exact h.cleared.trans hd.cleared
    case consistent => exact hd.after
    case opsIn =>
      intro c
      rw [hd.opsIn, h.opsIn, List.filter_filter]
      apply List.filter_congr
      intro o _
      by_cases ho : o = z <;> simp [ho]
    case nodup => exact List.nodup_cons.mpr ⟨fun hmem => fresh (h.needless z hmem).1, h.nodup⟩
    case count => simp [h.count]
    case outside => exact fun x hx => Or.inl (h.outside x hx)
    case needless =>
      intro x hx
      rcases List.mem_cons.mp hx with rfl | hx
      · refine ⟨Or.inr rfl, hin, fun hneed => ?_⟩
        rcases hneed.stays_or_feeds with hstays | ⟨y, ⟨hlive, v, hv, hread⟩, hy⟩
        · -- What is dropped is no return and owns nothing.
          rw [Stays, ← h.cleared.kind, ← h.cleared.regionsOf] at hstays
          simp [hd.proceeds, hd.bare, hin] at hstays
        · -- A reader that is needed has not been dropped and is on the chain.
          have hstill : y ∉ dropped ++ gone := by
            rw [List.mem_append, not_or]
            exact ⟨fun hmem => (h.needless y hmem).2.2 hy, hlive⟩
          rw [← h.cleared.operands] at hread
          rw [← h.cleared.results] at hv
          exact hd.not_mem_results hstill hread hv
      · exact ⟨Or.inl (h.needless x hx).1, (h.needless x hx).2⟩
    case needed =>
      rintro x (hx | rfl) hmem
      · exact h.needed x hx fun hx => hmem (List.mem_cons_of_mem _ hx)
      · exact absurd (List.mem_cons_self ..) hmem
  · refine ⟨t, by rw [Graph.sweepOp, if_neg hdead], dropped, ?_⟩
    refine { h with outside := ?_, needless := ?_, needed := ?_ }
    · exact fun x hx => Or.inl (h.outside x hx)
    · exact fun x hx => ⟨Or.inl (h.needless x hx).1, (h.needless x hx).2⟩
    · rintro x (hx | rfl) hmem
      · exact h.needed x hx hmem
      · -- It stays by itself, or is read by something that the sweep has left.
        by_cases hstays : g₀.Stays root x
        · exact hstays.needed
        · have hread : ∃ v ∈ t.1.results x, t.1.uses v ≠ [] := by
            rw [Stays, not_or, not_or, not_not] at hstays
            rw [isDead_eq_true, h.cleared.kind, h.cleared.regionsOf] at hdead
            simp only [OpKind.isPure, bne_iff_ne] at hdead
            by_contra hnone
            push Not at hnone
            exact hdead ⟨hstays.1, hstays.2.1, hnone⟩
          obtain ⟨v, hv, huses⟩ := hread
          obtain ⟨u, hu⟩ := List.exists_mem_of_ne_nil _ huses
          obtain ⟨hleft, hlive, hmem⟩ := h.reader hu
          have hfeeds : g₀.Feeds gone x u.user := ⟨hlive, v, h.cleared.results x ▸ hv, hmem⟩
          exact hfeeds.needed (h.needed _ (readers v hv u hu) hleft)

end Sweeping

namespace Swept

/-- A sweep clears the graph. -/
theorem cleared (h : Swept g₀ gone root D t) : Cleared g₀ t.1 :=
  Exists.elim h fun _ h => h.cleared

/-- It is told by what it takes out, not by how that is said. -/
theorem congr (h : Swept g₀ gone root D t) (hD : ∀ x, D x ↔ D' x) :
    Swept g₀ gone root D' t := by
  obtain rfl : D = D' := funext fun x => propext (hD x)
  exact h

/-- A block that the sweep has not been to is as it was. -/
theorem opsIn_eq (h : Swept g₀ gone root D t) (fresh : ∀ p ∈ g₀.opsIn b, ¬ D p) :
    t.1.opsIn b = g₀.opsIn b := by
  obtain ⟨dropped, h⟩ := h
  rw [h.opsIn, List.filter_eq_self]
  intro o ho
  exact decide_eq_true fun hmem => fresh o ho (h.needless o hmem).1

/-- A fold over things that have no operations in common gets to the operations of all of
them. -/
theorem foldlM {α : Type} {f : Graph × Nat → α → Except Fault (Graph × Nat)}
    {S : α → OpId → Prop} {l : List α} (step : ∀ a ∈ l, ∀ D u, Swept g₀ gone root D u →
      (∀ x, S a x → ¬ D x) → ∃ u', f u a = .ok u' ∧ Swept g₀ gone root (fun x => D x ∨ S a x) u')
    (disjoint : l.Pairwise fun a a' => ∀ x, S a x → ¬ S a' x) (h : Swept g₀ gone root D t)
    (fresh : ∀ a ∈ l, ∀ x, S a x → ¬ D x) :
    ∃ t', l.foldlM f t = .ok t' ∧ Swept g₀ gone root (fun x => D x ∨ ∃ a ∈ l, S a x) t' := by
  induction l generalizing t D with
  | nil => exact ⟨t, rfl, h.congr (by simp)⟩
  | cons a l ih =>
    obtain ⟨hhead, hdisjoint⟩ := List.pairwise_cons.mp disjoint
    obtain ⟨u, hu, hswept⟩ := step a (List.mem_cons_self ..) D t h (fresh a (List.mem_cons_self ..))
    have hfresh : ∀ a' ∈ l, ∀ x, S a' x → ¬ (D x ∨ S a x) := by
      rintro a' ha' x hx (hD | ha)
      · exact fresh a' (List.mem_cons_of_mem _ ha') x hx hD
      · exact hhead a' ha' x ha hx
    obtain ⟨t', ht', hswept'⟩ :=
      ih (fun a' ha' => step a' (List.mem_cons_of_mem _ ha')) hdisjoint hswept hfresh
    refine ⟨t', by rw [List.foldlM_cons, hu]; exact ht', hswept'.congr fun x => ?_⟩
    simp only [List.mem_cons, exists_eq_or_imp, or_assoc]

end Swept

/-! ## Blocks -/

section

variable (hc : Consistent g₀ gone)
  (sight : ∀ o, g₀.Inside root o → o ∉ gone → ∀ v ∈ g₀.operands o, g₀.Visible root o v)
include hc sight

/-- Of all that counts as a reader of a result, some operation behind the one that defines it
holds it or is it, unless it lies outside the root. -/
theorem reader_behind (hz : z ∈ g₀.opsIn b) (hv : v ∈ g₀.results z) (hin : g₀.Inside root y)
    (hlive : y ∉ gone) (hread : v ∈ g₀.operands y) :
    ∃ n p, g₀.Within n p y ∧ Precedes (g₀.opsIn b) z p := by
  obtain ⟨n, p, c, hw, hp⟩ := (sight y hin hlive v hread).beside hc hv
  obtain rfl := hc.block_unique hz hp.mem_left
  exact ⟨n, p, hw, hp⟩

/-- The sweep of a block that it has been inside of. -/
theorem Swept.sweepOps (hb : g₀.HoldsBlock root b) (h : Swept g₀ gone root D t)
    (inner : ∀ p ∈ g₀.opsIn b, ∀ n x, g₀.Within (n + 1) p x → D x)
    (fresh : ∀ p ∈ g₀.opsIn b, ¬ D p) :
    ∃ t', Graph.sweepOps b t = .ok t' ∧
      Swept g₀ gone root (fun x => D x ∨ x ∈ g₀.opsIn b) t' := by
  have hblock := h.opsIn_eq fresh
  have hnodup := hc.placedOnce b
  -- The invariant is that the sweep has been to an end of the block.
  obtain ⟨t', hrun, tail, htail, hswept⟩ := foldlM_succeeds (f := Graph.sweepOp b)
    (fun rest u => ∃ tail, g₀.opsIn b = rest.reverse ++ tail ∧
      Swept g₀ gone root (fun x => D x ∨ x ∈ tail) u)
    (fun z rest u hu => by
      obtain ⟨tail, hlist, dropped, hu⟩ := hu
      rw [List.reverse_cons, List.append_assoc, List.singleton_append] at hlist
      have hz : z ∈ g₀.opsIn b := by simp [hlist]
      have hnodup : (rest.reverse ++ z :: tail).Nodup := hlist ▸ hnodup
      have hfresh : ¬ (D z ∨ z ∈ tail) := by
        rintro (hD | htail)
        · exact fresh z hz hD
        · exact (List.nodup_cons.mp (List.nodup_append.mp hnodup).2.1).1 htail
      have hmem : z ∈ u.1.opsIn b :=
        hu.mem_opsIn.mpr ⟨hz, fun hdropped => hfresh (hu.needless z hdropped).1⟩
      have readers : ∀ v ∈ u.1.results z, ∀ w ∈ u.1.uses v, D w.user ∨ w.user ∈ tail := by
        intro v hv w hw
        rw [hu.cleared.results] at hv
        obtain ⟨-, hlive, hread⟩ := hu.reader hw
        by_cases hin : g₀.Inside root w.user
        · obtain ⟨n, p, hwithin, hp⟩ := reader_behind hc sight hz hv hin hlive hread
          -- What comes behind the operation is what the sweep has been to.
          have hbehind : p ∈ tail := by
            rw [hlist] at hp
            rcases List.mem_append.mp hp.mem_right with hleft | hright
            · exact absurd ((precedes_append_cons hnodup).mpr hleft) (hp.asymm hnodup)
            · exact (List.mem_cons.mp hright).resolve_left (hp.ne hnodup).symm
          cases n with
          | zero =>
            cases hwithin
            exact Or.inr hbehind
          | succ n =>
            apply Or.inl
            exact inner p (by simp [hlist, hbehind]) n _ hwithin
        · exact hu.outside _ hin
      obtain ⟨u', hrun, hswept⟩ := hu.sweepOp hmem (hb.inside hz) hfresh readers
      refine ⟨u', hrun, z :: tail, hlist, hswept.congr fun x => ?_⟩
      rw [List.mem_cons, or_assoc, or_comm (a := x ∈ tail)])
    (l := (g₀.opsIn b).reverse) (s := t) ⟨[], by simp, h.congr fun x => by simp⟩
  rw [List.reverse_nil, List.nil_append] at htail
  refine ⟨t', ?_, htail ▸ hswept⟩
  rw [Graph.sweepOps, hblock]
  exact hrun

end

/-! ## Regions -/

section

variable (hc : Consistent g₀ gone) (acyclic : ¬ g₀.Inside root root)
include hc acyclic

/-- Nothing is nested in an operation that lies beside it. -/
theorem OnLevel.not_within (hz : g₀.OnLevel root m z) (hx : g₀.OnLevel root m x) :
    ¬ g₀.Within (n + 1) z x := by
  intro hw
  have := hx.unique hc.toNestingAgrees acyclic (hz.within hw)
  omega

/-- Two blocks of a region have nothing below them in common. -/
theorem Under.disjoint_blocks (hr : g₀.Under root m r) (hb : b ∈ g₀.blocksIn r)
    (hb' : c ∈ g₀.blocksIn r) (hx : g₀.BelowBlock b x) (hx' : g₀.BelowBlock c x) : b = c := by
  obtain ⟨o, ho, n, hw⟩ := hx
  obtain ⟨p, hp, k, hw'⟩ := hx'
  obtain rfl := OnLevel.disjoint hc.toNestingAgrees acyclic ⟨r, b, hr, hb, ho⟩ ⟨r, c, hr, hb', hp⟩
    hw hw'
  exact hc.block_unique ho hp

/-- Two regions of an operation have nothing below them in common. -/
theorem OnLevel.disjoint_regions (hp : g₀.OnLevel root m p) (hr : r ∈ g₀.regionsOf p)
    (hs : s ∈ g₀.regionsOf p) (hx : g₀.Below r x) (hx' : g₀.Below s x) : r = s := by
  obtain ⟨t, e, hu, he, hp⟩ := hp
  obtain ⟨b, hb, o, ho, n, hw⟩ := hx
  obtain ⟨c, hc', q, hq, k, hw'⟩ := hx'
  obtain rfl := OnLevel.disjoint hc.toNestingAgrees acyclic ⟨r, b, .inner hu he hp hr, hb, ho⟩
    ⟨s, c, .inner hu he hp hs, hc', hq⟩ hw hw'
  obtain rfl := hc.block_unique ho hq
  exact hc.region_unique hb hc'

variable (sight : ∀ o, g₀.Inside root o → o ∉ gone → ∀ v ∈ g₀.operands o, g₀.Visible root o v)
include sight

/-- A sweep of a region gets to all that is below it, if it may go deep enough. -/
theorem Swept.sweepRegion (hr : g₀.Under root m r) (hdepth : g₀.regions.size < m + depth)
    (h : Swept g₀ gone root D t) (fresh : ∀ x, g₀.Below r x → ¬ D x) :
    ∃ t', Graph.sweepRegion true depth t r = .ok t' ∧
      Swept g₀ gone root (fun x => D x ∨ g₀.Below r x) t' := by
  induction depth generalizing m r D t with
  | zero =>
    have := hr.le_size hc.toNestingAgrees acyclic
    omega
  | succ depth ih =>
    rw [Graph.sweepRegion, h.cleared.blocksIn]
    refine Swept.foldlM (S := g₀.BelowBlock) (fun b hb D u hu hfresh => ?_)
      ((hc.enclosedOnce r).imp_of_mem fun hb hb' hne x hx hx' =>
        hne (hr.disjoint_blocks hc acyclic hb hb' hx hx')) h
      fun b hb x hx => fresh x ⟨b, hb, hx⟩
    have level : ∀ {p}, p ∈ g₀.opsIn b → g₀.OnLevel root m p := fun hp => ⟨r, b, hr, hb, hp⟩
    -- What the operations of the block own is swept first; none of them goes before its turn.
    have hblock := hu.opsIn_eq fun o ho => hfresh o ⟨o, ho, 0, .self o⟩
    obtain ⟨u', hrun, hu'⟩ := Swept.foldlM (t := u)
      (f := fun s op => (s.1.regionsOf op).foldlM (Graph.sweepRegion true depth) s)
      (S := fun p x => ∃ s ∈ g₀.regionsOf p, g₀.Below s x) (l := g₀.opsIn b)
      (fun p hp D w hw hfresh => by
        rw [hw.cleared.regionsOf]
        exact Swept.foldlM (fun s hs D y hy hfresh => ih (.inner hr hb hp hs) (by omega) hy hfresh)
          ((hc.ownedOnce p).imp_of_mem fun hs hs' hne x hx hx' =>
            hne ((level hp).disjoint_regions hc acyclic hs hs' hx hx')) hw
          fun s hs x hx => hfresh x ⟨s, hs, hx⟩)
      ((hc.placedOnce b).imp_of_mem fun hp hq hne x hx hx' => by
        obtain ⟨n, hx⟩ := exists_below_iff.mp hx
        obtain ⟨k, hx'⟩ := exists_below_iff.mp hx'
        exact hne (OnLevel.disjoint hc.toNestingAgrees acyclic (level hp) (level hq) hx hx'))
      hu (fun p hp x hx => by
        obtain ⟨n, hx⟩ := exists_below_iff.mp hx
        exact hfresh x ⟨p, hp, _, hx⟩)
    obtain ⟨t', hrun', ht'⟩ := hu'.sweepOps hc sight ⟨m, r, hr, hb⟩
      (fun p hp n x hw => Or.inr ⟨p, hp, exists_below_iff.mpr ⟨n, hw⟩⟩)
      (fun p hp hD => by
        rcases hD with hD | ⟨q, hq, hx⟩
        · exact hfresh p ⟨p, hp, 0, .self p⟩ hD
        · obtain ⟨n, hw⟩ := exists_below_iff.mp hx
          exact (level hq).not_within hc acyclic (level hp) hw)
    refine ⟨t', ?_, ht'.congr fun x => ?_⟩
    · rw [if_pos rfl, hblock]
      exact bind_eq_ok.mpr ⟨u', hrun, hrun'⟩
    · rw [or_assoc]
      refine or_congr_right ⟨?_, ?_⟩
      · rintro (⟨p, hp, hx⟩ | hx)
        · obtain ⟨n, hw⟩ := exists_below_iff.mp hx
          exact ⟨p, hp, _, hw⟩
        · exact ⟨x, hx, 0, .self x⟩
      · rintro ⟨p, hp, n, hw⟩
        cases n with
        | zero =>
          cases hw
          exact Or.inr hp
        | succ n => exact Or.inl ⟨p, hp, exists_below_iff.mpr ⟨n, hw⟩⟩

/-- A sweep from the root has been to every operation. -/
theorem sweep_exact : ∃ t' dropped, g₀.sweep root true = .ok t' ∧
    Sweeping g₀ gone root (fun _ => True) t' dropped := by
  have hstart : Swept g₀ gone root (fun x => ¬ g₀.Inside root x) (g₀, 0) := by
    refine ⟨[], .refl g₀, hc, fun c => ?_, List.nodup_nil, rfl, fun _ hx => hx, nofun, ?_⟩
    · simp
    · exact fun x hx _ => Stays.needed (Or.inr (Or.inr hx))
  -- The regions of the root cover everything under it, and no two of them share an operation.
  have below : ∀ {x}, g₀.Inside root x ↔ ∃ r ∈ g₀.regionsOf root, g₀.Below r x :=
    inside_iff_exists_within.trans exists_below_iff.symm
  obtain ⟨t', hrun, ht'⟩ := Swept.foldlM (f := Graph.sweepRegion true g₀.depthBound)
    (S := g₀.Below) (l := g₀.regionsOf root)
    (fun r hr D u hu hfresh =>
      hu.sweepRegion hc acyclic sight (.own hr) (by rw [depthBound]; omega) hfresh)
    ((hc.ownedOnce root).imp_of_mem fun hr hs hne x ⟨b, hb, o, ho, n, hw⟩
      ⟨c, hc', p, hp, k, hw'⟩ => by
      obtain rfl := OnLevel.disjoint hc.toNestingAgrees acyclic ⟨_, b, .own hr, hb, ho⟩
        ⟨_, c, .own hs, hc', hp⟩ hw hw'
      obtain rfl := hc.block_unique ho hp
      exact hne (hc.region_unique hb hc'))
    hstart (fun r hr x hx hout => hout (below.mpr ⟨r, hr, hx⟩))
  obtain ⟨dropped, ht'⟩ : Swept g₀ gone root (fun _ => True) t' := ht'.congr fun x => by
    rw [← below]
    simp [em']
  exact ⟨t', dropped, hrun, ht'⟩

end

/-- What a sweep has been to and left is not dead. -/
theorem Sweeping.live (h : Sweeping g₀ gone root (fun _ => True) t dropped)
    (hx : t.1.Inside root x) : t.1.isDead x = false := by
  rw [Bool.eq_false_iff, ne_eq, isDead_eq_true]
  rintro ⟨hpure, hbare, hunread⟩
  obtain ⟨c, -, hmem⟩ := id hx
  rcases (h.needed x trivial (h.mem_opsIn.mp hmem).2).stays_or_feeds with hstays | hfed
  · rw [h.cleared.kind] at hpure
    rw [h.cleared.regionsOf] at hbare
    rcases hstays with hret | howns | hout
    · simp [OpKind.isPure, hret] at hpure
    · exact howns hbare
    · exact hout (h.cleared.inside hx)
  · -- The reader has been left, so it is on the chain.
    obtain ⟨y, ⟨hlive, v, hv, hread⟩, hy⟩ := hfed
    obtain ⟨i, hi⟩ := List.mem_iff_getElem?.mp hread
    have huse : (⟨y, i⟩ : Use) ∈ t.1.uses v := by
      apply (h.consistent.reads v _).mpr
      rw [List.mem_append, not_or, h.cleared.operands]
      exact ⟨⟨fun hdropped => (h.needless y hdropped).2.2 hy, hlive⟩, hi⟩
    rw [hunread v (h.cleared.results x ▸ hv)] at huse
    cases huse

/-! ## Where nothing is dead -/

section

variable (live : ∀ x, g.Inside root x → g.isDead x = false)
include live

/-- A block in which all is live is left alone. -/
theorem sweepOps_of_live (hb : g.HoldsBlock root b) : sweepOps b (g, n) = .ok (g, n) := by
  refine foldlM_fixed fun o ho => ?_
  have halive := live o (hb.inside (List.mem_reverse.mp ho))
  exact if_neg (by simp [halive])

/-- And so is a region. -/
theorem sweepRegion_of_live {recursive : Bool} (hr : g.Under root m r) :
    sweepRegion recursive depth (g, n) r = .ok (g, n) := by
  induction depth generalizing m r with
  | zero => rfl
  | succ depth ih =>
    refine foldlM_fixed fun b hb => ?_
    have hops := sweepOps_of_live (n := n) live ⟨m, r, hr, hb⟩
    cases recursive with
    | false => exact hops
    | true =>
      refine bind_eq_ok.mpr ⟨(g, n), ?_, hops⟩
      exact foldlM_fixed fun o ho => foldlM_fixed fun s hs => ih (.inner hr hb ho hs)

/-- So there is no sweep after one that found nothing. -/
theorem sweepLoop_of_live {recursive : Bool} {left done removed : Nat} :
    sweepLoop root recursive (left + 1) done removed g = .ok (g, ⟨removed, done + 1, true⟩) := by
  have hsweep : g.sweep root recursive = .ok (g, 0) :=
    foldlM_fixed fun r hr => sweepRegion_of_live live (.own hr)
  rw [sweepLoop, hsweep]
  rfl

/-- Where nothing is dead, dead operations are looked for once, and nothing changes. -/
theorem eliminateDead_of_live (config : SweepConfig) :
    g.eliminateDead root config = .ok (g, ⟨0, 1, true⟩) := by
  obtain ⟨k, hk⟩ := Nat.exists_eq_succ_of_ne_zero (Nat.pos_iff_ne_zero.mp config.sweeps_pos)
  rw [eliminateDead, hk]
  exact sweepLoop_of_live live

end

/-- With a budget for two sweeps, the second of two finds nothing, or the first of one did. -/
theorem eliminateDead_of_sweep {config : SweepConfig} (hrecursive : config.recursive = true)
    (hbudget : config.budget = 0 ∨ 2 ≤ config.budget) (hrun : g.sweep root true = .ok t)
    (live : ∀ x, t.1.Inside root x → t.1.isDead x = false) :
    g.eliminateDead root config = .ok (t.1, ⟨t.2, if t.2 = 0 then 1 else 2, true⟩) := by
  have hsweeps : ∃ k, config.sweeps = k + 2 := by
    unfold SweepConfig.sweeps SweepConfig.defaultBudget
    split
    · exact ⟨98, rfl⟩
    · exact ⟨config.budget - 2, by omega⟩
  obtain ⟨k, hk⟩ := hsweeps
  rw [eliminateDead, hrecursive, hk]
  change (g.sweep root true >>= _) = _
  rw [hrun]
  change (if t.2 = 0 then _ else sweepLoop root true (k + 1) 1 (0 + t.2) t.1) = _
  split
  · next hnone =>
    rw [hnone]
    rfl
  · rw [sweepLoop_of_live live, Nat.zero_add]

/-- Removing dead operations of a valid root leaves none behind. -/
theorem eliminateDead_complete (hc : Consistent g gone) (hvalid : g.Valid root gone) :
    ∃ g' result, g.eliminateDead root .standard = .ok (g', result) ∧ Cleared g g' ∧
      (∃ gone, Consistent g' gone ∧ g'.Valid root gone) ∧
      ∀ x, g'.Inside root x → g'.isDead x = false := by
  obtain ⟨t, dropped, hrun, ht⟩ :=
    sweep_exact hc hvalid.acyclic fun o hin _ => hvalid.visible o hin
  have hlive : ∀ x, t.1.Inside root x → t.1.isDead x = false := fun x hx => ht.live hx
  have hend := eliminateDead_of_sweep (show SweepConfig.standard.recursive = true from rfl)
    (Or.inr (by decide)) hrun hlive
  -- That the root stays valid is what every sweep keeps.
  have hstart : Intact g root g gone := ⟨hc, hvalid, fun args => Follows.refl (g.run root args)⟩
  obtain ⟨x, hx, gone', hintact⟩ :=
    sweepLoop_intact true SweepConfig.standard.sweeps 0 0 ⟨gone, hstart⟩
  obtain rfl := Except.ok.inj (hx.symm.trans hend)
  exact ⟨_, _, hend, ht.cleared, ⟨gone', hintact.consistent, hintact.valid⟩, hlive⟩

end Graph

end SimdLowering
