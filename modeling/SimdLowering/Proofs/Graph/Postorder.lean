/-
What is under a root, in the order in which a round gets to it.

A round enters a region, goes through its blocks, and takes each operation after what the
operation holds. The listing of this file has that order. Three things are said of it: that
it holds what lies under the root and nothing else, that it holds nothing twice, and that an
operation sees no result of one that comes later. The last is what makes a round a sweep
from definitions to uses, also across nested regions, where an operation sees what its owner
sees.

All three rest on levels. An operation lies on one level under the root, the subtrees of two
operations on one level have nothing in common, and what an operation sees was defined next
to one of its ancestors, on that ancestor's level.
-/
import SimdLowering.Proofs.Graph.Order

set_option autoImplicit false

namespace SimdLowering

namespace Graph

variable {g : Graph} {gone : List OpId} {root o p q x y : OpId} {b c : BlockId} {r s : RegionId}
  {v : ValueId} {n k m d : Nat}

/-- An operation after what is nested in it, at most `depth` levels down. -/
def postorderWithin (g : Graph) : Nat → OpId → List OpId
  | 0, _ => []
  | depth + 1, op => (g.innerOps op).flatMap (g.postorderWithin depth) ++ [op]

/-- Everything under a root, each operation after what is nested in it. -/
def postorder (g : Graph) (root : OpId) : List OpId :=
  (g.innerOps root).flatMap (g.postorderWithin g.depthBound)

/-! ## Levels -/

/-- The operation lies so many regions below the root. -/
def OnLevel (g : Graph) (root : OpId) (n : Nat) (o : OpId) : Prop :=
  ∃ r b, g.Under root n r ∧ b ∈ g.blocksIn r ∧ o ∈ g.opsIn b

/-- The second operation lies so many regions below the first. -/
inductive Within (g : Graph) : Nat → OpId → OpId → Prop
  | self (o : OpId) : Within g 0 o o
  | deeper {n : Nat} {o p x : OpId} {r : RegionId} {b : BlockId} : Within g n o p →
      r ∈ g.regionsOf p → b ∈ g.blocksIn r → x ∈ g.opsIn b → Within g (n + 1) o x

/-- What is inside is on some level. -/
theorem inside_iff_onLevel : g.Inside root o ↔ ∃ n, g.OnLevel root n o := by
  constructor
  · rintro ⟨b, ⟨n, r, hu, hb⟩, ho⟩
    exact ⟨n, r, b, hu, hb, ho⟩
  · rintro ⟨n, r, b, hu, hb, ho⟩
    exact ⟨b, ⟨n, r, hu, hb⟩, ho⟩

/-- Levels add up. -/
theorem OnLevel.within (h : g.OnLevel root m o) (hx : g.Within n o x) :
    g.OnLevel root (m + n) x := by
  induction hx with
  | self => exact h
  | deeper _ hr hb ho ih =>
    obtain ⟨s, c, hu, hc, hp⟩ := ih h
    exact ⟨_, _, .inner hu hc hp hr, hb, ho⟩

/-- And so do depths. -/
theorem Within.trans (h₁ : g.Within n o p) (h₂ : g.Within k p x) : g.Within (n + k) o x := by
  induction h₂ with
  | self => exact h₁
  | deeper _ hr hb ho ih => exact .deeper (ih h₁) hr hb ho

/-- The way down from an operation leads through one of its regions. -/
theorem Within.first (h : g.Within (n + 1) o x) :
    ∃ r b p, r ∈ g.regionsOf o ∧ b ∈ g.blocksIn r ∧ p ∈ g.opsIn b ∧ g.Within n p x := by
  induction n generalizing x with
  | zero =>
    cases h with
    | deeper h hr hb hx =>
      cases h with
      | self => exact ⟨_, _, x, hr, hb, hx, .self x⟩
  | succ n ih =>
    cases h with
    | deeper h hr hb hx =>
      obtain ⟨s, c, p, hs, hc, hp, hw⟩ := ih h
      exact ⟨s, c, p, hs, hc, hp, .deeper hw hr hb hx⟩

section Nesting

variable (hc : NestingAgrees g)
include hc

/-- An operation lies in one block only. -/
theorem NestingAgrees.block_eq (hb : o ∈ g.opsIn b) (hc' : o ∈ g.opsIn c) : b = c := by
  have hb := (hc.places o b).mp hb
  rw [(hc.places o c).mp hc'] at hb
  exact (Option.some.inj hb).symm

/-- A block in one region only. -/
theorem NestingAgrees.region_eq (hr : b ∈ g.blocksIn r) (hs : b ∈ g.blocksIn s) : r = s := by
  have hr := (hc.encloses b r).mp hr
  rw [(hc.encloses b s).mp hs] at hr
  exact (Option.some.inj hr).symm

/-- And a region belongs to one operation only. -/
theorem NestingAgrees.owner_eq (ho : r ∈ g.regionsOf o) (hp : r ∈ g.regionsOf p) : o = p := by
  have ho := (hc.owns r o).mp ho
  rw [(hc.owns r p).mp hp] at ho
  exact (Option.some.inj ho).symm

/-- Going up there is no choice. -/
theorem Within.unique (h₁ : g.Within n o x) (h₂ : g.Within n p x) : o = p := by
  induction h₁ generalizing p with
  | self =>
    cases h₂
    rfl
  | deeper _ hr hb hx ih =>
    cases h₂ with
    | deeper h₂ hs hb' hx' =>
      obtain rfl := hc.block_eq hx hx'
      obtain rfl := hc.region_eq hb hb'
      obtain rfl := hc.owner_eq hr hs
      exact ih h₂

variable (acyclic : ¬ g.Inside root root)
include acyclic

/-- So no operation is on two levels. -/
theorem OnLevel.unique (h₁ : g.OnLevel root n o) (h₂ : g.OnLevel root m o) : n = m := by
  obtain ⟨r, b, hr, hb, ho⟩ := h₁
  obtain ⟨s, c, hs, hc', ho'⟩ := h₂
  obtain rfl := hc.block_eq ho ho'
  obtain rfl := hc.region_eq hb hc'
  exact hr.level_unique hc acyclic hs

/-- Two operations on one level have nothing below them in common. -/
theorem OnLevel.disjoint (ho : g.OnLevel root m o) (hp : g.OnLevel root m p)
    (hx : g.Within n o x) (hy : g.Within k p x) : o = p := by
  have hlevel := (ho.within hx).unique hc acyclic (hp.within hy)
  obtain rfl : n = k := by omega
  exact hx.unique hc hy

end Nesting

/-! ## Ways down -/

/-- The way down to an operation starts right below the root. -/
theorem OnLevel.exists_first (h : g.OnLevel root m x) :
    ∃ n o, m = n + 1 ∧ o ∈ g.innerOps root ∧ g.Within n o x := by
  obtain ⟨s, c, hu, hc, hx⟩ := h
  induction hu generalizing c x with
  | own hr => exact ⟨0, x, rfl, mem_innerOps.mpr ⟨_, c, hr, hc, hx⟩, .self x⟩
  | inner _ hb ho hs ih =>
    obtain ⟨n, p, rfl, hp, hw⟩ := ih _ hb ho
    exact ⟨n + 1, p, rfl, hp, .deeper hw hs hc hx⟩

/-- What lies inside an operation is below something that the operation holds directly. -/
theorem inside_iff_exists_innerOps :
    g.Inside o x ↔ ∃ n p, p ∈ g.innerOps o ∧ g.Within n p x := by
  rw [inside_iff_onLevel]
  constructor
  · rintro ⟨m, hm⟩
    obtain ⟨n, p, -, hp, hw⟩ := hm.exists_first
    exact ⟨n, p, hp, hw⟩
  · rintro ⟨n, p, hp, hw⟩
    obtain ⟨r, b, hr, hb, hp⟩ := mem_innerOps.mp hp
    exact ⟨1 + n, OnLevel.within ⟨r, b, .own hr, hb, hp⟩ hw⟩

/-- To be inside is to lie at some depth below. -/
theorem inside_iff_exists_within : g.Inside o x ↔ ∃ n, g.Within (n + 1) o x := by
  rw [inside_iff_exists_innerOps]
  constructor
  · rintro ⟨n, p, hp, hw⟩
    obtain ⟨r, b, hr, hb, hp⟩ := mem_innerOps.mp hp
    refine ⟨n, ?_⟩
    rw [Nat.add_comm]
    exact (Within.deeper (.self o) hr hb hp).trans hw
  · rintro ⟨n, hw⟩
    obtain ⟨r, b, p, hr, hb, hp, hw⟩ := hw.first
    exact ⟨n, p, mem_innerOps.mpr ⟨r, b, hr, hb, hp⟩, hw⟩

/-- What is inside of something inside is inside. -/
theorem Inside.trans (h : g.Inside o p) (h' : g.Inside p x) : g.Inside o x := by
  obtain ⟨n, hn⟩ := inside_iff_exists_within.mp h
  obtain ⟨k, hk⟩ := inside_iff_exists_within.mp h'
  exact inside_iff_exists_within.mpr ⟨n + 1 + k, hn.trans hk⟩

/-- The way down leads through every level in between. -/
theorem Within.split (h : g.Within (n + k) o x) : ∃ p, g.Within n o p ∧ g.Within k p x := by
  induction k generalizing x with
  | zero => exact ⟨x, h, .self x⟩
  | succ k ih =>
    cases h with
    | deeper h hr hb hx =>
      obtain ⟨p, hop, hpx⟩ := ih h
      exact ⟨p, hop, .deeper hpx hr hb hx⟩

/-- Of two operations above a third one, one is above the other. -/
theorem Within.above (hn : NestingAgrees g) (h₁ : g.Within n p x) (h₂ : g.Within k q x)
    (hle : n ≤ k) : ∃ j, g.Within j q p := by
  obtain ⟨j, rfl⟩ := Nat.exists_eq_add_of_le' hle
  obtain ⟨y, hqy, hyx⟩ := h₂.split
  obtain rfl := h₁.unique hn hyx
  exact ⟨j, hqy⟩

/-! ## What an operation sees -/

/-- A result that an operation sees was defined before one of its ancestors, in that
ancestor's block. -/
theorem Visible.beside (hc : Consistent g gone) (h : g.Visible root x v) (hv : v ∈ g.results q) :
    ∃ n p b, g.Within n p x ∧ Precedes (g.opsIn b) q p := by
  induction h with
  | argument hx harg => exact absurd hv (hc.not_mem_results_of_mem_argsOf harg)
  | earlier hp hv' =>
    obtain ⟨i, hi⟩ := List.mem_iff_getElem?.mp hv
    obtain ⟨j, hj⟩ := List.mem_iff_getElem?.mp hv'
    obtain rfl := (hc.result_unique hi hj).1
    exact ⟨0, _, _, .self _, hp⟩
  | outer _ hr hb hx _ ih =>
    obtain ⟨n, p, c, hw, hp⟩ := ih hv
    exact ⟨n + 1, p, c, .deeper hw hr hb hx, hp⟩

/-- The first operation comes from somewhere else than the second and sees nothing of what it
defines. -/
def Unaware (g : Graph) (root x y : OpId) : Prop :=
  x ≠ y ∧ ∀ v ∈ g.results y, ¬ g.Visible root x v

section

variable (hc : Consistent g gone) (acyclic : ¬ g.Inside root root)
include hc acyclic

/-- What is below an operation sees nothing of what is below another one on its level, unless
that one comes first. -/
theorem unaware_of_onLevel (ho : g.OnLevel root m o) (hp : g.OnLevel root m p) (hne : o ≠ p)
    (horder : ∀ b, ¬ Precedes (g.opsIn b) p o) (hx : g.Within n o x) (hy : g.Within k p y) :
    g.Unaware root x y := by
  have hn := hc.toNestingAgrees
  refine ⟨?_, fun v hv hvis => ?_⟩
  · rintro rfl
    exact hne (ho.disjoint hn acyclic hp hx hy)
  · -- The ancestor `a` of `x` next to `y` lies below both operations, or is the first one.
    obtain ⟨j, a, b, ha, hya⟩ := hvis.beside hc hv
    cases hy with
    | self =>
      obtain ⟨r, c, hu, hcr, hpc⟩ := hp
      obtain rfl := hn.block_eq hpc hya.mem_left
      have hlevel : g.OnLevel root m a := ⟨r, c, hu, hcr, hya.mem_right⟩
      obtain rfl := hlevel.disjoint hn acyclic ho ha hx
      exact horder _ hya
    | deeper hy hr hb hyb =>
      obtain rfl := hn.block_eq hyb hya.mem_left
      have hpa : g.Within _ p a := .deeper hy hr hb hya.mem_right
      exact hne (ho.disjoint hn acyclic hp hx (hpa.trans ha))

/-- Neither an operation nor what it holds sees what the operation defines. -/
theorem not_visible_of_within (ho : g.OnLevel root m o) (hx : g.Within n o x)
    (hv : v ∈ g.results o) : ¬ g.Visible root x v := by
  have hn := hc.toNestingAgrees
  intro hvis
  obtain ⟨j, a, b, ha, hoa⟩ := hvis.beside hc hv
  obtain ⟨r, c, hu, hcr, hoc⟩ := id ho
  obtain rfl := hn.block_eq hoc hoa.mem_left
  have hlevel : g.OnLevel root m a := ⟨r, c, hu, hcr, hoa.mem_right⟩
  obtain rfl := hlevel.disjoint hn acyclic ho ha hx
  exact hoa.ne (hn.placedOnce _) rfl

/-- An operation does not see its own results. -/
theorem Inside.not_visible (ho : g.Inside root o) (hv : v ∈ g.results o) :
    ¬ g.Visible root o v := by
  obtain ⟨m, hm⟩ := inside_iff_onLevel.mp ho
  exact not_visible_of_within hc acyclic hm (.self o) hv

/-- What an operation holds sees nothing of what the operation defines. -/
theorem unaware_of_within (ho : g.OnLevel root m o) (hx : g.Within (n + 1) o x) :
    g.Unaware root x o := by
  refine ⟨?_, fun v hv => not_visible_of_within hc acyclic ho hx hv⟩
  rintro rfl
  have := (ho.within hx).unique hc.toNestingAgrees acyclic ho
  omega

end

/-! ## The listing -/

/-- To a depth a listing has what lies within that depth. -/
theorem mem_postorderWithin : x ∈ g.postorderWithin d o ↔ ∃ n, n < d ∧ g.Within n o x := by
  induction d generalizing o with
  | zero => simp [postorderWithin]
  | succ d ih =>
    rw [postorderWithin, List.mem_append, List.mem_flatMap, List.mem_singleton]
    constructor
    · rintro (⟨p, hp, hx⟩ | rfl)
      · obtain ⟨r, b, hr, hb, hp⟩ := mem_innerOps.mp hp
        obtain ⟨n, hn, hw⟩ := ih.mp hx
        exact ⟨1 + n, by omega, (Within.deeper (.self o) hr hb hp).trans hw⟩
      · exact ⟨0, by omega, .self x⟩
    · rintro ⟨n, hn, hw⟩
      cases n with
      | zero =>
        cases hw
        exact Or.inr rfl
      | succ n =>
        obtain ⟨r, b, p, hr, hb, hp, hw⟩ := hw.first
        exact Or.inl ⟨p, mem_innerOps.mpr ⟨r, b, hr, hb, hp⟩, ih.mpr ⟨n, by omega, hw⟩⟩

/-- Whether an operation is listed before or after what it holds makes no other difference. -/
theorem preorderWithin_perm (g : Graph) (d : Nat) (o : OpId) :
    (g.preorderWithin d o).Perm (g.postorderWithin d o) := by
  induction d generalizing o with
  | zero => exact .nil
  | succ d ih =>
    rw [preorderWithin, postorderWithin]
    have hinner := List.Perm.flatMap_left (g.innerOps o) fun p _ => ih p
    exact (hinner.cons o).trans (List.perm_append_singleton o _).symm

/-- Operations of different blocks never precede each other. -/
theorem NestingAgrees.apart (hn : NestingAgrees g) (hne : b ≠ c) (hp : p ∈ g.opsIn b)
    (hq : q ∈ g.opsIn c) : p ≠ q ∧ ∀ b, ¬ Precedes (g.opsIn b) q p := by
  refine ⟨?_, fun e hqp => ?_⟩
  · rintro rfl
    exact hne (hn.block_eq hp hq)
  · obtain rfl := hn.block_eq hqp.mem_left hq
    exact hne (hn.block_eq hp hqp.mem_right)

/-- A region is listed block by block: nothing comes after what it precedes in its block. -/
theorem pairwise_opsOfRegion (hn : NestingAgrees g) (r : RegionId) :
    (g.opsOfRegion r).Pairwise fun p q => p ≠ q ∧ ∀ b, ¬ Precedes (g.opsIn b) q p := by
  rw [opsOfRegion, List.pairwise_flatMap]
  refine ⟨fun b hb => ?_, ?_⟩
  · refine List.pairwise_iff_forall_sublist.mpr fun {p q} hpq => ?_
    have hpq : Precedes (g.opsIn b) p q := hpq
    refine ⟨hpq.ne (hn.placedOnce b), fun c hqp => ?_⟩
    obtain rfl := hn.block_eq hqp.mem_left hpq.mem_right
    exact hpq.asymm (hn.placedOnce _) hqp
  · exact (hn.enclosedOnce r).imp fun hne p hp q hq => hn.apart hne hp hq

/-- So is all that an operation holds directly, one region after the other. -/
theorem pairwise_innerOps (hn : NestingAgrees g) (o : OpId) :
    (g.innerOps o).Pairwise fun p q => p ≠ q ∧ ∀ b, ¬ Precedes (g.opsIn b) q p := by
  rw [innerOps, List.pairwise_flatMap]
  refine ⟨fun r _ => pairwise_opsOfRegion hn r, ?_⟩
  refine (hn.ownedOnce o).imp fun {r s} hne p hp q hq => ?_
  obtain ⟨b, hb, hp⟩ := List.mem_flatMap.mp hp
  obtain ⟨c, hc, hq⟩ := List.mem_flatMap.mp hq
  refine hn.apart ?_ hp hq
  rintro rfl
  exact hne (hn.region_eq hb hc)

section

variable (hc : Consistent g gone) (acyclic : ¬ g.Inside root root)
include hc acyclic

/-- The listing holds what lies under the root. -/
theorem mem_postorder : x ∈ g.postorder root ↔ g.Inside root x := by
  rw [postorder, List.mem_flatMap]
  constructor
  · rintro ⟨o, ho, hx⟩
    obtain ⟨n, -, hw⟩ := mem_postorderWithin.mp hx
    exact inside_iff_exists_innerOps.mpr ⟨n, o, ho, hw⟩
  · intro hx
    obtain ⟨m, hm⟩ := inside_iff_onLevel.mp hx
    obtain ⟨n, o, rfl, ho, hw⟩ := hm.exists_first
    obtain ⟨s, c, hu, -, -⟩ := hm
    have hsize := hu.le_size hc.toNestingAgrees acyclic
    exact ⟨o, ho, mem_postorderWithin.mpr ⟨n, by rw [depthBound]; omega, hw⟩⟩

/-- Of what an operation holds, nothing sees what comes later. -/
theorem pairwise_flatMap_innerOps (hlevel : ∀ p ∈ g.innerOps o, g.OnLevel root m p)
    (hbelow : ∀ p ∈ g.innerOps o, (g.postorderWithin d p).Pairwise (g.Unaware root)) :
    ((g.innerOps o).flatMap (g.postorderWithin d)).Pairwise (g.Unaware root) := by
  refine List.pairwise_flatMap.mpr ⟨hbelow, ?_⟩
  refine (pairwise_innerOps hc.toNestingAgrees o).imp_of_mem fun hp hq ⟨hne, horder⟩ x hx y hy => ?_
  obtain ⟨n, -, hx⟩ := mem_postorderWithin.mp hx
  obtain ⟨k, -, hy⟩ := mem_postorderWithin.mp hy
  exact unaware_of_onLevel hc acyclic (hlevel _ hp) (hlevel _ hq) hne horder hx hy

/-- And nothing in it reads what comes later. -/
theorem pairwise_postorderWithin (ho : g.OnLevel root m o) :
    (g.postorderWithin d o).Pairwise (g.Unaware root) := by
  induction d generalizing m o with
  | zero => exact List.Pairwise.nil
  | succ d ih =>
    have hlevel : ∀ p ∈ g.innerOps o, g.OnLevel root (m + 1) p := by
      intro p hp
      obtain ⟨r, b, hr, hb, hp⟩ := mem_innerOps.mp hp
      exact ho.within (.deeper (.self o) hr hb hp)
    refine List.pairwise_append.mpr ⟨pairwise_flatMap_innerOps hc acyclic hlevel
      fun p hp => ih (hlevel p hp), List.pairwise_singleton .., fun x hx y hy => ?_⟩
    -- The operation itself comes last, and what it holds does not see its results.
    obtain ⟨p, hp, hx⟩ := List.mem_flatMap.mp hx
    obtain ⟨r, b, hr, hb, hp⟩ := mem_innerOps.mp hp
    obtain ⟨n, -, hw⟩ := mem_postorderWithin.mp hx
    rw [List.mem_singleton.mp hy]
    refine unaware_of_within hc acyclic (n := n) ho ?_
    rw [Nat.add_comm]
    exact (Within.deeper (.self o) hr hb hp).trans hw

/-- In the listing, an operation sees nothing of what comes later. -/
theorem pairwise_postorder : (g.postorder root).Pairwise (g.Unaware root) := by
  have hlevel : ∀ p ∈ g.innerOps root, g.OnLevel root 1 p := by
    intro p hp
    obtain ⟨r, b, hr, hb, hp⟩ := mem_innerOps.mp hp
    exact ⟨r, b, .own hr, hb, hp⟩
  exact pairwise_flatMap_innerOps hc acyclic hlevel
    fun p hp => pairwise_postorderWithin hc acyclic (hlevel p hp)

/-- Nothing is listed twice. -/
theorem nodup_postorder : (g.postorder root).Nodup :=
  (pairwise_postorder hc acyclic).imp fun h => h.1

/-- In pre-order nothing is listed twice either. -/
theorem nodup_nested : (g.nested root).Nodup := by
  have hperm : (g.nested root).Perm (g.postorder root) :=
    List.Perm.flatMap_left (g.innerOps root) fun o _ => g.preorderWithin_perm _ o
  exact hperm.nodup_iff.mpr (nodup_postorder hc acyclic)

end

end Graph

end SimdLowering
