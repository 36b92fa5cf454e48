/-
What lies under a root.

The listings of a graph (`nested`, `blocksWithin`) are defined with a depth that stops
them on a nesting that runs in circles. Where nothing runs in a circle through the root
the depth is never reached, and membership in the listings is a statement about paths
alone: a region of the root, a block of it, an operation of that, a region of that
operation, and so on. The proofs above this file use the paths.

That the depth suffices is a counting argument. Going up from a region there is no
choice, because each of the three tables names one parent; so a region has one level,
the regions on one path have different levels, and there are no more of them than the
arena holds.
-/
import SimdLowering.Proofs.Graph.Consistency
import SimdLowering.Graph.Validate
import Mathlib.Data.Fintype.Card
import Mathlib.Data.Finset.Range

set_option autoImplicit false

namespace SimdLowering

namespace Graph

variable {g g' : Graph} {gone : List OpId} {root o p x : OpId} {b c : BlockId}
  {r s : RegionId} {v : ValueId} {n m d : Nat}

/-- The region is reached from the root through so many regions, itself included. -/
inductive Under (g : Graph) (root : OpId) : Nat → RegionId → Prop
  | own {r : RegionId} : r ∈ g.regionsOf root → Under g root 1 r
  | inner {n : Nat} {r s : RegionId} {b : BlockId} {o : OpId} : Under g root n r →
      b ∈ g.blocksIn r → o ∈ g.opsIn b → s ∈ g.regionsOf o → Under g root (n + 1) s

/-- The block lies under the root. -/
def HoldsBlock (g : Graph) (root : OpId) (b : BlockId) : Prop :=
  ∃ n r, g.Under root n r ∧ b ∈ g.blocksIn r

/-- The operation lies under the root, at whatever depth. -/
def Inside (g : Graph) (root o : OpId) : Prop := ∃ b, g.HoldsBlock root b ∧ o ∈ g.opsIn b

/-! ## Paths from the other end -/

theorem Under.pos (h : g.Under root n r) : 0 < n := by
  cases h <;> omega

/-- A path below an operation of a region of the root is a path below the root. -/
theorem Under.descend (hr : r ∈ g.regionsOf root) (hb : b ∈ g.blocksIn r) (ho : o ∈ g.opsIn b)
    (h : g.Under o n s) : g.Under root (n + 1) s := by
  induction h with
  | own hs => exact .inner (.own hr) hb ho hs
  | inner _ hb' ho' hs ih => exact .inner ih hb' ho' hs

/-- A path of at least two regions starts in a region of the root. -/
theorem Under.first (h : g.Under root (n + 1) s) (hn : 0 < n) :
    ∃ r b o, r ∈ g.regionsOf root ∧ b ∈ g.blocksIn r ∧ o ∈ g.opsIn b ∧ g.Under o n s := by
  induction n generalizing s with
  | zero => omega
  | succ k ih =>
    cases h with
    | inner hr hb ho hs =>
      cases k with
      | zero =>
        cases hr with
        | own hr => exact ⟨_, _, _, hr, hb, ho, .own hs⟩
        | inner h' _ _ _ => exact absurd h'.pos (by omega)
      | succ k =>
        obtain ⟨r₁, b₁, o₁, hr₁, hb₁, ho₁, hu⟩ := ih hr (by omega)
        exact ⟨r₁, b₁, o₁, hr₁, hb₁, ho₁, .inner hu hb ho hs⟩

theorem mem_innerOps : x ∈ g.innerOps o ↔
    ∃ r b, r ∈ g.regionsOf o ∧ b ∈ g.blocksIn r ∧ x ∈ g.opsIn b := by
  simp only [innerOps, opsOfRegion, List.mem_flatMap]
  constructor
  · rintro ⟨r, hr, b, hb, hx⟩
    exact ⟨r, b, hr, hb, hx⟩
  · rintro ⟨r, b, hr, hb, hx⟩
    exact ⟨r, hr, b, hb, hx⟩

/-- The pre-order listing with a depth sees the paths that are shorter. -/
theorem mem_preorderWithin : x ∈ g.preorderWithin d o ↔
    0 < d ∧ (x = o ∨ ∃ n r b, n < d ∧ g.Under o n r ∧ b ∈ g.blocksIn r ∧ x ∈ g.opsIn b) := by
  induction d generalizing o with
  | zero => simp [preorderWithin]
  | succ d ih =>
    rw [preorderWithin, List.mem_cons, List.mem_flatMap]
    constructor
    · rintro (rfl | ⟨q, hq, hx⟩)
      · exact ⟨by omega, Or.inl rfl⟩
      · obtain ⟨r, b, hr, hb, hqb⟩ := mem_innerOps.mp hq
        obtain ⟨hd, rfl | ⟨n, s, c, hn, hs, hc, hxc⟩⟩ := ih.mp hx
        · exact ⟨by omega, Or.inr ⟨1, r, b, by omega, .own hr, hb, hqb⟩⟩
        · exact ⟨by omega, Or.inr ⟨n + 1, s, c, by omega, .descend hr hb hqb hs, hc, hxc⟩⟩
    · rintro ⟨-, rfl | ⟨n, s, c, hn, hs, hc, hxc⟩⟩
      · exact Or.inl rfl
      · right
        obtain ⟨n, rfl⟩ : ∃ k, n = k + 1 := ⟨n - 1, by have := hs.pos; omega⟩
        -- Either the block lies in a region of `o` itself, or the way down goes through an
        -- operation there.
        rcases Nat.eq_zero_or_pos n with rfl | hpos
        · cases hs with
          | own hs => exact ⟨x, mem_innerOps.mpr ⟨s, c, hs, hc, hxc⟩, ih.mpr ⟨by omega, Or.inl rfl⟩⟩
          | inner h' _ _ _ => exact absurd h'.pos (by omega)
        · obtain ⟨r, b, q, hr, hb, hq, hu⟩ := hs.first hpos
          exact ⟨q, mem_innerOps.mpr ⟨r, b, hr, hb, hq⟩,
            ih.mpr ⟨by omega, Or.inr ⟨n, s, c, by omega, hu, hc, hxc⟩⟩⟩

/-- The listing of blocks with a depth sees the paths that are not longer. -/
theorem mem_blocksWithin : b ∈ g.blocksWithin d o ↔
    ∃ n r, n ≤ d ∧ g.Under o n r ∧ b ∈ g.blocksIn r := by
  induction d generalizing o with
  | zero =>
    simp only [blocksWithin, List.not_mem_nil, false_iff]
    rintro ⟨n, r, hn, hu, -⟩
    have := hu.pos
    omega
  | succ d ih =>
    simp only [blocksWithin, List.mem_flatMap, List.mem_cons]
    constructor
    · rintro ⟨c, ⟨r, hr, hc⟩, rfl | ⟨q, hq, hb⟩⟩
      · exact ⟨1, r, by omega, .own hr, hc⟩
      · obtain ⟨n, s, hn, hu, hb⟩ := ih.mp hb
        exact ⟨n + 1, s, by omega, .descend hr hc hq hu, hb⟩
    · rintro ⟨n, s, hn, hu, hb⟩
      obtain ⟨n, rfl⟩ : ∃ k, n = k + 1 := ⟨n - 1, by have := hu.pos; omega⟩
      -- A level of one is the operation itself, and anything deeper goes through an operation
      -- inside.
      rcases Nat.eq_zero_or_pos n with rfl | hpos
      · cases hu with
        | own hs => exact ⟨b, ⟨s, hs, hb⟩, Or.inl rfl⟩
        | inner h' _ _ _ => exact absurd h'.pos (by omega)
      · obtain ⟨r, c, q, hr, hc, hq, hu⟩ := hu.first hpos
        exact ⟨c, ⟨r, hr, hc⟩, Or.inr ⟨q, hq, ih.mpr ⟨n, s, by omega, hu, hb⟩⟩⟩

/-! ## The depth suffices -/

/-- Where the root is not inside itself, a region has one level. -/
theorem Under.level_unique (hc : NestingAgrees g) (acyclic : ¬ g.Inside root root)
    (h : g.Under root n r) (h' : g.Under root m r) : n = m := by
  have owner : ∀ {r o p}, r ∈ g.regionsOf o → r ∈ g.regionsOf p → o = p := by
    intro r o p ho hp
    have ho := (hc.owns r o).mp ho
    rw [(hc.owns r p).mp hp] at ho
    exact (Option.some.inj ho).symm
  -- The levels are compared from outside; a region of the root that lay deeper would put the root
  -- inside itself.
  induction h generalizing m with
  | own hr =>
    cases h' with
    | own _ => rfl
    | inner hu hb ho hs =>
      obtain rfl := owner hs hr
      exact absurd ⟨_, ⟨_, _, hu, hb⟩, ho⟩ acyclic
  | inner hu hb ho hs ih =>
    cases h' with
    | own hr =>
      obtain rfl := owner hs hr
      exact absurd ⟨_, ⟨_, _, hu, hb⟩, ho⟩ acyclic
    | inner hu' hb' ho' hs' =>
      obtain rfl := owner hs hs'
      have hblock := (hc.places _ _).mp ho
      rw [(hc.places _ _).mp ho'] at hblock
      obtain rfl := Option.some.inj hblock
      have hregion := (hc.encloses _ _).mp hb
      rw [(hc.encloses _ _).mp hb'] at hregion
      obtain rfl := Option.some.inj hregion
      rw [ih hu']

theorem hasRegion_of_mem_blocksIn (h : b ∈ g.blocksIn r) : g.HasRegion r := by
  by_contra hr
  rw [blocksIn, region_eq_default hr] at h
  cases h

/-- Take a way down to a region that no other way to it beats, be it by being shorter or by being
longer. It passes a region at every smaller level, and no way to that one beats it either. -/
theorem Under.exists_level (Beats : Nat → Nat → Prop)
    (shift : ∀ {k n}, Beats k n → Beats (k + 1) (n + 1)) (h : g.Under root n r)
    (hr : g.HasRegion r) (best : ∀ k, g.Under root k r → ¬ Beats k n) (hm : 0 < m) (hmn : m ≤ n) :
    ∃ s, g.HasRegion s ∧ g.Under root m s ∧ ∀ k, g.Under root k s → ¬ Beats k m := by
  induction h with
  | @own r hown =>
    obtain rfl : m = 1 := by omega
    exact ⟨r, hr, .own hown, best⟩
  | @inner k r s b o hu hb ho hs ih =>
    rcases Nat.lt_or_ge k m with hk | hk
    · obtain rfl : m = k + 1 := by omega
      exact ⟨s, hr, .inner hu hb ho hs, best⟩
    · -- A better way to the region before would make the whole way better.
      refine ih (hasRegion_of_mem_blocksIn hb) (fun j hj hbeats => ?_) hk
      exact best (j + 1) (.inner hj hb ho hs) (shift hbeats)

theorem Under.hasRegion (hc : NestingAgrees g) (h : g.Under root n r) : g.HasRegion r := by
  have owned : ∀ {o}, r ∈ g.regionsOf o → g.HasRegion r := by
    intro o ho
    by_contra hr
    have ho := (hc.owns r o).mp ho
    rw [ownerOf?, region_eq_default hr] at ho
    cases ho
  cases h with
  | own hr => exact owned hr
  | inner _ _ _ hs => exact owned hs

/-- A way down that is a best one to its region is not longer than there are regions. -/
theorem Under.best_le_size (Beats : Nat → Nat → Prop)
    (shift : ∀ {k n}, Beats k n → Beats (k + 1) (n + 1))
    (total : ∀ {k n}, ¬ Beats k n → ¬ Beats n k → k = n) (h : g.Under root n r)
    (hr : g.HasRegion r) (best : ∀ k, g.Under root k r → ¬ Beats k n) : n ≤ g.regions.size := by
  -- One region for each level, no two of them equal.
  choose f hregion hunder hbest using fun i : Fin n =>
    h.exists_level Beats shift hr best (m := i.val + 1) (Nat.succ_pos _) (Nat.succ_le_of_lt i.isLt)
  have inj : Function.Injective fun i => (f i).index := by
    intro i j hij
    have hij : f i = f j := by
      cases hi : f i
      cases hj : f j
      simp only [hi, hj] at hij
      rw [hij]
    have h₁ := hbest i _ (hij ▸ hunder j)
    have h₂ := hbest j _ (hij ▸ hunder i)
    exact Fin.ext (Nat.succ.inj (total h₂ h₁))
  have hcard := Finset.card_le_card_of_injOn (s := Finset.univ) (t := Finset.range g.regions.size)
    (fun i => (f i).index)
    (fun i _ => Finset.mem_coe.mpr (Finset.mem_range.mpr (hregion i))) inj.injOn
  simpa using hcard

/-- No shortest path is longer than there are regions. -/
theorem Under.shortest_le_size (h : g.Under root n r) (hr : g.HasRegion r)
    (shortest : ∀ k, g.Under root k r → n ≤ k) : n ≤ g.regions.size := by
  refine h.best_le_size (· < ·) Nat.succ_lt_succ (fun h₁ h₂ => ?_) hr fun k hk => ?_
  · exact Nat.le_antisymm (Nat.not_lt.mp h₂) (Nat.not_lt.mp h₁)
  · exact Nat.not_lt.mpr (shortest k hk)

/-- Neither is a longest one. -/
theorem Under.longest_le_size (h : g.Under root n r) (hr : g.HasRegion r)
    (longest : ∀ k, g.Under root k r → k ≤ n) : n ≤ g.regions.size := by
  refine h.best_le_size (· > ·) Nat.succ_lt_succ (fun h₁ h₂ => ?_) hr fun k hk => ?_
  · exact Nat.le_antisymm (Nat.not_lt.mp h₁) (Nat.not_lt.mp h₂)
  · exact Nat.not_lt.mpr (longest k hk)

/-- Where the root is not inside itself, no path is longer than there are regions. -/
theorem Under.le_size (hc : NestingAgrees g) (acyclic : ¬ g.Inside root root)
    (h : g.Under root n r) : n ≤ g.regions.size :=
  h.shortest_le_size (h.hasRegion hc) fun _ hk => Nat.le_of_eq (h.level_unique hc acyclic hk)

/-- The listing of what is nested in a root holds what lies inside it, and nothing else, whether
or not the root lies inside itself. -/
theorem mem_nested_iff : x ∈ g.nested root ↔ g.Inside root x := by
  simp only [nested, preorder, List.mem_flatMap, mem_preorderWithin, depthBound]
  constructor
  · rintro ⟨q, hq, -, rfl | ⟨n, s, c, -, hs, hc', hx⟩⟩
    · obtain ⟨r, b, hr, hb, hx⟩ := mem_innerOps.mp hq
      exact ⟨b, ⟨1, r, .own hr, hb⟩, hx⟩
    · obtain ⟨r, b, hr, hb, hqb⟩ := mem_innerOps.mp hq
      exact ⟨c, ⟨n + 1, s, .descend hr hb hqb hs, hc'⟩, hx⟩
  · rintro ⟨b, ⟨k, r, hk, hb⟩, hx⟩
    -- Of all the ways down to the region take a shortest one.
    obtain ⟨n, hu, hshort⟩ : ∃ n, g.Under root n r ∧ ∀ k, g.Under root k r → n ≤ k := by
      classical
      have some : ∃ n, g.Under root n r := ⟨k, hk⟩
      exact ⟨Nat.find some, Nat.find_spec some, fun _ h => Nat.find_min' some h⟩
    have hle := hu.shortest_le_size (hasRegion_of_mem_blocksIn hb) hshort
    obtain ⟨n, rfl⟩ : ∃ k, n = k + 1 := ⟨n - 1, by have := hu.pos; omega⟩
    rcases Nat.eq_zero_or_pos n with rfl | hpos
    · cases hu with
      | own hs => exact ⟨x, mem_innerOps.mpr ⟨r, b, hs, hb, hx⟩, by omega, Or.inl rfl⟩
      | inner h' _ _ _ => exact absurd h'.pos (by omega)
    · obtain ⟨r₁, b₁, q, hr₁, hb₁, hq, hu⟩ := hu.first hpos
      exact ⟨q, mem_innerOps.mpr ⟨r₁, b₁, hr₁, hb₁, hq⟩, by omega,
        Or.inr ⟨n, r, b, by omega, hu, hb, hx⟩⟩

section Acyclic

variable (hc : NestingAgrees g) (acyclic : ¬ g.Inside root root)
include hc acyclic

theorem mem_blocksWithin_depthBound :
    b ∈ g.blocksWithin g.depthBound root ↔ g.HoldsBlock root b := by
  rw [mem_blocksWithin]
  constructor
  · rintro ⟨n, r, -, hu, hb⟩
    exact ⟨n, r, hu, hb⟩
  · rintro ⟨n, r, hu, hb⟩
    exact ⟨n, r, Nat.le_succ_of_le (hu.le_size hc acyclic), hu, hb⟩

/-- The values defined under a root are the arguments of its blocks and the results of
its operations. -/
theorem mem_valuesUnder : v ∈ g.valuesUnder root ↔
    (∃ b, g.HoldsBlock root b ∧ v ∈ g.argsOf b) ∨ ∃ o, g.Inside root o ∧ v ∈ g.results o := by
  simp only [valuesUnder, List.mem_append, List.mem_flatMap,
    mem_blocksWithin_depthBound hc acyclic, mem_nested_iff]

end Acyclic

/-! ## Blocks and their operations -/

theorem HoldsBlock.inside (h : g.HoldsBlock root b) (ho : o ∈ g.opsIn b) : g.Inside root o :=
  ⟨b, h, ho⟩

/-- A block of a region of an operation inside the root lies under the root. -/
theorem Inside.holdsBlock (h : g.Inside root o) (hr : r ∈ g.regionsOf o)
    (hb : b ∈ g.blocksIn r) : g.HoldsBlock root b := by
  obtain ⟨c, ⟨n, s, hu, hc⟩, ho⟩ := h
  exact ⟨n + 1, r, .inner hu hc ho hr, hb⟩

theorem holdsBlock_of_mem_regionsOf (hr : r ∈ g.regionsOf root) (hb : b ∈ g.blocksIn r) :
    g.HoldsBlock root b :=
  ⟨1, r, .own hr, hb⟩

/-- The block an inside operation lies in is under the root. -/
theorem Inside.holdsBlock_of_blockOf? (hc : NestingAgrees g) (h : g.Inside root o)
    (hb : g.blockOf? o = some b) : g.HoldsBlock root b := by
  obtain ⟨c, hcb, ho⟩ := h
  rw [(hc.places o c).mp ho] at hb
  exact Option.some.inj hb ▸ hcb

theorem Inside.hasOp (hc : NestingAgrees g) (h : g.Inside root o) : g.HasOp o := by
  obtain ⟨b, -, ho⟩ := h
  exact hasOp_of_blockOf? ((hc.places o b).mp ho)

/-- What lies in no block is inside of nothing. -/
theorem not_inside_of_blockOf? (hc : NestingAgrees g) (h : g.blockOf? o = none) :
    ¬ g.Inside root o := by
  rintro ⟨b, -, ho⟩
  rw [(hc.places o b).mp ho] at h
  cases h

/-- Whatever owns a block under the root is the root or inside it. -/
theorem HoldsBlock.owner (hc : NestingAgrees g) (h : g.HoldsBlock root b) (hb : b ∈ g.blocksIn r)
    (hr : r ∈ g.regionsOf o) : o = root ∨ g.Inside root o := by
  obtain ⟨n, s, hu, hbs⟩ := h
  have hregion := (hc.encloses b s).mp hbs
  rw [(hc.encloses b r).mp hb] at hregion
  obtain rfl := Option.some.inj hregion
  have owner : ∀ {p}, r ∈ g.regionsOf p → o = p := by
    intro p hp
    have ho := (hc.owns r o).mp hr
    rw [(hc.owns r p).mp hp] at ho
    exact (Option.some.inj ho).symm
  cases hu with
  | own hs => exact Or.inl (owner hs)
  | inner hu hb' ho' hs =>
    obtain rfl := owner hs
    exact Or.inr ⟨_, ⟨_, _, hu, hb'⟩, ho'⟩

end Graph

end SimdLowering
