/-
Definition before use, without a scan.

Validation scans each block and carries along the list of values that can be read. The
scan is right to compute with and wrong to reason with: a rewrite changes the lists at
every later point. Here the values that an operation can read are described where the
operation stands: the arguments of its block, the results of what comes before it in
the block, and what the owner of the region can read. The first theorem says that the
scan reports, in pre-order, the slots of operations under the root that hold anything
else; so it finds nothing exactly when every operation there reads only such values.

The second says that this set is closed: what defines a readable value reads only
readable values. Rules look through definitions, and this is what allows them to.
-/
import SimdLowering.Proofs.Graph.Nesting

set_option autoImplicit false

namespace SimdLowering

namespace Graph

variable {g g' : Graph} {gone : List OpId} {root o p q x : OpId} {b c : BlockId}
  {r s : RegionId} {v w : ValueId} {d : Nat}

/-- One operation comes before another in a list. -/
def Precedes (l : List OpId) (p q : OpId) : Prop := [p, q].Sublist l

/-- The value can be read by the operation: it is an argument of its block, a result of
an operation before it, or readable for the owner of its region, where the root counts
as seeing nothing. -/
inductive Visible (g : Graph) (root : OpId) : OpId → ValueId → Prop
  | argument {b : BlockId} {o : OpId} {v : ValueId} : o ∈ g.opsIn b → v ∈ g.argsOf b →
      Visible g root o v
  | earlier {b : BlockId} {p o : OpId} {v : ValueId} : Precedes (g.opsIn b) p o →
      v ∈ g.results p → Visible g root o v
  | outer {q o : OpId} {r : RegionId} {b : BlockId} {v : ValueId} : q ≠ root →
      r ∈ g.regionsOf q → b ∈ g.blocksIn r → o ∈ g.opsIn b → Visible g root q v →
      Visible g root o v

/-! ## Precedence in a list -/

theorem Precedes.mem_left {l : List OpId} (h : Precedes l p q) : p ∈ l :=
  h.subset (List.mem_cons_self ..)

theorem Precedes.mem_right {l : List OpId} (h : Precedes l p q) : q ∈ l :=
  h.subset (by simp)

/-- In a list without repetitions, what comes before an element is what stands left of
it. -/
theorem precedes_append_cons {l m : List OpId} (nodup : (l ++ o :: m).Nodup) :
    Precedes (l ++ o :: m) p o ↔ p ∈ l := by
  rw [List.nodup_append] at nodup
  obtain ⟨-, hm, hd⟩ := nodup
  have ho : o ∉ l := fun h => hd o h o (List.mem_cons_self ..) rfl
  unfold Precedes
  constructor
  · intro h
    obtain ⟨l₁, l₂, he, h₁, h₂⟩ := List.sublist_append_iff.mp h
    match l₁, he with
    | [], he =>
      -- Both in the right part: then `o` stands twice in it.
      subst he
      cases h₂ with
      | cons _ h₂ => exact absurd (h₂.subset (by simp)) (List.nodup_cons.mp hm).1
      | cons_cons _ h₂ => exact absurd (h₂.subset (by simp)) (List.nodup_cons.mp hm).1
    | a :: l₁, he =>
      obtain ⟨rfl, -⟩ := List.cons.inj he
      exact h₁.subset (List.mem_cons_self ..)
  · intro h
    have h₁ : [p].Sublist l := List.singleton_sublist.mpr h
    exact h₁.append (List.singleton_sublist.mpr (List.mem_cons_self ..))

theorem Precedes.ne {l : List OpId} (nodup : l.Nodup) (h : Precedes l p q) : p ≠ q := by
  intro e
  subst e
  have := h.nodup nodup
  simp at this

theorem Precedes.trans {l : List OpId} (nodup : l.Nodup) (h₁ : Precedes l o p)
    (h₂ : Precedes l p q) : Precedes l o q := by
  obtain ⟨l₁, l₂, rfl⟩ := List.append_of_mem h₂.mem_right
  have hp := (precedes_append_cons nodup).mp h₂
  refine (precedes_append_cons nodup).mpr ?_
  obtain ⟨l₃, l₄, rfl⟩ := List.append_of_mem hp
  have nodup' : (l₃ ++ p :: (l₄ ++ q :: l₂)).Nodup := by simpa using nodup
  have ho : o ∈ l₃ := by
    refine (precedes_append_cons nodup').mp ?_
    simpa using h₁
  exact List.mem_append_left _ ho

/-- Of two members of a list one comes first. -/
theorem precedes_total {l : List OpId} (hp : p ∈ l) (hq : q ∈ l) (hne : p ≠ q) :
    Precedes l p q ∨ Precedes l q p := by
  obtain ⟨l₁, l₂, rfl⟩ := List.append_of_mem hp
  rcases List.mem_append.mp hq with hq | hq
  · right
    exact (List.singleton_sublist.mpr hq).append
      (List.singleton_sublist.mpr (List.mem_cons_self ..))
  · left
    have hq : q ∈ l₂ := (List.mem_cons.mp hq).resolve_left (Ne.symm hne)
    exact ((List.singleton_sublist.mpr hq).cons_cons p).trans (List.sublist_append_right ..)

theorem Precedes.asymm {l : List OpId} (nodup : l.Nodup) (h₁ : Precedes l p q) :
    ¬ Precedes l q p := fun h₂ => (h₁.trans nodup h₂).ne nodup rfl

/-- Where other members come in the place of one, what stood before the others still does, and the
new ones stand before what that one stood before. -/
theorem Precedes.exchange {l m new : List OpId} (nodup : (l ++ o :: m).Nodup) (hq : q ≠ o)
    (h : Precedes (l ++ o :: m) p q) :
    (p ≠ o → Precedes (l ++ new ++ m) p q) ∧ (p = o → ∀ n ∈ new, Precedes (l ++ new ++ m) n q) := by
  have ho : o ∉ l := fun h => (List.nodup_append.mp nodup).2.2 o h o (List.mem_cons_self ..) rfl
  constructor
  · intro hp
    have hpair : [p, q].erase o = [p, q] := List.erase_of_not_mem (by simp [Ne.symm hp, Ne.symm hq])
    have hrest : (l ++ o :: m).erase o = l ++ m := by
      rw [List.erase_append_right _ ho, List.erase_cons_head]
    have hsub : [p, q].Sublist (l ++ m) := hpair ▸ hrest ▸ List.Sublist.erase o h
    exact hsub.trans ((List.sublist_append_left ..).append (List.Sublist.refl _))
  · rintro rfl n hn
    have hqm : q ∈ m := by
      rcases List.mem_append.mp h.mem_right with hleft | hright
      · exact absurd ((precedes_append_cons nodup).mpr hleft) (h.asymm nodup)
      · exact (List.mem_cons.mp hright).resolve_left hq
    exact ((List.singleton_sublist.mpr hn).trans (List.sublist_append_right ..)).append
      (List.singleton_sublist.mpr hqm)

/-! ## The scan -/

open Classical in
/-- The definition errors of one operation, where `sees` says what it can read: one for each slot
that holds something else, in slot order. -/
noncomputable def unseenOperands (g : Graph) (sees : ValueId → Prop) (op : OpId) :
    List ValidationError :=
  (g.operands op).zipIdx.filterMap fun (v, slot) =>
    if sees v then none
    else some (.useBeforeDef op (g.kind op) slot v (g.describeOrigin v))

theorem unseenOperands_eq_nil {sees : ValueId → Prop} :
    g.unseenOperands sees o = [] ↔ ∀ v ∈ g.operands o, sees v := by
  simp only [unseenOperands, List.filterMap_eq_nil_iff, Prod.forall]
  constructor
  · intro h v hv
    obtain ⟨i, hi⟩ := List.mem_iff_getElem?.mp hv
    have := h v i (List.mk_mem_zipIdx_iff_getElem?.mpr hi)
    by_contra hn
    simp [hn] at this
  · intro h v i hi
    have hv := List.mem_of_getElem? (List.mk_mem_zipIdx_iff_getElem?.mp hi)
    simp [h v hv]

/-- The list that a scan carries along is as good as the predicate it stands for. -/
theorem hiddenOperands_eq {visible : List ValueId} {sees : ValueId → Prop}
    (h : ∀ v, v ∈ visible ↔ sees v) :
    g.hiddenOperands visible o = g.unseenOperands sees o := by
  unfold hiddenOperands unseenOperands
  congr 1
  funext p
  by_cases hv : sees p.1
  · simp [h, hv]
  · simp [h, hv]

theorem hiddenOperands_eq_nil {visible : List ValueId} :
    g.hiddenOperands visible o = [] ↔ ∀ v ∈ g.operands o, v ∈ visible := by
  rw [hiddenOperands_eq fun v => Iff.rfl, unseenOperands_eq_nil]

/-- The scan of the rest of a block finds at each operation what it finds there with the list it
sees, and this operation after operation. -/
theorem orderErrorsOfOps_eq {inside : List ValueId → RegionId → List ValidationError}
    {visible : List ValueId} {l : List OpId} {found : OpId → List ValidationError}
    (h : ∀ l₁ o l₂, l = l₁ ++ o :: l₂ →
      g.hiddenOperands (l₁.reverse.flatMap g.results ++ visible) o ++
        (g.regionsOf o).flatMap (inside (l₁.reverse.flatMap g.results ++ visible)) = found o) :
    g.orderErrorsOfOps inside visible l = l.flatMap found := by
  induction l generalizing visible with
  | nil => simp [orderErrorsOfOps]
  | cons x l ih =>
    have hx := h [] x l rfl
    have hrest : g.orderErrorsOfOps inside (g.results x ++ visible) l = l.flatMap found := by
      apply ih
      intro l₁ o l₂ he
      have := h (x :: l₁) o l₂ (by rw [he]; rfl)
      simpa [List.append_assoc] using this
    rw [orderErrorsOfOps, hrest, List.flatMap_cons, ← hx]
    simp

section Scan

variable (hc : Consistent g gone)
include hc

/-- What an operation can read, by cases on where its block lies. -/
theorem visible_iff (hq : r ∈ g.regionsOf q) (hb : b ∈ g.blocksIn r) (ho : o ∈ g.opsIn b) :
    g.Visible root o v ↔ v ∈ g.argsOf b ∨ (∃ p, Precedes (g.opsIn b) p o ∧ v ∈ g.results p) ∨
      (q ≠ root ∧ g.Visible root q v) := by
  constructor
  -- Each way of seeing a value goes through the block of `o`, which is `b`.
  · intro h
    cases h with
    | argument ho' hv =>
      obtain rfl := hc.block_unique ho ho'
      exact Or.inl hv
    | earlier hp hv =>
      obtain rfl := hc.block_unique ho hp.mem_right
      exact Or.inr (Or.inl ⟨_, hp, hv⟩)
    | outer hne hr' hb' ho' hv =>
      obtain rfl := hc.block_unique ho ho'
      obtain rfl := hc.region_unique hb hb'
      obtain rfl := hc.owner_unique hq hr'
      exact Or.inr (Or.inr ⟨hne, hv⟩)
  · rintro (hv | ⟨p, hp, hv⟩ | ⟨hne, hv⟩)
    · exact .argument ho hv
    · exact .earlier hp hv
    · exact .outer hne hq hb ho hv

/-- The scan of a region, started with what the owner of the region can read, finds what each
operation nested in the region reads without seeing it, in pre-order. -/
theorem orderErrorsWithin_eq {visible : List ValueId} (hq : r ∈ g.regionsOf q)
    (hvis : ∀ v, v ∈ visible ↔ q ≠ root ∧ g.Visible root q v)
    (acyclic : ¬ g.Inside root root) (hin : q = root ∨ g.Inside root q) :
    g.orderErrorsWithin d visible r =
      ((g.opsOfRegion r).flatMap (g.preorderWithin d)).flatMap fun x =>
        g.unseenOperands (g.Visible root x) x := by
  induction d generalizing visible q r with
  | zero => simp [orderErrorsWithin, preorderWithin]
  | succ d ih =>
    rw [orderErrorsWithin, opsOfRegion, List.flatMap_assoc, List.flatMap_assoc]
    refine List.flatMap_congr fun b hb => ?_
    refine orderErrorsOfOps_eq fun l₁ o l₂ he => ?_
    have ho : o ∈ g.opsIn b := by simp [he]
    -- The list at an operation of the block holds what the operation can read.
    have scope : ∀ v, v ∈ l₁.reverse.flatMap g.results ++ (g.argsOf b ++ visible) ↔
        g.Visible root o v := by
      intro v
      have hpre : ∀ p, Precedes (g.opsIn b) p o ↔ p ∈ l₁ := by
        intro p
        have nodup := hc.placedOnce b
        rw [he] at nodup ⊢
        exact precedes_append_cons nodup
      rw [visible_iff hc hq hb ho]
      simp only [List.mem_append, List.mem_flatMap, List.mem_reverse, hvis, hpre]
      exact or_left_comm
    have hblock : g.HoldsBlock root b := by
      rcases hin with rfl | hin
      · exact holdsBlock_of_mem_regionsOf hq hb
      · exact hin.holdsBlock hq hb
    have hne : o ≠ root := by
      rintro rfl
      exact acyclic (hblock.inside ho)
    have below : ∀ s ∈ g.regionsOf o,
        g.orderErrorsWithin d (l₁.reverse.flatMap g.results ++ (g.argsOf b ++ visible)) s =
          ((g.opsOfRegion s).flatMap (g.preorderWithin d)).flatMap fun x =>
            g.unseenOperands (g.Visible root x) x := by
      intro s hs
      apply ih hs _ (Or.inr (hblock.inside ho))
      intro v
      rw [scope]
      simp [hne]
    rw [hiddenOperands_eq scope, List.flatMap_congr below, preorderWithin, List.flatMap_cons,
      innerOps]
    simp only [List.flatMap_assoc]

/-- The scan of everything under the root finds what each operation there reads without seeing
it, in pre-order. -/
theorem orderErrorsWithin_root_eq (acyclic : ¬ g.Inside root root) :
    (g.regionsOf root).flatMap (g.orderErrorsWithin g.depthBound []) =
      (g.nested root).flatMap fun x => g.unseenOperands (g.Visible root x) x := by
  have hnone : ∀ v, v ∈ ([] : List ValueId) ↔ root ≠ root ∧ g.Visible root root v := by simp
  rw [nested, innerOps, List.flatMap_assoc, List.flatMap_assoc]
  refine List.flatMap_congr fun r hr => ?_
  rw [orderErrorsWithin_eq hc hr hnone acyclic (Or.inl rfl), List.flatMap_assoc]
  rfl

/-- The scan of everything under the root finds nothing exactly when every operation
there reads only what it can see. -/
theorem orderErrorsWithin_root_eq_nil (acyclic : ¬ g.Inside root root) :
    (g.regionsOf root).flatMap (g.orderErrorsWithin g.depthBound []) = [] ↔
      ∀ o, g.Inside root o → ∀ v ∈ g.operands o, g.Visible root o v := by
  simp only [orderErrorsWithin_root_eq hc acyclic, List.flatMap_eq_nil_iff, mem_nested_iff,
    unseenOperands_eq_nil]

/-! ## Looking through definitions -/

/-- Whatever can be read exists. -/
theorem Visible.hasValue (h : g.Visible root o v) : g.HasValue v := by
  induction h with
  | argument _ hv =>
    obtain ⟨i, hi⟩ := List.mem_iff_getElem?.mp hv
    exact hasValue_of_originOf? ((hc.takes _ _ _).mp hi)
  | earlier _ hv => exact hc.hasValue_of_mem_results hv
  | outer _ _ _ _ _ ih => exact ih

/-- Later operations of a block can read what earlier ones can. -/
theorem Visible.later (hp : Precedes (g.opsIn b) p o) (h : g.Visible root p v) :
    g.Visible root o v := by
  cases h with
  | argument hb hv =>
    obtain rfl := hc.block_unique hb hp.mem_left
    exact .argument hp.mem_right hv
  | earlier hq hv =>
    obtain rfl := hc.block_unique hq.mem_right hp.mem_left
    exact .earlier (hq.trans (hc.placedOnce _) hp) hv
  | outer hne hr hb' hm hv =>
    obtain rfl := hc.block_unique hm hp.mem_left
    exact .outer hne hr hb' hp.mem_right hv

/-- What defines a readable value lies under the root, before the reader, and what it
reads is readable too. -/
theorem Visible.through (ordered : ∀ o, g.Inside root o → ∀ v ∈ g.operands o, g.Visible root o v)
    (hin : g.Inside root o) (h : g.Visible root o w) (hw : w ∈ g.results p) :
    g.Inside root p ∧ ∀ v ∈ g.operands p, g.Visible root o v := by
  have same : ∀ {q}, w ∈ g.results q → q = p := by
    intro q hq
    obtain ⟨i, hi⟩ := List.mem_iff_getElem?.mp hq
    obtain ⟨j, hj⟩ := List.mem_iff_getElem?.mp hw
    exact (hc.result_unique hi hj).1
  -- The induction is on how the value is seen; operations before a visible one are visible, too.
  induction h with
  | argument _ hv => exact absurd hw (hc.not_mem_results_of_mem_argsOf hv)
  | earlier hq hv =>
    obtain rfl := same hv
    obtain ⟨c, hcb, ho⟩ := hin
    obtain rfl := hc.block_unique ho hq.mem_right
    have hp := hcb.inside hq.mem_left
    exact ⟨hp, fun u hu => .later hc hq (ordered _ hp u hu)⟩
  | outer hne hr hb ho _ ih =>
    obtain ⟨c, hcb, ho'⟩ := hin
    obtain rfl := hc.block_unique ho ho'
    have hq := (hcb.owner hc.toNestingAgrees hb hr).resolve_left hne
    obtain ⟨hp, hu⟩ := ih hq hw same
    exact ⟨hp, fun u h => .outer hne hr hb ho (hu u h)⟩

end Scan

end Graph

end SimdLowering
