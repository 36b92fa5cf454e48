/-
A splice keeps what is under the root in order.

The operation that goes has no regions, so no path into the nesting leads through it,
and the new ones have none either: which blocks lie under the root does not change at
all. In the one block whose list changes, the new operations stand where the old one
stood. So whatever could see a value still sees it, under the name it has now, and each
new operation sees what the old one saw.
-/
import SimdLowering.Proofs.Graph.Validity
import SimdLowering.Proofs.Rewrite.Splice

set_option autoImplicit false

namespace SimdLowering

namespace Graph

variable {g g' : Graph} {gone : List OpId} {R : ValueId → Prop} {root o p op n : OpId}
  {b c : BlockId} {s : RegionId} {v w old : ValueId} {r : Recipe} {i : Nat} {d : Step}

/-- What is created was not there before. -/
theorem not_hasOp_add (i : Nat) : ¬ g.HasOp ⟨g.ops.size + i⟩ :=
  Nat.not_lt.mpr (Nat.le_add_right ..)

/-- Nor were the values it gives. -/
theorem not_hasValue_add (i : Nat) : ¬ g.HasValue ⟨g.values.size + i⟩ :=
  Nat.not_lt.mpr (Nat.le_add_right ..)

/-- The new operations are the steps of the recipe, in order. -/
theorem mem_nextOps_all : n ∈ g.nextOps r.all.length ↔
    ∃ i d, r.all[i]? = some d ∧ n = ⟨g.ops.size + i⟩ := by
  rw [mem_nextOps]
  constructor
  · rintro ⟨i, hi, rfl⟩
    exact ⟨i, _, List.getElem?_eq_getElem hi, rfl⟩
  · rintro ⟨i, d, hd, rfl⟩
    refine ⟨i, ?_, rfl⟩
    by_contra hge
    rw [List.getElem?_eq_none (by omega)] at hd
    cases hd

namespace Spliced

variable (hs : Spliced g g' gone op b old r)
include hs

/-! ## Records, field by field -/

theorem hasValue_old : g.HasValue old :=
  hs.before.hasValue_of_mem_results (o := op) (by simp [hs.single])

/-- An operation that was there may read other values and lie in another block, and that is all. -/
theorem op_of_hasOp (ho : g.HasOp o) : ∃ f k, g'.op o =
    { (g.op o).mapReads f with block := k } := by
  by_cases e : o = op
  · subst e
    exact ⟨_, _, hs.left⟩
  · exact ⟨_, _, hs.kept o ho e⟩

theorem kind_of_hasOp (ho : g.HasOp o) : g'.kind o = g.kind o := by
  obtain ⟨f, k, h⟩ := hs.op_of_hasOp ho
  rw [kind, h]
  rfl

theorem attrs_of_hasOp (ho : g.HasOp o) : g'.attrs o = g.attrs o := by
  obtain ⟨f, k, h⟩ := hs.op_of_hasOp ho
  rw [attrs, h]
  rfl

theorem results_of_hasOp (ho : g.HasOp o) : g'.results o = g.results o := by
  obtain ⟨f, k, h⟩ := hs.op_of_hasOp ho
  rw [results, h]
  rfl

theorem regionsOf_of_hasOp (ho : g.HasOp o) : g'.regionsOf o = g.regionsOf o := by
  obtain ⟨f, k, h⟩ := hs.op_of_hasOp ho
  rw [regionsOf, h]
  rfl

/-- It reads the stand-in where it read the old result. -/
theorem operands_of_hasOp (ho : g.HasOp o) :
    g'.operands o = (g.operands o).map (readAs gone old (g.standIn r) o) := by
  rw [operands, operands, ← mapIdx_const]
  by_cases e : o = op
  · subst e
    rw [hs.left]
    rfl
  · rw [hs.kept o ho e]
    rfl

/-- Only the operation that is rewritten leaves its block. -/
theorem blockOf?_of_ne (ho : g.HasOp o) (hne : o ≠ op) : g'.blockOf? o = g.blockOf? o := by
  rw [blockOf?, hs.kept o ho hne]
  rfl

/-- And that one has no block any more. -/
theorem blockOf?_left : g'.blockOf? op = none := by
  rw [blockOf?, hs.left]

theorem kind_made (hd : r.all[i]? = some d) : g'.kind ⟨g.ops.size + i⟩ = d.kind := by
  rw [kind, hs.made i d hd]
  rfl

theorem attrs_made (hd : r.all[i]? = some d) : g'.attrs ⟨g.ops.size + i⟩ = d.attrs := by
  rw [attrs, hs.made i d hd]
  rfl

/-- A new operation gives one value, the next one. -/
theorem results_made (hd : r.all[i]? = some d) :
    g'.results ⟨g.ops.size + i⟩ = [⟨g.values.size + i⟩] := by
  rw [results, hs.made i d hd]
  rfl

theorem regionsOf_made (hd : r.all[i]? = some d) : g'.regionsOf ⟨g.ops.size + i⟩ = [] := by
  rw [regionsOf, hs.made i d hd]
  rfl

/-- It reads what its step names, and the stand-in if that is the old result. -/
theorem operands_made (hd : r.all[i]? = some d) :
    g'.operands ⟨g.ops.size + i⟩ =
      (d.operands.map (Source.valueFrom g.values.size)).map (renamed old (g.standIn r)) := by
  rw [operands, hs.made i d hd, ← mapIdx_const]
  rfl

/-- What is there was there before or is made by the recipe. -/
theorem hasOp_iff : g'.HasOp o ↔ g.HasOp o ∨ ∃ i d, r.all[i]? = some d ∧ o = ⟨g.ops.size + i⟩ := by
  rw [HasOp, hs.opsSize, HasOp]
  constructor
  · intro ho
    by_cases hlt : o.index < g.ops.size
    · exact Or.inl hlt
    · right
      refine ⟨o.index - g.ops.size, _, List.getElem?_eq_getElem (by omega), ?_⟩
      obtain ⟨j⟩ := o
      simp only [OpId.mk.injEq] at hlt ⊢
      omega
  · rintro (ho | ⟨i, d, hd, rfl⟩)
    · omega
    · have hlt : i < r.all.length := by
        by_contra hge
        rw [List.getElem?_eq_none (by omega)] at hd
        cases hd
      simp only
      omega

/-- Values that were there are what they were. -/
theorem value?_of_hasValue (hv : g.HasValue v) : g'.value? v = g.value? v := by
  rw [hs.value?, if_pos hv]

/-- A new value has the type that its step gives. -/
theorem value?_made (hd : r.all[i]? = some d) :
    g'.value? ⟨g.values.size + i⟩ = some ⟨.result ⟨g.ops.size + i⟩ 0, d.resultType⟩ := by
  rw [hs.value?, if_neg (not_hasValue_add i)]
  simp [hd]

/-- No value goes away. -/
theorem hasValue (hv : g.HasValue v) : g'.HasValue v := by
  unfold HasValue at hv ⊢
  rw [hs.valuesSize]
  omega

theorem argsOf (c : BlockId) : g'.argsOf c = g.argsOf c := by
  obtain ⟨l₁, l₂, -, h⟩ := hs.block
  rw [Graph.argsOf, Graph.argsOf, h]
  split <;> rfl

theorem blocksIn (s : RegionId) : g'.blocksIn s = g.blocksIn s := by
  rw [Graph.blocksIn, Graph.blocksIn, region, region, region?, region?, hs.regions]

/-- In its block the new operations stand for the old one; the other blocks are as they
were. -/
theorem opsIn : ∃ l₁ l₂, g.opsIn b = l₁ ++ op :: l₂ ∧
    g'.opsIn b = l₁ ++ g.nextOps r.all.length ++ l₂ ∧ ∀ c, c ≠ b → g'.opsIn c = g.opsIn c := by
  obtain ⟨l₁, l₂, hl, h⟩ := hs.block
  refine ⟨l₁, l₂, hl, ?_, fun c hne => ?_⟩
  · rw [Graph.opsIn, h, if_pos rfl]
  · rw [Graph.opsIn, Graph.opsIn, h, if_neg (Ne.symm hne)]

/-! ## The nesting -/

theorem hasOp_op : g.HasOp op := hasOp_of_blockOf? hs.placed

/-- The operation lay in one block only. -/
theorem block_eq (h : op ∈ g.opsIn c) : b = c :=
  hs.before.block_unique ((hs.before.places op b).mpr hs.placed) h

/-- No other operation that was there changes its block. -/
theorem mem_opsIn_of_ne (ho : g.HasOp o) (hne : o ≠ op) : o ∈ g'.opsIn c ↔ o ∈ g.opsIn c := by
  have hnew : o ∉ g.nextOps r.all.length := fun h => nextOps_fresh h ho
  obtain ⟨l₁, l₂, hl, hl', hother⟩ := hs.opsIn
  by_cases e : c = b
  · subst e
    rw [hl, hl']
    simp [hne, hnew]
  · rw [hother c e]

/-- The new ones lie in the block of the one that is rewritten. -/
theorem mem_opsIn_made : n ∈ g.nextOps r.all.length → (n ∈ g'.opsIn c ↔ c = b) := by
  intro hn
  obtain ⟨l₁, l₂, -, hl', hother⟩ := hs.opsIn
  constructor
  · intro hm
    by_contra hne
    rw [hother c hne] at hm
    exact nextOps_fresh hn (hasOp_of_blockOf? ((hs.before.places n c).mp hm))
  · rintro rfl
    rw [hl']
    simp [hn]

/-- That one lies in none. -/
theorem not_mem_opsIn_left : op ∉ g'.opsIn c := by
  have hnew : ∀ k, op ∉ g.nextOps k := fun k h => nextOps_fresh h (hs.hasOp_op)
  obtain ⟨l₁, l₂, hl, hl', hother⟩ := hs.opsIn
  by_cases e : c = b
  · subst e
    have hd := hs.before.placedOnce c
    rw [hl, List.nodup_append] at hd
    have h₁ : op ∉ l₁ := fun h => hd.2.2 op h op (List.mem_cons_self ..) rfl
    have h₂ : op ∉ l₂ := (List.nodup_cons.mp hd.2.1).1
    rw [hl']
    simp [h₁, h₂, hnew]
  · rw [hother c e]
    intro hm
    exact e (hs.block_eq hm).symm

/-- A block holds what it held, with the new operations in the place of the old one. -/
theorem mem_opsIn : o ∈ g'.opsIn c ↔
    (o ∈ g.opsIn c ∧ o ≠ op) ∨ (o ∈ g.nextOps r.all.length ∧ c = b) := by
  by_cases ho : g.HasOp o
  · have hnew : o ∉ g.nextOps r.all.length := fun h => nextOps_fresh h ho
    by_cases e : o = op
    · subst e
      simp [hs.not_mem_opsIn_left, hnew]
    · simp [hs.mem_opsIn_of_ne ho e, e, hnew]
  · have hout : o ∉ g.opsIn c := fun hm => ho (hasOp_of_blockOf? ((hs.before.places o c).mp hm))
    by_cases hn : o ∈ g.nextOps r.all.length
    · simp [hs.mem_opsIn_made hn, hn, hout]
    · simp only [hout, hn, false_and, or_self, iff_false]
      obtain ⟨l₁, l₂, hl, hl', hother⟩ := hs.opsIn
      by_cases e : c = b
      · subst e
        rw [hl]at hout
        rw [hl']
        simp only [List.mem_append, List.mem_cons, not_or] at hout ⊢
        exact ⟨⟨hout.1, hn⟩, hout.2.2⟩
      · rw [hother c e]
        exact hout

/-- Only operations that were there own regions, and not the one that goes. -/
theorem mem_regionsOf : s ∈ g'.regionsOf o ↔ s ∈ g.regionsOf o := by
  by_cases ho : g.HasOp o
  · rw [hs.regionsOf_of_hasOp ho]
  · constructor
    · intro hm
      obtain h | ⟨i, d, hd, rfl⟩ := hs.hasOp_iff.mp (hasOp_of_mem_regionsOf hm)
      · exact absurd h ho
      · rw [hs.regionsOf_made hd] at hm
        cases hm
    · intro hm
      exact absurd (hasOp_of_mem_regionsOf hm) ho

/-- An operation with regions stays where it is. -/
theorem mem_opsIn_of_mem_regionsOf (hm : s ∈ g.regionsOf o) : o ∈ g'.opsIn c ↔ o ∈ g.opsIn c := by
  refine hs.mem_opsIn_of_ne (hasOp_of_mem_regionsOf hm) ?_
  rintro rfl
  rw [hs.bare] at hm
  cases hm

/-- Regions nest as they did, since what is rewritten and what is made have none. -/
theorem under_iff {k : Nat} : g'.Under root k s ↔ g.Under root k s := by
  constructor
  · intro h
    induction h with
    | own hr => exact .own ((hs.mem_regionsOf).mp hr)
    | inner _ hb ho hr ih =>
      have hr := (hs.mem_regionsOf).mp hr
      rw [hs.blocksIn] at hb
      exact .inner ih hb ((hs.mem_opsIn_of_mem_regionsOf hr).mp ho) hr
  · intro h
    induction h with
    | own hr => exact .own ((hs.mem_regionsOf).mpr hr)
    | inner _ hb ho hr ih =>
      refine .inner ih ?_ ((hs.mem_opsIn_of_mem_regionsOf hr).mpr ho)
        ((hs.mem_regionsOf).mpr hr)
      rw [hs.blocksIn]
      exact hb

/-- So do blocks. -/
theorem holdsBlock_iff : g'.HoldsBlock root c ↔ g.HoldsBlock root c := by
  simp only [HoldsBlock, hs.under_iff, hs.blocksIn]

/-- Inside the root are the operations that were there, less the one that goes, and the
new ones if it was there itself. -/
theorem inside_iff (hin : g.Inside root op) : g'.Inside root o ↔
    (g.Inside root o ∧ o ≠ op) ∨ o ∈ g.nextOps r.all.length := by
  have hb : g.HoldsBlock root b := hin.holdsBlock_of_blockOf? hs.before.toNestingAgrees hs.placed
  simp only [Inside, hs.holdsBlock_iff, hs.mem_opsIn]
  constructor
  · rintro ⟨c, hcb, ⟨ho, hne⟩ | ⟨ho, -⟩⟩
    · exact Or.inl ⟨⟨c, hcb, ho⟩, hne⟩
    · exact Or.inr ho
  · rintro (⟨⟨c, hcb, ho⟩, hne⟩ | ho)
    · exact ⟨c, hcb, Or.inl ⟨ho, hne⟩⟩
    · exact ⟨b, hb, Or.inr ⟨ho, rfl⟩⟩

/-- A root that is not inside of itself is not afterwards. -/
theorem acyclic (hin : g.Inside root op) (h : ¬ g.Inside root root) : ¬ g'.Inside root root := by
  intro hroot
  rcases (hs.inside_iff hin).mp hroot with ⟨hr, -⟩ | hnew
  · exact h hr
  · -- A root that something lies inside of owns a region, and new operations own none.
    obtain ⟨c, ⟨n, s, hu, -⟩, -⟩ := hin
    have owns : ∃ s, s ∈ g.regionsOf root := by
      clear hroot hnew
      induction hu with
      | own hr => exact ⟨_, hr⟩
      | inner _ _ _ _ ih => exact ih
    obtain ⟨s, hs⟩ := owns
    exact nextOps_fresh hnew (hasOp_of_mem_regionsOf hs)

/-! ## What can be seen -/

/-- What came before an operation still does; where that was the one that goes, all the
new ones do now. -/
theorem precedes_of_ne (ho : o ≠ op) (h : Precedes (g.opsIn c) p o) :
    (p ≠ op → Precedes (g'.opsIn c) p o) ∧
      (p = op → ∀ n ∈ g.nextOps r.all.length, Precedes (g'.opsIn c) n o) := by
  obtain ⟨l₁, l₂, hl, hl', hother⟩ := hs.opsIn
  by_cases e : c = b
  · subst e
    have hnodup := hs.before.placedOnce c
    rw [hl] at h hnodup
    rw [hl']
    exact h.exchange hnodup ho
  · rw [hother c e]
    refine ⟨fun _ => h, ?_⟩
    rintro rfl
    exact absurd (hs.block_eq h.mem_left).symm e

/-- What came before the operation that goes comes before the new ones. -/
theorem precedes_made (h : Precedes (g.opsIn b) p op) (hn : n ∈ g.nextOps r.all.length) :
    Precedes (g'.opsIn b) p n := by
  obtain ⟨l₁, l₂, hl, hl', -⟩ := hs.opsIn
  have hd := hs.before.placedOnce b
  rw [hl] at h hd
  have hp := (precedes_append_cons hd).mp h
  rw [hl']
  exact ((List.singleton_sublist.mpr hp).append (List.singleton_sublist.mpr hn)).trans
    (List.sublist_append_left ..)

/-- Of the operations that were there, only those that came before the one that goes come
before the new ones. -/
theorem precedes_of_made (hp : g.HasOp p) (hn : n ∈ g.nextOps r.all.length)
    (h : Precedes (g'.opsIn b) p n) : Precedes (g.opsIn b) p op := by
  have hne : p ≠ op := by
    rintro rfl
    exact hs.not_mem_opsIn_left h.mem_left
  have hmem := (hs.mem_opsIn_of_ne hp hne).mp h.mem_left
  have hop := (hs.before.places op b).mpr hs.placed
  refine (precedes_total hmem hop hne).resolve_right fun hback => ?_
  exact h.asymm (hs.after.placedOnce b) ((hs.precedes_of_ne hne hback).2 rfl n hn)

/-- New operations come in the order of their steps. -/
theorem precedes_steps {j : Nat} (hij : i < j) (hj : j < r.all.length) :
    Precedes (g'.opsIn b) ⟨g.ops.size + i⟩ ⟨g.ops.size + j⟩ := by
  obtain ⟨l₁, l₂, -, hl', -⟩ := hs.opsIn
  rw [hl']
  refine List.Sublist.trans ?_
    ((List.sublist_append_right l₁ (g.nextOps r.all.length)).trans (List.sublist_append_left ..))
  have h : [i, j].Sublist (List.range r.all.length) := by
    have hsplit : List.range r.all.length = List.range j ++ List.range' j (r.all.length - j) := by
      rw [List.range_eq_range', List.range_eq_range']
      have h := List.range'_append_1 (s := 0) (m := j) (n := r.all.length - j)
      rw [Nat.zero_add] at h
      rw [h]
      congr 1
      omega
    rw [hsplit]
    exact (List.singleton_sublist.mpr (List.mem_range.mpr hij)).append
      (List.singleton_sublist.mpr (by simp [List.mem_range']; omega))
  exact h.map fun i => (⟨g.ops.size + i⟩ : OpId)

/-- Whatever an operation could see it still sees, by the name it has now; and the new
operations see what the one that goes saw. -/
theorem visible (h : g.Visible root o v) :
    (o ≠ op → g'.Visible root o (renamed old (g.standIn r) v)) ∧
      (o = op → ∀ n ∈ g.nextOps r.all.length, g'.Visible root n (renamed old (g.standIn r) v)) := by
  have hop : g.HasOp op := hs.hasOp_op
  have isOld : old ∈ g.results op := by simp [hs.single]
  have hlast := r.getElem?_all_final
  have hlastMem : (⟨g.ops.size + r.steps.length⟩ : OpId) ∈ g.nextOps r.all.length :=
    (mem_nextOps_all).mpr ⟨_, _, hlast, rfl⟩
  induction h with
  | @argument c o v hb hv =>
    have hne : v ≠ old := by
      rintro rfl
      exact hs.before.not_mem_results_of_mem_argsOf hv isOld
    have hren : renamed old (g.standIn r) v = v := if_neg hne
    rw [hren]
    constructor
    · intro ho
      have hob := (hs.mem_opsIn_of_ne (hasOp_of_blockOf? ((hs.before.places o c).mp hb)) ho).mpr hb
      exact .argument hob (by rw [hs.argsOf]; exact hv)
    · rintro rfl n hn
      obtain rfl := hs.block_eq hb
      exact .argument ((hs.mem_opsIn_made hn).mpr rfl) (by rw [hs.argsOf]; exact hv)
  | @earlier c p o v hp hv =>
    have hpop : g.HasOp p := hasOp_of_blockOf? ((hs.before.places p c).mp hp.mem_left)
    by_cases e : p = op
    · -- The value is the old result; the last new operation gives the value for it.
      subst e
      rw [hs.single, List.mem_singleton] at hv
      subst hv
      have hren : renamed v (g.standIn r) v = g.standIn r := if_pos rfl
      rw [hren]
      constructor
      · intro ho
        refine .earlier ((hs.precedes_of_ne ho hp).2 rfl _ hlastMem) ?_
        rw [hs.results_made hlast]
        exact List.mem_singleton.mpr rfl
      · rintro rfl
        exact absurd rfl (hp.ne (hs.before.placedOnce c))
    · have hne : v ≠ old := by
        rintro rfl
        obtain ⟨i, hi⟩ := List.mem_iff_getElem?.mp hv
        obtain ⟨j, hj⟩ := List.mem_iff_getElem?.mp isOld
        exact e (hs.before.result_unique hi hj).1
      have hren : renamed old (g.standIn r) v = v := if_neg hne
      rw [hren]
      have hv' : v ∈ g'.results p := by
        rw [hs.results_of_hasOp hpop]
        exact hv
      constructor
      · intro ho
        exact .earlier ((hs.precedes_of_ne ho hp).1 e) hv'
      · rintro rfl n hn
        obtain rfl := hs.block_eq hp.mem_right
        exact .earlier (hs.precedes_made hp hn) hv'
  | @outer q o s c v hne hr hb ho _ ih =>
    have hq : q ≠ op := by
      rintro rfl
      rw [hs.bare] at hr
      cases hr
    have hr' := (hs.mem_regionsOf).mpr hr
    have hb' : c ∈ g'.blocksIn s := by
      rw [hs.blocksIn]
      exact hb
    constructor
    · intro hop'
      have ho' := (hs.mem_opsIn_of_ne (hasOp_of_blockOf? ((hs.before.places o c).mp ho))
        hop').mpr ho
      exact .outer hne hr' hb' ho' (ih.1 hq)
    · rintro rfl n hn
      obtain rfl := hs.block_eq ho
      exact .outer hne hr' hb' ((hs.mem_opsIn_made hn).mpr rfl) (ih.1 hq)

/-- A splice of a recipe that reads only what the operation could see keeps the order. -/
theorem ordered (h : g.Ordered root gone) (hin : g.Inside root op)
    (hr : r.Fine fun v => g.Visible root op v) : g'.Ordered root (op :: gone) := by
  refine ⟨hs.acyclic hin h.acyclic, fun o ho v hv => ?_, fun o ho hg => ?_⟩
  · rcases (hs.inside_iff hin).mp ho with ⟨ho, hne⟩ | hn
    · rw [hs.operands_of_hasOp (ho.hasOp hs.before.toNestingAgrees), List.mem_map] at hv
      obtain ⟨w, hw, rfl⟩ := hv
      have hlive : o ∉ gone := by
        intro hg
        rw [h.live o ho hg] at hw
        cases hw
      rw [readAs, if_neg hlive]
      exact (hs.visible (h.visible o ho w hw)).1 hne
    · obtain ⟨i, d, hd, rfl⟩ := (mem_nextOps_all).mp hn
      rw [hs.operands_made hd, List.map_map, List.mem_map] at hv
      obtain ⟨s, hsrc, rfl⟩ := hv
      have hfine := (hr i d hd).reads s hsrc
      cases s with
      | value v => exact (hs.visible hfine).2 rfl _ hn
      | step j =>
        -- The result of an earlier step is not the old result, so it keeps its name.
        have hj : j < i := hfine
        have hi : i < r.all.length := by
          by_contra hge
          rw [List.getElem?_eq_none (by omega)] at hd
          cases hd
        have hne : (⟨g.values.size + j⟩ : ValueId) ≠ old := by
          rintro e
          exact not_hasValue_add j (e ▸ hs.hasValue_old)
        have hname : (renamed old (g.standIn r) ∘ Source.valueFrom g.values.size) (.step j) =
            ⟨g.values.size + j⟩ := if_neg hne
        rw [hname]
        refine .earlier (hs.precedes_steps hj hi) ?_
        rw [hs.results_made (List.getElem?_eq_getElem (by omega : j < r.all.length))]
        exact List.mem_singleton.mpr rfl
  · rcases (hs.inside_iff hin).mp ho with ⟨ho, hne⟩ | hn
    · rw [hs.operands_of_hasOp (ho.hasOp hs.before.toNestingAgrees),
        h.live o ho ((List.mem_cons.mp hg).resolve_left hne)]
      rfl
    · have hnot := nextOps_fresh hn
      rcases List.mem_cons.mp hg with rfl | hg
      · exact absurd (hs.hasOp_op) hnot
      · exact absurd (hs.before.known o hg) hnot

/-- If no operation waits for a value that is still to come, nobody outside the root
reads a new value, and the splice keeps the root valid. -/
theorem valid (h : g.Valid root gone) (hin : g.Inside root op)
    (hr : r.Fine fun v => g.Visible root op v)
    (hreads : ∀ o, o ∉ gone → ∀ v ∈ g.operands o, g.HasValue v) : g'.Valid root (op :: gone) := by
  refine ⟨hs.ordered h.toOrdered hin hr, fun v o hdef hg ho => ?_⟩
  rw [hs.inside_iff hin]
  -- A reader outside was there before and read the same or the old result; a new one lies inside.
  rcases hs.hasOp_iff.mp (hasOp_of_mem_operands ho) with hop | ⟨i, d, hd, rfl⟩
  · left
    obtain ⟨hne, hlive⟩ := not_or.mp (fun h => hg (List.mem_cons.mpr h))
    rw [hs.operands_of_hasOp hop, List.mem_map] at ho
    obtain ⟨w, hw, hwv⟩ := ho
    rw [readAs, if_neg hlive] at hwv
    refine ⟨?_, hne⟩
    by_cases e : w = old
    · subst e
      exact h.enclosed w o (Or.inr ⟨op, hin, by simp [hs.single]⟩) hlive hw
    · obtain rfl : w = v := by rw [← hwv, renamed, if_neg e]
      refine h.enclosed w o ?_ hlive hw
      rcases hdef with ⟨c, hcb, hv⟩ | ⟨p, hp, hv⟩
      · rw [hs.argsOf] at hv
        exact Or.inl ⟨c, (hs.holdsBlock_iff).mp hcb, hv⟩
      · rcases (hs.inside_iff hin).mp hp with ⟨hp, -⟩ | hn
        · rw [hs.results_of_hasOp (hp.hasOp hs.before.toNestingAgrees)] at hv
          exact Or.inr ⟨p, hp, hv⟩
        · obtain ⟨i, d, hd, rfl⟩ := (mem_nextOps_all).mp hn
          rw [hs.results_made hd, List.mem_singleton] at hv
          subst hv
          exact absurd (hreads o hlive _ hw) (not_hasValue_add i)
  · exact Or.inr ((mem_nextOps_all).mpr ⟨i, d, hd, rfl⟩)

end Spliced

end Graph

end SimdLowering
