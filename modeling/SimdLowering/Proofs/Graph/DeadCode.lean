/-
Dead code goes without a trace.

An operation that is dropped was read by nobody. So the graph without it is the old one with
one name less in one block: what everybody else reads, and can see, is as it was, and a run
that returns something returns the same without the values that nobody asked for. That is
`Dropped`, and what it keeps, all sweeps keep, whatever their order and however many there
are.

That a sweep cannot fail needs one more thing. It goes through a list that was made before it
began to drop operations, so each operation on the list has to be in its block still when its
turn comes. It is, since a sweep drops nothing but what it has come to.
-/
import SimdLowering.Graph.DeadCode
import SimdLowering.Proofs.Eval.Lockstep
import SimdLowering.Proofs.Graph.Closed
import Mathlib.Data.List.Permutation

set_option autoImplicit false

namespace SimdLowering

namespace Graph

variable {g g' : Graph} {gone : List OpId} {root func o p op : OpId} {b c : BlockId}
  {s : RegionId} {v : ValueId} {n : Nat} {args : List RtValue}

/-! ## Fewer operations -/

/-- In `g'` operations of `g` have been dropped, each of which owned nothing. What was dropped
has no place and is on no chain; everything else is as it was. -/
structure Cleared (g g' : Graph) : Prop where
  opsSize : g'.ops.size = g.ops.size
  op_eq : ∀ o, ∃ k, g'.op o = { g.op o with block := k }
  opsIn : ∀ c, (g'.opsIn c).Sublist (g.opsIn c)
  owners : ∀ c, ∀ o ∈ g.opsIn c, g.regionsOf o ≠ [] → o ∈ g'.opsIn c
  regions : g'.regions = g.regions
  values : g'.values = g.values
  uses : ∀ v, g'.uses v ⊆ g.uses v

/-- A graph is cleared of nothing. -/
theorem Cleared.refl (g : Graph) : Cleared g g :=
  ⟨rfl, fun o => ⟨(g.op o).block, rfl⟩, fun _ => .refl _, fun _ _ ho _ => ho, rfl,
    rfl, fun _ _ hu => hu⟩

namespace Cleared

variable (h : Cleared g g')
include h

/-- Operations keep their kinds, also those taken out. -/
theorem kind (o : OpId) : g'.kind o = g.kind o := by
  obtain ⟨k, hk⟩ := h.op_eq o
  rw [Graph.kind, hk]
  rfl

theorem attrs (o : OpId) : g'.attrs o = g.attrs o := by
  obtain ⟨k, hk⟩ := h.op_eq o
  rw [Graph.attrs, hk]
  rfl

/-- They keep what they read. -/
theorem operands (o : OpId) : g'.operands o = g.operands o := by
  obtain ⟨k, hk⟩ := h.op_eq o
  rw [Graph.operands, hk]
  rfl

theorem results (o : OpId) : g'.results o = g.results o := by
  obtain ⟨k, hk⟩ := h.op_eq o
  rw [Graph.results, hk]
  rfl

theorem regionsOf (o : OpId) : g'.regionsOf o = g.regionsOf o := by
  obtain ⟨k, hk⟩ := h.op_eq o
  rw [Graph.regionsOf, hk]
  rfl

theorem blocksIn (s : RegionId) : g'.blocksIn s = g.blocksIn s := by
  rw [Graph.blocksIn, Graph.blocksIn, region, region, region?, region?, h.regions]

/-- And values stay what they are. -/
theorem value? (v : ValueId) : g'.value? v = g.value? v := by
  rw [Graph.value?, Graph.value?, h.values]

/-- Clearing more is clearing. -/
theorem trans {g₂ : Graph} (h₂ : Cleared g' g₂) : Cleared g g₂ where
  opsSize := h₂.opsSize.trans h.opsSize
  op_eq o := by
    obtain ⟨k, hk⟩ := h.op_eq o
    obtain ⟨k₂, hk₂⟩ := h₂.op_eq o
    exact ⟨k₂, by rw [hk₂, hk]⟩
  opsIn c := (h₂.opsIn c).trans (h.opsIn c)
  owners c o ho hr := h₂.owners c o (h.owners c o ho hr) (by rwa [h.regionsOf])
  regions := h₂.regions.trans h.regions
  values := h₂.values.trans h.values
  uses v _ hu := h.uses v (h₂.uses v hu)

end Cleared

/-! ## One operation less -/

/-- In `g'` an operation of `g` has been dropped that was no return, owned nothing, and was
read by nobody. -/
structure Dropped (g g' : Graph) (gone : List OpId) (op : OpId) : Prop where
  before : Consistent g gone
  after : Consistent g' (op :: gone)
  proceeds : g.kind op ≠ .ret
  bare : g.regionsOf op = []
  unread : ∀ v ∈ g.results op, g.uses v = []
  opsSize : g'.ops.size = g.ops.size
  kept : ∀ o, o ≠ op → g'.op o = g.op o
  left : g'.op op = { g.op op with block := none }
  opsIn : ∀ c, g'.opsIn c = (g.opsIn c).filter fun o => o != op
  argsOf : ∀ c, g'.argsOf c = g.argsOf c
  regions : g'.regions = g.regions
  values : g'.values = g.values

/-- An operation is dead if it is pure, owns no region and is not read. -/
theorem isDead_eq_true : g.isDead op = true ↔
    (g.kind op).isPure = true ∧ g.regionsOf op = [] ∧ ∀ v ∈ g.results op, g.uses v = [] := by
  simp [isDead, and_assoc]

/-- An operation of a block that is dead can be dropped. -/
theorem sweepOp_dead (hc : Consistent g gone) (hop : op ∈ g.opsIn b) (hdead : g.isDead op = true) :
    ∃ g', sweepOp b (g, n) op = .ok (g', n + 1) ∧ Dropped g g' gone op := by
  have hplace : g.blockOf? op = some b := (hc.places op b).mp hop
  have hin : g.HasOp op := hasOp_of_blockOf? hplace
  obtain ⟨hpure, hbare, hunread⟩ := isDead_eq_true.mp hdead
  -- First it is taken out of the block, where it is.
  obtain ⟨g₁, h₁⟩ : ∃ g₁, g.detach b op = .ok g₁ :=
    ⟨_, detach_eq_ok.mpr ⟨hin, hasBlock_of_mem_opsIn hop, rfl⟩⟩
  obtain ⟨-, -, op₁, block₁, hregions, hvalues, hchains, hsize, -⟩ := detach_effect h₁
  have hleft : g₁.op op = { g.op op with block := none } := by
    rw [op₁, if_pos ⟨rfl, hplace⟩]
  have hresults : g₁.results op = g.results op := by
    rw [results, hleft]
    rfl
  -- Then it can be removed, because it lies in no block and nobody reads it.
  have hremove : g₁.removeOp op = .ok (g₁.dropUses op (g₁.operands op)) := by
    apply removeOp_eq_ok.mpr
    refine ⟨?_, ?_, ?_, rfl⟩
    · rw [HasOp, hsize]
      exact hin
    · rw [blockOf?, hleft]
    · intro v hv
      rw [uses, hchains]
      rw [hresults] at hv
      exact hunread v hv
  obtain ⟨hops₂, hvalues₂, hblocks₂, hregions₂⟩ :=
    dropUses_arenas (g := g₁) op (g₁.operands op)
  have op₂ : ∀ o, (g₁.dropUses op (g₁.operands op)).op o = g₁.op o := by
    intro o
    rw [Graph.op, Graph.op, op?, op?, hops₂]
  have block₂ : ∀ c, (g₁.dropUses op (g₁.operands op)).block c = g₁.block c := by
    intro c
    rw [Graph.block, Graph.block, block?, block?, hblocks₂]
  refine ⟨_, ?_, {
    before := hc
    after := (hc.detach h₁).removeOp hremove
    proceeds := ?_
    bare := hbare
    unread := hunread
    opsSize := (congrArg Array.size hops₂).trans hsize
    kept := ?_
    left := (op₂ op).trans hleft
    opsIn := ?_
    argsOf := ?_
    regions := hregions₂.trans hregions
    values := hvalues₂.trans hvalues }⟩
  · rw [sweepOp, if_pos hdead]
    exact bind_eq_ok.mpr ⟨g₁, h₁, bind_eq_ok.mpr ⟨_, hremove, rfl⟩⟩
  · intro hret
    rw [hret] at hpure
    cases hpure
  · intro o ho
    rw [op₂, op₁, if_neg fun h => ho h.1.symm]
  · intro c
    rw [Graph.opsIn, block₂, block₁]
    split
    · next hbc =>
      subst hbc
      rfl
    · next hbc =>
      -- It is in no other block, so there is nothing to take out.
      symm
      apply List.filter_eq_self.mpr
      intro o ho
      have hne : o ≠ op := by
        rintro rfl
        exact hbc (hc.block_unique hop ho)
      simpa using hne
  · intro c
    rw [Graph.argsOf, block₂, block₁]
    split <;> rfl

namespace Dropped

variable (h : Dropped g g' gone op)
include h

/-! ### Records -/

/-- Only the block of the operation that goes has changed. -/
theorem op_eq (o : OpId) : ∃ k, g'.op o = { g.op o with block := k } := by
  by_cases ho : o = op
  · subst ho
    exact ⟨none, h.left⟩
  · exact ⟨(g.op o).block, h.kept o ho⟩

/-- Dropping one operation clears the graph of it. -/
theorem cleared : Cleared g g' where
  opsSize := h.opsSize
  op_eq := h.op_eq
  opsIn c := h.opsIn c ▸ List.filter_sublist
  owners c o ho hr := by
    rw [h.opsIn, List.mem_filter]
    refine ⟨ho, ?_⟩
    simp only [bne_iff_ne, ne_eq]
    rintro rfl
    exact hr h.bare
  regions := h.regions
  values := h.values
  uses v u hu := by
    obtain ⟨hlive, hslot⟩ := (h.after.reads v u).mp hu
    obtain ⟨k, hk⟩ := h.op_eq u.user
    rw [Graph.operands, hk] at hslot
    exact (h.before.reads v u).mpr ⟨fun hgone => hlive (List.mem_cons_of_mem _ hgone), hslot⟩

theorem kind (o : OpId) : g'.kind o = g.kind o := h.cleared.kind o

theorem attrs (o : OpId) : g'.attrs o = g.attrs o := h.cleared.attrs o

theorem operands (o : OpId) : g'.operands o = g.operands o := h.cleared.operands o

theorem results (o : OpId) : g'.results o = g.results o := h.cleared.results o

theorem regionsOf (o : OpId) : g'.regionsOf o = g.regionsOf o := h.cleared.regionsOf o

theorem blocksIn (s : RegionId) : g'.blocksIn s = g.blocksIn s := h.cleared.blocksIn s

theorem value? (v : ValueId) : g'.value? v = g.value? v := h.cleared.value? v

/-- The one that is dropped is in no block any more, and the others are where they were. -/
theorem mem_opsIn : o ∈ g'.opsIn c ↔ o ∈ g.opsIn c ∧ o ≠ op := by
  simp [h.opsIn]

/-- What owns a region is not dropped. -/
theorem ne_of_mem_regionsOf (hs : s ∈ g.regionsOf o) : o ≠ op := by
  rintro rfl
  rw [h.bare] at hs
  cases hs

/-! ### Order -/

/-- So regions nest as they did. -/
theorem under_iff : g'.Under root n s ↔ g.Under root n s := by
  constructor
  · intro hu
    induction hu with
    | own hr => exact .own (h.regionsOf root ▸ hr)
    | inner _ hb ho hs ih =>
      exact .inner ih (h.blocksIn _ ▸ hb) (h.mem_opsIn.mp ho).1 (h.regionsOf _ ▸ hs)
  · intro hu
    induction hu with
    | own hr => exact .own ((h.regionsOf root).symm ▸ hr)
    | inner _ hb ho hs ih =>
      exact .inner ih ((h.blocksIn _).symm ▸ hb)
        (h.mem_opsIn.mpr ⟨ho, h.ne_of_mem_regionsOf hs⟩) ((h.regionsOf _).symm ▸ hs)

/-- And so do blocks. -/
theorem holdsBlock_iff : g'.HoldsBlock root c ↔ g.HoldsBlock root c := by
  simp only [HoldsBlock, h.under_iff, h.blocksIn]

/-- What is inside of the root stays there, but for the one that is dropped. -/
theorem inside_iff : g'.Inside root o ↔ g.Inside root o ∧ o ≠ op := by
  simp only [Inside, h.holdsBlock_iff, h.mem_opsIn]
  constructor
  · rintro ⟨c, hc, ho, hne⟩
    exact ⟨⟨c, hc, ho⟩, hne⟩
  · rintro ⟨⟨c, hc, ho⟩, hne⟩
    exact ⟨c, hc, ho, hne⟩

/-- Nobody who counts reads a result of the operation that goes. -/
theorem not_mem_results (ho : o ∉ gone) (hv : v ∈ g.operands o) : v ∉ g.results op := by
  intro hres
  obtain ⟨i, hi⟩ := List.mem_iff_getElem?.mp hv
  have huse := (h.before.reads v ⟨o, i⟩).mpr ⟨ho, hi⟩
  rw [h.unread v hres] at huse
  cases huse

/-- What can be seen, other than the results that go, can be seen still. -/
theorem visible (ho : o ≠ op) (hv : v ∉ g.results op) (hvis : g.Visible root o v) :
    g'.Visible root o v := by
  induction hvis with
  | argument hb harg => exact .argument (h.mem_opsIn.mpr ⟨hb, ho⟩) ((h.argsOf _).symm ▸ harg)
  | @earlier c p o v hp hres =>
    have hne : p ≠ op := by
      rintro rfl
      exact hv hres
    have hkeep : Precedes (g'.opsIn c) p o := by
      have hfilter := List.Sublist.filter (fun x => x != op) hp
      rw [h.opsIn]
      simpa [Precedes, hne, ho] using hfilter
    exact .earlier hkeep ((h.results p).symm ▸ hres)
  | outer hq hr hb hmem _ ih =>
    exact .outer hq ((h.regionsOf _).symm ▸ hr) ((h.blocksIn _).symm ▸ hb)
      (h.mem_opsIn.mpr ⟨hmem, ho⟩) (ih (h.ne_of_mem_regionsOf hr) hv)

/-- A valid root stays valid. -/
theorem valid (hv : g.Valid root gone) : g'.Valid root (op :: gone) where
  acyclic hin := hv.acyclic (h.inside_iff.mp hin).1
  visible o hin v hmem := by
    obtain ⟨hin, hne⟩ := h.inside_iff.mp hin
    rw [h.operands] at hmem
    -- What was gone before reads nothing, and nothing else reads the operation, as it was dead.
    by_cases hgone : o ∈ gone
    · rw [hv.live o hin hgone] at hmem
      cases hmem
    · exact h.visible hne (h.not_mem_results hgone hmem) (hv.visible o hin v hmem)
  live o hin hgone := by
    obtain ⟨hin, hne⟩ := h.inside_iff.mp hin
    rw [h.operands]
    exact hv.live o hin ((List.mem_cons.mp hgone).resolve_left hne)
  enclosed v o hdef hlive hmem := by
    rw [h.operands] at hmem
    have hdef : g.DefinedUnder root v := by
      rcases hdef with ⟨c, hc, harg⟩ | ⟨p, hp, hres⟩
      · exact Or.inl ⟨c, h.holdsBlock_iff.mp hc, h.argsOf c ▸ harg⟩
      · exact Or.inr ⟨p, (h.inside_iff.mp hp).1, h.results p ▸ hres⟩
    have hne : o ≠ op := fun e => hlive (List.mem_cons.mpr (Or.inl e))
    have hlive : o ∉ gone := fun h => hlive (List.mem_cons_of_mem _ h)
    exact h.inside_iff.mpr ⟨hv.enclosed v o hdef hlive hmem, hne⟩

/-! ### Runs -/

/-- Every operation reads what it read. -/
theorem readsAlike (o : OpId) : ReadsAlike g g' id o where
  kind := h.kind o
  attrs := h.attrs o
  operands := by rw [h.operands, List.map_id]
  results := h.results o
  resultTy := by simp only [resultTypes, typesOf, value, h.value?, h.results]
  types v _ := by rw [id, h.value?]

/-- The function has the entry block that it had. -/
theorem isEntry (hentry : g.IsEntry func b) : g'.IsEntry func b := by
  rw [IsEntry, h.kind, h.regionsOf]
  simp only [h.blocksIn]
  exact hentry

/-- Whatever the function returned, it returns without the operation too. -/
theorem run (hv : g.Valid func gone) : Follows (g.run func args) (g'.run func args) := by
  intro r hrun
  obtain ⟨entry, hentry, hlen, hrun⟩ := run_eq_ok.mp hrun
  refine run_eq_ok.mpr ⟨entry, h.isEntry hentry, h.argsOf entry ▸ hlen, ?_⟩
  rw [h.argsOf]
  -- The operations that stay read none of the results that go.
  have hread : ∀ l : List OpId, (∀ o ∈ l, o ∈ g.opsIn entry) →
      ∀ o ∈ l, ∀ v ∈ g.operands o, v ∉ g.results op := by
    intro l hl o ho v hmem
    have hin : g.Inside func o := hentry.holdsBlock.inside (hl o ho)
    apply h.not_mem_results _ hmem
    intro hgone
    rw [hv.live o hin hgone] at hmem
    cases hmem
  have hfresh : ∀ l : List OpId, ∀ o ∈ l, ∀ v ∈ g.results o, ∀ w, w ∉ g.results op →
      (id w = v ↔ w = v) := fun _ _ _ _ _ _ _ => Iff.rfl
  by_cases hmem : op ∈ g.opsIn entry
  · obtain ⟨l, m, hlist⟩ := List.append_of_mem hmem
    have hnodup := hlist ▸ h.before.placedOnce entry
    have hopsIn : g'.opsIn entry = l ++ m := by
      rw [h.opsIn, hlist]
      rw [List.nodup_append] at hnodup
      obtain ⟨-, hm, hdisj⟩ := hnodup
      have hm := (List.nodup_cons.mp hm).1
      rw [List.filter_append, List.filter_cons, if_neg (by simp)]
      congr 1
      · apply List.filter_eq_self.mpr
        intro o ho
        simpa using hdisj o ho op (List.mem_cons_self ..)
      · apply List.filter_eq_self.mpr
        intro o ho
        have hne : o ≠ op := fun e => hm (e ▸ ho)
        simpa using hne
    rw [hopsIn]
    rw [hlist] at hrun
    have hl := hread l fun o ho => hlist ▸ List.mem_append_left _ ho
    rcases runOps_append_follows (fun o _ => h.readsAlike o) hl (hfresh l) (fun _ _ => rfl) hrun
      with ⟨e, e', -, he', hagree, hrest⟩ | hall
    · -- The run gets to the operation and past it.
      rw [runOps_append he']
      obtain ⟨x, v, vs, -, hres, hrest⟩ := (runOps_cons_eq_ok h.proceeds).mp hrest
      have hm := hread m fun o ho => hlist ▸ List.mem_append_right _ (List.mem_cons_of_mem _ ho)
      refine runOps_follows (fun o _ => h.readsAlike o) hm (hfresh m) ?_ r hrest
      intro w hw
      rw [Env.get?_bind, if_neg]
      · exact hagree w hw
      · rintro rfl
        exact hw (by simp [hres])
    · -- The run returns before it.
      exact hall m
  · have hopsIn : g'.opsIn entry = g.opsIn entry := by
      rw [h.opsIn]
      apply List.filter_eq_self.mpr
      intro o ho
      have hne : o ≠ op := fun e => hmem (e ▸ ho)
      simpa using hne
    rw [hopsIn]
    exact runOps_follows (fun o _ => h.readsAlike o) (hread _ fun _ ho => ho) (hfresh _)
      (fun _ _ => rfl) r hrun

end Dropped

/-! ## Sweeps -/

/-- Since the graph was `g₀`, nothing has been lost: what is under the root is valid, and
runs return what they returned. -/
structure Intact (g₀ : Graph) (root : OpId) (g : Graph) (gone : List OpId) : Prop where
  consistent : Consistent g gone
  valid : g.Valid root gone
  run : ∀ args, Follows (g₀.run root args) (g.run root args)

variable {g₀ : Graph} {recursive : Bool} {t : Graph × Nat} {r : RegionId}

/-- An intact graph stays intact when one more operation is dropped. -/
theorem Intact.dropped (h : Intact g₀ root g gone) (hd : Dropped g g' gone op) :
    Intact g₀ root g' (op :: gone) :=
  ⟨hd.after, hd.valid h.valid, fun args r hr => hd.run h.valid r (h.run args r hr)⟩

/-- A sweep of a block comes through. -/
theorem sweepOps_intact (h : ∃ gone, Intact g₀ root t.1 gone) :
    ∃ t', sweepOps b t = .ok t' ∧ ∃ gone, Intact g₀ root t'.1 gone := by
  obtain ⟨gone, h⟩ := h
  -- The operations that the sweep has not come to yet are in the block still.
  obtain ⟨t', hrun, hintact, -⟩ := foldlM_succeeds (f := sweepOp b)
    (fun rest u => (∃ gone, Intact g₀ root u.1 gone) ∧ rest.Nodup ∧ ∀ o ∈ rest, o ∈ u.1.opsIn b)
    (fun op rest u hu => by
      obtain ⟨⟨gone, hu⟩, hnodup, hmem⟩ := hu
      obtain ⟨hop, hnodup⟩ := List.nodup_cons.mp hnodup
      have hrest : ∀ o ∈ rest, o ∈ u.1.opsIn b := fun o ho => hmem o (List.mem_cons_of_mem _ ho)
      by_cases hdead : u.1.isDead op = true
      · obtain ⟨g', hrun, hd⟩ := sweepOp_dead (n := u.2) hu.consistent
          (hmem op (List.mem_cons_self ..)) hdead
        refine ⟨_, hrun, ⟨_, hu.dropped hd⟩, hnodup, ?_⟩
        intro o ho
        exact hd.mem_opsIn.mpr ⟨hrest o ho, fun e => hop (e ▸ ho)⟩
      · exact ⟨u, by rw [sweepOp, if_neg hdead], ⟨gone, hu⟩, hnodup, hrest⟩)
    ⟨⟨gone, h⟩, List.nodup_reverse.mpr (h.consistent.placedOnce b),
      fun o ho => List.mem_reverse.mp ho⟩
  exact ⟨t', hrun, hintact⟩

/-- A sweep of a region comes through. -/
theorem sweepRegion_intact {depth : Nat} (h : ∃ gone, Intact g₀ root t.1 gone) :
    ∃ t', sweepRegion recursive depth t r = .ok t' ∧ ∃ gone, Intact g₀ root t'.1 gone := by
  induction depth generalizing t r with
  | zero => exact ⟨t, rfl, h⟩
  | succ depth ih =>
    refine foldlM_succeeds (fun _ (u : Graph × Nat) => ∃ gone, Intact g₀ root u.1 gone) ?_ h
    intro b _ u hu
    -- What the operations of the block own is swept first.
    have inner : ∃ u', (if recursive then
          (u.1.opsIn b).foldlM
            (fun s op => (s.1.regionsOf op).foldlM (sweepRegion recursive depth) s) u
        else Except.ok u) = Except.ok u' ∧ ∃ gone, Intact g₀ root u'.1 gone := by
      split
      · refine foldlM_succeeds (fun _ (w : Graph × Nat) => ∃ gone, Intact g₀ root w.1 gone) ?_ hu
        intro op _ w hw
        exact foldlM_succeeds (fun _ (y : Graph × Nat) => ∃ gone, Intact g₀ root y.1 gone)
          (fun r' _ y hy => ih hy) hw
      · exact ⟨u, rfl, hu⟩
    obtain ⟨u', hrun, hu'⟩ := inner
    obtain ⟨t', hrun', ht'⟩ := sweepOps_intact (b := b) hu'
    refine ⟨t', ?_, ht'⟩
    cases recursive with
    | false =>
      cases hrun
      exact hrun'
    | true => exact bind_eq_ok.mpr ⟨u', hrun, hrun'⟩

/-- Sweeps come through, however many. -/
theorem sweepLoop_intact (recursive : Bool) (left done removed : Nat)
    (h : ∃ gone, Intact g₀ root g gone) :
    ∃ x, sweepLoop root recursive left done removed g = .ok x ∧
      ∃ gone, Intact g₀ root x.1 gone := by
  induction left generalizing done removed g with
  | zero => exact ⟨_, rfl, h⟩
  | succ left ih =>
    obtain ⟨⟨g₁, n⟩, hrun, h₁⟩ := foldlM_succeeds
      (f := sweepRegion recursive g.depthBound)
      (fun (_ : List RegionId) (u : Graph × Nat) => ∃ gone, Intact g₀ root u.1 gone)
      (fun r _ u hu => sweepRegion_intact hu) (l := g.regionsOf root) (s := (g, 0)) h
    by_cases hn : n = 0
    · exact ⟨_, bind_eq_ok.mpr ⟨_, hrun, if_pos hn⟩, h₁⟩
    · obtain ⟨x, hx, hintact⟩ := ih (done + 1) (removed + n) h₁
      exact ⟨x, bind_eq_ok.mpr ⟨_, hrun, (if_neg hn).trans hx⟩, hintact⟩

/-- Take any function with a history that validates, and any way to sweep it. Then the sweeps
come back, the function validates again, and whatever it returned on any arguments it returns
on them still. -/
theorem eliminateDead_keeps {edits : List Edit} (history : Edit.replay edits = .ok (g, gone))
    (hvalid : g.Validates func) (config : SweepConfig) :
    ∃ g' result, g.eliminateDead func config = .ok (g', result) ∧ g'.Validates func ∧
      ∀ args r, g.run func args = .ok r → g'.run func args = .ok r := by
  have hc := consistent_of_replay history
  have hstart : Intact g func g gone :=
    ⟨hc, (validates_iff hc).mp hvalid, fun args => Follows.refl (g.run func args)⟩
  obtain ⟨⟨g', result⟩, hrun, gone', hintact⟩ :=
    sweepLoop_intact config.recursive config.sweeps 0 0 ⟨gone, hstart⟩
  exact ⟨g', result, hrun, (validates_iff hintact.consistent).mpr hintact.valid, hintact.run⟩

/-- The history of a function that returns its argument. Before the return there is a sum that
nobody reads, and after it a function with a constant that nobody reads. -/
def unreadHistory : List Edit :=
  [.createBlock [.i 32], .createOp (Instr.constantInt (.i 32) 7), .append ⟨0⟩ ⟨0⟩,
    .createOp (Instr.binary .addi ⟨⟨1⟩, .i 32⟩ ⟨0⟩), .append ⟨0⟩ ⟨1⟩, .createOp (Instr.ret [⟨0⟩]),
    .append ⟨0⟩ ⟨2⟩, .createBlock [], .createOp (Instr.constantInt (.i 32) 7), .append ⟨1⟩ ⟨3⟩,
    .createRegion [⟨1⟩], .createOp (Instr.func "inner" ⟨0⟩), .append ⟨0⟩ ⟨4⟩,
    .createRegion [⟨0⟩], .createOp (Instr.func "outer" ⟨1⟩)]

/-- The graph that this history ends with. -/
def unreadGraph : Graph where
  ops := #[⟨.constant, [], [⟨1⟩], ⟨[("value", .int 7)]⟩, [], some ⟨0⟩⟩,
    ⟨.addi, [⟨1⟩, ⟨0⟩], [⟨2⟩], .empty, [], some ⟨0⟩⟩, ⟨.ret, [⟨0⟩], [], .empty, [], some ⟨0⟩⟩,
    ⟨.constant, [], [⟨3⟩], ⟨[("value", .int 7)]⟩, [], some ⟨1⟩⟩,
    ⟨.func, [], [], ⟨[("sym_name", .str "inner")]⟩, [⟨0⟩], some ⟨0⟩⟩,
    ⟨.func, [], [], ⟨[("sym_name", .str "outer")]⟩, [⟨1⟩], none⟩]
  values := #[⟨.argument ⟨0⟩ 0, .i 32⟩, ⟨.result ⟨0⟩ 0, .i 32⟩, ⟨.result ⟨1⟩ 0, .i 32⟩,
    ⟨.result ⟨3⟩ 0, .i 32⟩]
  blocks := #[⟨[⟨0⟩], [⟨0⟩, ⟨1⟩, ⟨2⟩, ⟨4⟩], some ⟨1⟩⟩, ⟨[], [⟨3⟩], some ⟨0⟩⟩]
  regions := #[⟨[⟨1⟩], some ⟨4⟩⟩, ⟨[⟨0⟩], some ⟨5⟩⟩]
  chains := #[[⟨⟨1⟩, 1⟩, ⟨⟨2⟩, 0⟩], [⟨⟨1⟩, 0⟩]]

/-- A function that returns its argument, and computes something on the side that nobody reads. -/
theorem eliminateDead_keeps_argument : ∃ g' result,
    unreadGraph.eliminateDead ⟨5⟩ ⟨1, true⟩ = .ok (g', result) ∧ g'.Validates ⟨5⟩ ∧
      g'.run ⟨5⟩ [.scalar (.int 3)] = .ok [.scalar (.int 3)] := by
  have history : Edit.replay unreadHistory = .ok (unreadGraph, []) := by cbv
  have hbefore : unreadGraph.Validates ⟨5⟩ := .of_replay history rfl (by cbv)
  obtain ⟨g', result, hrun, hvalid, hkeeps⟩ := eliminateDead_keeps history hbefore ⟨1, true⟩
  have hargument : unreadGraph.run ⟨5⟩ [.scalar (.int 3)] = .ok [.scalar (.int 3)] := by rfl
  exact ⟨g', result, hrun, hvalid, hkeeps _ _ hargument⟩

end Graph

end SimdLowering
