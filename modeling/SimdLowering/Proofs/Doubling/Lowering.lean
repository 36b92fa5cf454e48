/-
A multiply-add of the first generation, lowered.

The first round gets to the sum, whatever else it rewrites before, and puts four instructions in
its place. From then on they stay, since the target has nothing against them, and every other
visit leaves them as they are but for names. What the lowered function returns is therefore known
as soon as it is known what the factors and the summand are bound to: their product and sum,
brought into range only at the end. The product itself stays, too, although nobody may read it.
-/
import SimdLowering.Proofs.Doubling.Decisions
import SimdLowering.Proofs.Fusion.Lowering

set_option autoImplicit false

namespace SimdLowering

open SimdLowering.Graph SimdLowering.Application SimdLowering.Rules

namespace Graph

variable {g₀ g g' : Graph} {gone gone₀ : List OpId} {func mul add ret op d : OpId}
  {entry blk : BlockId} {a b c v old product sum out : ValueId} {r : Recipe} {n width : Nat}
  {sign : Signedness} {ren : ValueId → ValueId} {m : DoubledMac} {l : List OpId}
  {args : List RtValue} {x y z : Fin n → Int}

/-! ## Around the sum -/

/-- What is around the sum is as it was in `g₀`, up to names. If there was nothing but the
product, the sum and the return, there is nothing now but the product, the return and the listed
operations. -/
structure AroundSum (g₀ g : Graph) (func : OpId) (entry : BlockId) (mul add ret : OpId)
    (ren : ValueId → ValueId) (l : List OpId) : Prop where
  isEntry : g.IsEntry func entry
  exits : g.Exits entry ret
  renames : g₀.Renames g func ren
  inside_mul : g.Inside func mul
  alone : g₀.HoldsOnly func [mul, add, ret] → g.HoldsOnly func (mul :: ret :: l)

/-- The sum is still there. -/
structure SumWaits (g₀ g : Graph) (func : OpId) (entry : BlockId) (mul add ret : OpId)
    (ren : ValueId → ValueId) : Prop extends AroundSum g₀ g func entry mul add ret ren [add] where
  inside_add : g.Inside func add

/-- Four operations stand in its place. -/
structure SumLowered (g₀ g : Graph) (func : OpId) (entry : BlockId) (mul add ret : OpId)
    (a b c sum : ValueId) (n width : Nat) (sign : Signedness) (ren : ValueId → ValueId)
    (m : DoubledMac) : Prop extends AroundSum g₀ g func entry mul add ret ren m.ops where
  issues : g.IssuesMac entry (ren a) (ren b) (ren c) (ren sum) n width sign m

section

variable (hscene : Scene g gone func) (hin : g.Inside func op)
  (hs : Spliced g g' gone op blk old r) (hr : r.Lawful g func op)
include hscene hin hs hr

/-- A splice at none of the operations that matter leaves them where they are. -/
theorem AroundSum.spliced (h : AroundSum g₀ g func entry mul add ret ren l) (hroot : g.HasOp func)
    (hmul : op ≠ mul) (hret : op ≠ ret) (hl : op ∉ l) :
    AroundSum g₀ g' func entry mul add ret (fun v => renamed old (g.standIn r) (ren v)) l where
  isEntry := hs.isEntry hroot h.isEntry
  exits := hs.exits_of_ne hr h.exits (hasOp_of_blockOf? ((hscene.consistent.places ret entry).mp
    h.exits.mem)) (Ne.symm hret)
  renames := h.renames.spliced hscene hin hs hr
  inside_mul := (hs.inside_iff hin).mpr (Or.inl ⟨h.inside_mul, Ne.symm hmul⟩)
  alone halone := by
    -- Where nothing else was, nothing else can have been rewritten.
    have hmem := h.alone halone op hin
    simp only [List.mem_cons, hmul, hret, hl, or_self] at hmem

end

section

variable (h : g₀.ReturnsMac func entry mul add ret a b c product sum
    (.vector n (.int width sign)))
  (hscene₀ : Scene g₀ gone₀ func)
include h hscene₀

/-- At the start nothing has happened. -/
theorem SumWaits.start : SumWaits g₀ g₀ func entry mul add ret id where
  isEntry := h.isEntry
  exits := h.exits
  renames := .refl _ _
  inside_mul := h.inside_mul hscene₀
  alone halone d hd := by
    have hmem := halone d hd
    simp only [List.mem_cons, List.not_mem_nil, or_false] at hmem ⊢
    tauto
  inside_add := h.inside_add hscene₀

/-- The return reads what the sum has come to be called. -/
theorem AroundSum.returns (hA : AroundSum g₀ g func entry mul add ret ren l) :
    g.operands ret = [ren sum] := by
  rw [hA.renames.operands (h.hasOp hscene₀).1 (hA.isEntry.holdsBlock.inside hA.exits.mem),
    h.returns]
  rfl

/-- A splice of the four instructions at the sum puts them in its place. -/
theorem SumWaits.lowered (hup : Upright g gone func g₀.ops.size)
    (hW : SumWaits g₀ g func entry mul add ret ren)
    (hs : Spliced g g' gone add blk sum (doubledRecipe n width sign (ren a) (ren b) (ren c)))
    (hr : (doubledRecipe n width sign (ren a) (ren b) (ren c)).Lawful g func add) :
    ∃ ren' m, SumLowered g₀ g' func entry mul add ret a b c sum n width sign ren' m := by
  obtain ⟨hretOp, -, -⟩ := h.hasOp hscene₀
  have hscene := hup.scene
  obtain ⟨hres, hsum, -⟩ := h.result hscene₀ hW.renames hW.inside_add
  -- The sum is read by the return, so it is reached and lies in the entry block.
  have hreturns := hW.returns h hscene₀
  have hreached : g.Reached entry add := hW.exits.reached hscene
    (hscene.precedes_of_mem_operands hW.isEntry hW.exits.mem (v := sum) (by simp [hreturns, hsum])
      (by simp [hres]))
  obtain rfl : blk = entry :=
    Option.some.inj (hs.placed.symm.trans ((hscene.consistent.places add entry).mp hreached.mem))
  have hkinds : add ≠ mul ∧ add ≠ ret := by
    constructor
    · rintro rfl
      exact absurd (h.addKind.symm.trans h.mulKind) (by decide)
    · rintro rfl
      exact absurd (h.addKind.symm.trans h.exits.kind) (by decide)
  have hout : g.standIn (doubledRecipe n width sign (ren a) (ren b) (ren c)) =
      renamed sum (g.standIn (doubledRecipe n width sign (ren a) (ren b) (ren c))) (ren sum) := by
    rw [hsum, renamed, if_pos rfl]
  refine ⟨_, g.nextMac, ⟨⟨hs.isEntry hup.root hW.isEntry, hs.exits_of_ne hr hW.exits
    (hW.renames.hasOp hretOp) (Ne.symm hkinds.2), hW.renames.spliced hscene hW.inside_add hs hr,
    (hs.inside_iff hW.inside_add).mpr (Or.inl ⟨hW.inside_mul, Ne.symm hkinds.1⟩),
    fun halone d hd => ?_⟩, hout ▸ hs.issuesMac hr hreached⟩⟩
  -- What lies in the function now was there before or has come with the multiply-add.
  rcases (hs.inside_iff hW.inside_add).mp hd with ⟨hbefore, hne⟩ | hnew
  · have hmem := hW.alone halone d hbefore
    simp only [List.mem_cons, List.not_mem_nil, or_false, hne] at hmem
    rcases hmem with rfl | rfl <;> simp
  · exact List.mem_cons_of_mem _ (List.mem_cons_of_mem _ (mem_ops_nextMac hnew))

/-- No factor has become a splat of an extracted lane. -/
theorem SumLowered.not_splatsLane (hup : Upright g gone func g₀.ops.size)
    (hL : SumLowered g₀ g func entry mul add ret a b c sum n width sign ren m) :
    ∀ v ∈ [ren a, ren b], ¬ g.SplatsLane v := by
  have hentry := hL.isEntry
  have ha := hL.issues.concat.visible hup.scene hentry (List.mem_cons_self ..) (Or.inl rfl)
  have hb := hL.issues.fma.visible hup.scene hentry (.tail _ (.head _)) (Or.inl rfl)
  intro v hv
  rcases List.mem_pair.mp hv with rfl | rfl
  · exact hL.renames.not_splatsLane hup hscene₀ (h.hasValue hscene₀ (by simp)) ha
      (hentry.holdsBlock.inside hL.issues.concat.reached.mem) (h.factors a (by simp))
  · exact hL.renames.not_splatsLane hup hscene₀ (h.hasValue hscene₀ (by simp)) hb
      (hentry.holdsBlock.inside hL.issues.fma.reached.mem) (h.factors b (by simp))

/-- The product and the return may stay. -/
theorem AroundSum.legality (hA : AroundSum g₀ g func entry mul add ret ren l)
    (hop : op = mul ∨ op = ret) (sizes : AccessSizes) :
    Generation.aie.conversionTarget.legality g op sizes = .ok (.legal, sizes) := by
  rcases hop with rfl | rfl
  · exact Generation.aie_legality_muli ((hA.renames.kind (h.hasOp hscene₀).2.2).trans h.mulKind)
  · have hkind := hA.exits.kind
    exact Generation.legality_of_made (Or.inr hkind) (by rw [hkind]; decide) (by rw [hkind]; decide)
      (by rw [hkind]; decide)

end

end Graph

/-! ## Visits -/

section

variable {g₀ : Graph} {gone gone₀ : List OpId} {func mul add ret op : OpId} {entry : BlockId}
  {a b c product sum : ValueId} {n width : Nat} {sign : Signedness} {ren : ValueId → ValueId}
  {m : DoubledMac} {o : LowerOptions} {s s' : Application} {g : Graph}
  (h : g₀.ReturnsMac func entry mul add ret a b c product sum (.vector n (.int width sign)))
  (hscene₀ : Scene g₀ gone₀ func) (htarget : o.target = .aie)
include h hscene₀ htarget

/-- As long as the sum waits, a visit to anything else leaves it waiting, and refuses nothing if
there is nothing else but the product and the return. -/
theorem waits_of_visit (hup : Upright s.graph gone func g₀.ops.size)
    (hW : SumWaits g₀ s.graph func entry mul add ret ren) (hin : s.graph.Inside func op)
    (hne : op ≠ add) (hv : s.visitOp o.ruleSet o.target.conversionTarget op = .ok s') :
    (∃ ren', SumWaits g₀ s'.graph func entry mul add ret ren') ∧
      (g₀.HoldsOnly func [mul, add, ret] → s'.rejected = s.rejected) := by
  have hlegal : op = mul ∨ op = ret → ∀ c,
      o.target.conversionTarget.legality s.graph op c = .ok (.legal, c) := fun hop c => by
    rw [htarget]
    exact hW.legality h hscene₀ hop c
  refine ⟨?_, fun halone => ?_⟩
  · cases LowerOptions.visited hup hin (tracks_any ..) hv with
    | same hgraph => exact ⟨ren, hgraph ▸ hW⟩
    -- The product and the return may stay, so neither is what was rewritten.
    | rewritten blk old r hrw =>
      obtain ⟨hmul, hret⟩ := not_or.mp fun hop => hrw.not_legal (hlegal hop)
      exact ⟨_, hW.toAroundSum.spliced hup.scene hin hrw.spliced hrw.lawful hup.root hmul hret
        (by simpa using hne), (hrw.spliced.inside_iff hin).mpr
          (Or.inl ⟨hW.inside_add, Ne.symm hne⟩)⟩
  · have hmem := hW.alone halone op hin
    simp only [List.mem_cons, List.not_mem_nil, or_false, hne] at hmem
    exact rejected_of_legal (hlegal hmem) hv

/-- A visit to the sum lowers it and refuses nothing. -/
theorem lowered_of_visit (hcount : n * 2 < twoPow 32) (hup : Upright s.graph gone func g₀.ops.size)
    (hW : SumWaits g₀ s.graph func entry mul add ret ren) (hopen : s.isRejected add = false)
    (hv : s.visitOp o.ruleSet o.target.conversionTarget add = .ok s') :
    (∃ ren' m, SumLowered g₀ s'.graph func entry mul add ret a b c sum n width sign ren' m) ∧
      s'.rejected = s.rejected := by
  have hkind : s.graph.kind add = .addi := (hW.renames.kind (h.hasOp hscene₀).2.1).trans h.addKind
  have hvalue : ∀ {v}, v ∈ [a, b, c] → s.graph.HasValue (ren v) :=
    fun hv => hW.renames.hasValue (h.hasValue hscene₀ hv)
  obtain ⟨e, he, hrule⟩ := aie_exists_entry_of_mem (r := mulAddToFma) htarget (by simp [aieRules])
  -- The sum is still there and may not stay, so its rule is tried and matches; the other one
  -- declines.
  obtain ⟨⟨blk, hs⟩, hr, hrejected, -⟩ := spliced_of_visit hup hW.inside_add hopen
    (by rw [htarget]; exact h.legality_sum hscene₀ hW.renames hW.inside_add) he
    (by rw [hrule, hkind]; exact List.mem_singleton_self _)
    (fun c => by
      rw [hrule]
      exact h.mulAddToFma_matches hscene₀ hW.renames hup hW.inside_add hW.inside_mul hcount)
    (fine_doubledRecipe (hvalue (by simp)) (hvalue (by simp)) (hvalue (by simp)))
    (h.result hscene₀ hW.renames hW.inside_add).1
    (fun e' he' hk' hne c => by
      rw [hkind] at hk'
      rcases aie_rule_of_addi htarget he' hk' with heq | heq
      · exact absurd (heq.trans hrule.symm) hne
      · rw [heq]
        exact h.shuffledAddSub_declines hscene₀ hW.renames hup hW.inside_add hW.inside_mul) hv
  exact ⟨hW.lowered h hscene₀ hup hs hr, hrejected⟩

/-- Nothing that matters is rewritten after that. -/
theorem legality_of_lowered (hup : Upright g gone func g₀.ops.size)
    (hL : SumLowered g₀ g func entry mul add ret a b c sum n width sign ren m)
    (hop : op ∈ mul :: ret :: m.ops) (c : AccessSizes) :
    o.target.conversionTarget.legality g op c = .ok (.legal, c) := by
  rw [htarget]
  rcases List.mem_cons.mp hop with rfl | hop
  · exact hL.legality h hscene₀ (Or.inl rfl) c
  rcases List.mem_cons.mp hop with rfl | hop
  · exact hL.legality h hscene₀ (Or.inr rfl) c
  · exact hL.issues.legality hup.scene hL.isEntry (hL.not_splatsLane h hscene₀ hup) hop

/-- After that, visits leave it lowered, and refuse nothing if there was nothing else. -/
theorem lowered_of_later_visit (hup : Upright s.graph gone func g₀.ops.size)
    (hL : SumLowered g₀ s.graph func entry mul add ret a b c sum n width sign ren m)
    (hin : s.graph.Inside func op)
    (hv : s.visitOp o.ruleSet o.target.conversionTarget op = .ok s') :
    (∃ ren', SumLowered g₀ s'.graph func entry mul add ret a b c sum n width sign ren' m) ∧
      (g₀.HoldsOnly func [mul, add, ret] → s'.rejected = s.rejected) := by
  have hlegal : op ∈ mul :: ret :: m.ops → ∀ c,
      o.target.conversionTarget.legality s.graph op c = .ok (.legal, c) :=
    fun hop c => legality_of_lowered h hscene₀ htarget hup hL hop c
  refine ⟨?_, fun halone => rejected_of_legal (hlegal (hL.alone halone op hin)) hv⟩
  cases LowerOptions.visited hup hin (tracks_any ..) hv with
  | same hgraph => exact ⟨ren, hgraph ▸ hL⟩
  | rewritten blk old r hrw =>
    have hnot : op ∉ mul :: ret :: m.ops := fun hop => hrw.not_legal (hlegal hop)
    obtain ⟨hmul, hnot⟩ := not_or.mp (mt List.mem_cons.mpr hnot)
    obtain ⟨hret, hops⟩ := not_or.mp (mt List.mem_cons.mpr hnot)
    have hs := hrw.spliced
    -- What comes down is not what goes.
    have hout : renamed old (s.graph.standIn r) (ren sum) = ren sum := by
      refine if_neg ?_
      rintro rfl
      have hsrs := hs.eq_of_old_mem_results (d := m.srs) (by simp [hL.issues.srs.results])
      exact hops (by simp [DoubledMac.ops, hsrs])
    refine ⟨_, hL.toAroundSum.spliced hup.scene hin hs hrw.lawful hup.root hmul hret hops, ?_⟩
    rw [hout]
    exact hL.issues.spliced hup.scene hL.isEntry hs hrw.lawful hops

/-! ## Rounds -/

/-- Some visits have lowered the sum, and refused nothing if there was nothing else but the product
and the return. -/
structure MacDone (g₀ : Graph) (func : OpId) (entry : BlockId) (mul add ret : OpId)
    (a b c sum : ValueId) (n width : Nat) (sign : Signedness) (s : Application) : Prop where
  lowered : ∃ ren m, SumLowered g₀ s.graph func entry mul add ret a b c sum n width sign ren m
  accepted : g₀.HoldsOnly func [mul, add, ret] → s.rejected = []

/-- Within the first round: the sum waits and is still to be visited, or it has been lowered. -/
def MacRound (g₀ : Graph) (func : OpId) (entry : BlockId) (mul add ret : OpId)
    (a b c sum : ValueId) (n width : Nat) (sign : Signedness) (rest : List OpId)
    (t : Application) : Prop :=
  ((∃ ren, SumWaits g₀ t.graph func entry mul add ret ren) ∧ add ∈ rest ∧
    t.isRejected add = false ∧ (g₀.HoldsOnly func [mul, add, ret] → t.rejected = [])) ∨
  MacDone g₀ func entry mul add ret a b c sum n width sign t

/-- The first round lowers the sum. -/
theorem done_of_round (hcount : n * 2 < twoPow 32) (hup : Upright g₀ gone₀ func g₀.ops.size)
    {sizes : AccessSizes}
    (hround : (Application.start g₀ sizes).round o.ruleSet o.target.conversionTarget func =
      .ok s') :
    MacDone g₀ func entry mul add ret a b c sum n width sign s' ∧
      UprightAt func g₀.ops.size s' := by
  have hstart : add ∈ g₀.postorder func :=
    (mem_postorder hscene₀.consistent hscene₀.ordered.acyclic).mpr (h.inside_add hscene₀)
  obtain ⟨hend, hI⟩ := round_induction
    (J := MacRound g₀ func entry mul add ret a b c sum n width sign)
    (o.visitsKeep func g₀.ops.size) (fun _ ht => ht.ground) ⟨gone₀, hup⟩
    (Or.inl ⟨⟨id, .start h hscene₀⟩, hstart, rfl, fun _ => rfl⟩) (by
      rintro op rest t t' ⟨gone, ht⟩ hpending hJ hv
      have hin := hpending.inside op (List.mem_cons_self ..)
      rcases hJ with ⟨⟨ren, hW⟩, hmem, hopen, haccepted⟩ | ⟨⟨ren, m, hL⟩, haccepted⟩
      · by_cases hne : op = add
        · subst hne
          obtain ⟨hL, hrejected⟩ := lowered_of_visit h hscene₀ htarget hcount ht hW hopen hv
          exact Or.inr ⟨hL, fun halone => hrejected.trans (haccepted halone)⟩
        · obtain ⟨hW', hrejected⟩ := waits_of_visit h hscene₀ htarget ht hW hin hne hv
          have hvisited := LowerOptions.visited ht hin (tracks_any ..) hv
          exact Or.inl ⟨hW', (List.mem_cons.mp hmem).resolve_left (Ne.symm hne),
            hvisited.isRejected_of_ne (Ne.symm hne) hopen,
            fun halone => (hrejected halone).trans (haccepted halone)⟩
      · obtain ⟨⟨ren', hL'⟩, hrejected⟩ := lowered_of_later_visit h hscene₀ htarget ht hL hin hv
        exact Or.inr ⟨⟨ren', m, hL'⟩, fun halone => (hrejected halone).trans (haccepted halone)⟩)
    hround
  rcases hend with ⟨-, hmem, -⟩ | hdone
  · cases hmem
  · exact ⟨hdone, hI⟩

/-- However many visits follow, it stays lowered. -/
theorem done_of_visits (hup : UprightAt func g₀.ops.size s)
    (hdone : MacDone g₀ func entry mul add ret a b c sum n width sign s)
    (hv : Relation.ReflTransGen (VisitTo o.ruleSet o.target.conversionTarget func) s s') :
    MacDone g₀ func entry mul add ret a b c sum n width sign s' := by
  refine hup.visits_induction
    (P := fun t => MacDone g₀ func entry mul add ret a b c sum n width sign t) hdone
    (fun ht hin hvisit ⟨⟨ren, m, hL⟩, haccepted⟩ => ?_) hv
  obtain ⟨⟨ren', hL'⟩, hrejected⟩ := lowered_of_later_visit h hscene₀ htarget ht hL hin hvisit
  exact ⟨⟨ren', m, hL'⟩, fun halone => (hrejected halone).trans (haccepted halone)⟩

/-- So after any number of rounds but none the sum is lowered. -/
theorem done_of_rounds (hcount : n * 2 < twoPow 32) (hup : Upright g₀ gone₀ func g₀.ops.size)
    {left done : Nat} {sizes : AccessSizes} (hleft : left ≠ 0) {k : Nat} {fixpoint : Bool}
    (hrounds : rounds o.ruleSet o.target.conversionTarget func left done (.start g₀ sizes) =
      .ok (s, k, fixpoint)) :
    MacDone g₀ func entry mul add ret a b c sum n width sign s ∧ UprightAt func g₀.ops.size s := by
  obtain ⟨left, rfl⟩ := Nat.exists_eq_succ_of_ne_zero hleft
  obtain ⟨t, ht, hrounds⟩ := bind_eq_ok.mp hrounds
  obtain ⟨hdone, htI⟩ := done_of_round h hscene₀ htarget hcount hup ht
  have hrest := visits_of_remaining_rounds htI hrounds
  exact ⟨done_of_visits h hscene₀ htarget htI hdone hrest, htI.visits hrest⟩

/-- Where there was nothing else, all that is left may stay. -/
theorem verify_of_lowered (hup : Upright g gone func g₀.ops.size)
    (hL : SumLowered g₀ g func entry mul add ret a b c sum n width sign ren m)
    (halone : g₀.HoldsOnly func [mul, add, ret]) (sizes : AccessSizes) :
    o.target.conversionTarget.verify g func sizes = .ok ([], sizes) := by
  refine ConversionTarget.verify_of_legal fun d hd c => ?_
  have hin := mem_nested_iff.mp hd
  exact legality_of_lowered h hscene₀ htarget hup hL (hL.alone halone d hin) c

end

/-! ## Runs -/

section

variable {g₀ g : Graph} {gone gone₀ : List OpId} {func mul add ret : OpId} {entry : BlockId}
  {a b c v product sum : ValueId} {n width : Nat} {sign : Signedness} {ren : ValueId → ValueId}
  {m : DoubledMac} {args : List RtValue} {x y z : Fin n → Int}

variable (h : g₀.ReturnsMac func entry mul add ret a b c product sum (.vector n (.int width sign)))
  (hscene₀ : Scene g₀ gone₀ func) (hscene : Scene g gone func)
  (hL : SumLowered g₀ g func entry mul add ret a b c sum n width sign ren m)
include h hscene₀ hL

theorem Graph.SumLowered.typed : ∀ v ∈ [ren a, ren b, ren c],
    (g.value v).ty = .vector n (.int width sign) := by
  intro v hv
  obtain ⟨w, hw, rfl⟩ := List.mem_map.mp (show v ∈ [a, b, c].map ren from hv)
  rw [hL.renames.ty_eq (h.hasValue hscene₀ hw), h.typed w hw]

variable (hlow : 1 < width) (hhigh : width ≤ widestLane sign)
include hscene hlow hhigh

/-- The product that stays behind evaluates, too. -/
theorem Graph.SumLowered.proceeds_mul (hx : g.Supplies func entry args (ren a) x)
    (hy : g.Supplies func entry args (ren b) y) : g.Proceeds func entry args mul := by
  -- The product is not lowered, so it is run as it stands, on what supplies its factors.
  intro ρ hat
  have hmulOp := (h.hasOp hscene₀).2.2
  have hops : g.operands mul = [ren a, ren b] := by
    rw [hL.renames.operands hmulOp hL.inside_mul, h.mulOperands]
    rfl
  have hres : g.results mul = [product] := (hL.renames.results hmulOp).trans h.mulResults
  have hkept : ren product = product :=
    hL.renames.kept hmulOp hL.inside_mul (by simp [h.mulResults])
  have hty : (g.value product).ty = .vector n (.int width sign) := by
    rw [← hkept, hL.renames.ty_eq (hscene₀.consistent.hasValue_of_mem_results (o := mul)
      (by simp [h.mulResults])), h.ty_product hscene₀]
  have seen : ∀ v ∈ [ren a, ren b], g.Visible func mul v :=
    fun v hv => hscene.ordered.visible mul hL.inside_mul v (hops ▸ hv)
  have htyped := hL.typed h hscene₀
  have ha := hat.holds_of_supplies hscene (seen _ (by simp)) (htyped _ (by simp)) hx
  have hb := hat.holds_of_supplies hscene (seen _ (by simp)) (htyped _ (by simp)) hy
  have hfactors : List.Forall₂ (fun v k => Source.Holds g ρ [] (.value v) k) (g.operands mul)
      [⟨.vector n (.int width sign), .ofInts x⟩, ⟨.vector n (.int width sign), .ofInts y⟩] := by
    rw [hops]
    exact .cons ha (.cons hb .nil)
  have hkind : g.kind mul = .muli := (hL.renames.kind hmulOp).trans h.mulKind
  have := le_of_le_widestLane hhigh
  exact ⟨_, evalOp_of_known hfactors hres hty ((Frame.eval_product (Or.inl hkind)).mpr
    ⟨Nat.le_of_eq RtValue.length_ofInts.symm, Nat.le_of_eq RtValue.length_ofInts.symm,
      Frame.shapeAs_of_isVector rfl
        (Or.inr (ElemKind.wraps_vector (by omega) (by omega) sign n))⟩)⟩

/-- Whatever the factors and the summand hold, the product plus the summand is returned, if the
run fails nowhere else. -/
theorem Graph.SumLowered.returnsClamped (hcount : (g₀.argsOf entry).length = args.length)
    (hx : g.Supplies func entry args (ren a) x) (hy : g.Supplies func entry args (ren b) y)
    (hz : g.Supplies func entry args (ren c) z)
    (hrange : ∀ i, InLane sign width (x i) ∧ InLane sign width (y i) ∧ InLane sign width (z i))
    (hothers : ∀ d, g.Reached entry d → d ∉ m.ops → g.Proceeds func entry args d) :
    g.ReturnsClamped func args sign width m x y z :=
  hL.issues.returnsClamped hscene hlow hhigh (hL.typed h hscene₀) hx hy hz hrange hL.isEntry
    (hL.renames.argsOf entry ▸ hcount) hL.exits (hL.returns h hscene₀) hothers

/-- Where there is nothing else, it fails nowhere else. -/
theorem Graph.SumLowered.returnsClamped_of_alone (halone : g₀.HoldsOnly func [mul, add, ret])
    (hgiven : g₀.Given func entry a b c args x y z) :
    g.ReturnsClamped func args sign width m x y z := by
  have := le_of_le_widestLane hhigh
  have range : ∀ {v} {u : Fin n → Int}, v ∈ [a, b, c] →
      (v, .ofInts u) ∈ (g₀.argsOf entry).zip args → ∀ i, InLane sign width (u i) := fun hv hmem =>
    hgiven.accepts.inLane h.isEntry hmem (h.typed _ hv) hlow (by omega)
  have hx := hL.renames.supplies hscene hgiven.lhs
  have hy := hL.renames.supplies hscene hgiven.rhs
  refine hL.returnsClamped h hscene₀ hscene hlow hhigh
    (hgiven.accepts entry h.isEntry).length_eq hx hy (hL.renames.supplies hscene hgiven.summand)
    (fun i => ⟨range (by simp) hgiven.lhs i, range (by simp) hgiven.rhs i,
      range (by simp) hgiven.summand i⟩) fun d hd hops => ?_
  -- What is neither one of the four nor the return is the product.
  have hmem := hL.alone halone d (hL.isEntry.holdsBlock.inside hd.mem)
  simp only [List.mem_cons, hops, or_false] at hmem
  rcases hmem with rfl | rfl
  · exact hL.proceeds_mul h hscene₀ hscene hlow hhigh hx hy
  · exact absurd hL.exits.kind hd.proceeds

end

/-! ## The lowering -/

end SimdLowering
