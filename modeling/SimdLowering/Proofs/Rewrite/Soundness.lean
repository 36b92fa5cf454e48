/-
Rules that are right one at a time are right together.

A rule is judged by what it does at one operation: in the environment that a run reaches right
before the operation, the operations it wants put in place have to give the value that the
operation itself gives. It is not asked what the rest of the function looks like, whether the
operation was there from the start, or how often the rule is applied. This file shows that
nothing of this matters, as long as the operation that takes the place has the type of the one
that goes: later operations look at the types of what they read, and may compute something else
when a type changes under them although the value does not.

There is no demand that rewritten functions stay valid, or that rules never fail. All that a run
needs is that the operations of the entry block read values that are there, and a match that
comes back has seen to that for the operations it brings in.
-/
import SimdLowering.Proofs.Graph.Closed
import SimdLowering.Proofs.Rewrite.Exchange
import SimdLowering.Proofs.Rewrite.Lawful
import SimdLowering.Proofs.Rewrite.Traversal
import SimdLowering.Rewrite.Action

set_option autoImplicit false

namespace SimdLowering

/-! ## What is asked of a rule -/

/-- On the kinds it is tried on, the rule leaves the graph alone unless it matches; and when it
matches an operation with one result, it has nothing to do or offers operations that stand in
for it. -/
structure Rule.LocallySound (rule : Rule) : Prop where
  idle : ∀ {g gone op sizes g' sizes' outcome}, Graph.Consistent g gone →
    g.kind op ∈ rule.roots → rule.run g op sizes = .ok (g', sizes', outcome) →
    (∀ edits, outcome ≠ .matched edits) → g' = g
  offers : ∀ {g gone op sizes g' sizes' edits old}, Graph.Consistent g gone →
    g.kind op ∈ rule.roots → rule.run g op sizes = .ok (g', sizes', .matched edits) →
    g.results op = [old] →
    (edits = .none ∧ g' = g) ∨
      ∃ steps new, edits = ⟨steps, .replace new⟩ ∧ g.Offers g' op steps new

/-- The rule matches nothing but operations with one result, returns not among them, and what
takes the place of one has its type. -/
structure Rule.KeepsTypes (rule : Rule) : Prop where
  single : ∀ {g gone op sizes g' sizes' edits}, Graph.Consistent g gone →
    g.kind op ∈ rule.roots → rule.run g op sizes = .ok (g', sizes', .matched edits) →
    g.kind op ≠ .ret ∧ ∃ old, g.results op = [old]
  types : ∀ {g gone op sizes g' sizes' steps new}, Graph.Consistent g gone →
    g.kind op ∈ rule.roots →
    rule.run g op sizes = .ok (g', sizes', .matched ⟨steps, .replace new⟩) →
    g'.resultTypes new = g.resultTypes op

namespace Graph

variable {g₀ g g₁ g' : Graph} {gone steps : List OpId} {func op new : OpId} {b : BlockId}
  {w old : ValueId}

/-! ## Runs so far -/

/-- Since the graph was `g₀`, the runs of the function have lost nothing: what they returned
they return, and the entry block reads what is there. -/
structure Faithful (g₀ : Graph) (func : OpId) (g : Graph) (gone : List OpId) : Prop where
  consistent : Consistent g gone
  hasOp : g.HasOp func
  reads : ∀ entry, g.IsEntry func entry → ∀ o ∈ g.opsIn entry, ∀ v ∈ g.operands o,
    g.HasValue v ∧ o ∉ gone
  run : ∀ args, Follows (g₀.run func args) (g.run func args)

theorem Faithful.exchanged {l₁ l₂ : List OpId} (hf : Faithful g₀ func g gone)
    (h : Exchanged g g₁ g' gone op b old w steps new l₁ l₂) : Faithful g₀ func g' (op :: gone) where
  consistent := h.replaced.after
  hasOp := by
    rw [HasOp, h.replaced.opsSize]
    exact Nat.lt_of_lt_of_le hf.hasOp h.grown.sizes.1
  reads entry hentry := h.reads_entry hf.hasOp hf.reads hentry
  run args r hr := h.run hf.reads r (hf.run args r hr)

/-- If the producers of what operations read could be found, all of it is there. -/
theorem hasValue_of_producersOf {ops touched : List OpId} (h : g.producersOf ops = .ok touched) :
    ∀ n ∈ ops, ∀ v ∈ g.operands n, g.HasValue v := by
  obtain ⟨l, hl, -⟩ := bind_eq_ok.mp h
  -- Finding the producer of a value fails if there is no such value.
  have hall : ∀ {read : List ValueId} {l}, read.mapM g.definingOp? = .ok l →
      ∀ v ∈ read, g.HasValue v := by
    intro read
    induction read with
    | nil => simp
    | cons v rest ih =>
      intro l hl
      rw [List.mapM_cons] at hl
      obtain ⟨d, hd, hl⟩ := bind_eq_ok.mp hl
      obtain ⟨ds, hds, -⟩ := bind_eq_ok.mp hl
      obtain ⟨x, hx, -⟩ := bind_eq_ok.mp hd
      have hv : g.HasValue v := by
        by_contra hv
        rw [lookup, value?_eq_none hv] at hx
        cases hx
      intro u hu
      rcases List.mem_cons.mp hu with rfl | hu
      · exact hv
      · exact ih hds u hu
  exact fun n hn v hv => hall hl v (List.mem_flatMap.mpr ⟨n, hn, hv⟩)

/-- A match of a sound rule that keeps types, put in place. -/
theorem exchanged_of_offers {touched : List OpId} (hc : Consistent g gone)
    (hb : g.blockOf? op = some b) (hk : g.kind op ≠ .ret) (hold : g.results op = [old])
    (hoffers : g.Offers g₁ op steps new) (hty : g₁.resultTypes new = g.resultTypes op)
    (htouched : g₁.producersOf (steps ++ [new]) = .ok touched)
    (hsplice : g₁.splice op ⟨steps, .replace new⟩ = .ok g') :
    ∃ w l₁ l₂, Exchanged g g₁ g' gone op b old w steps new l₁ l₂ := by
  obtain ⟨news, hgains, hperm⟩ := hoffers.gains
  have hgrown := (hgains.grown hc).perm hperm
  obtain ⟨w, hw⟩ := hoffers.single
  obtain ⟨l₁, l₂, hl⟩ := List.append_of_mem ((hc.places op b).mpr hb)
  have hop : g.HasOp op := hasOp_of_blockOf? hb
  have hold₁ : g₁.results op = [old] := by
    rw [results, hgrown.op op hop]
    exact hold
  have hl₁ : g₁.opsIn b = l₁ ++ op :: l₂ := by
    rw [opsIn, hgrown.block]
    exact hl
  -- What was made stands nowhere yet, so it can be put in place of the operation.
  obtain ⟨g'', hrun, hreplaced⟩ := replace_total hgrown.consistent hold₁ hw hl₁
    (fun n hn => (hgrown.fresh n hn).2) hgrown.nodup
  obtain rfl : g'' = g' := Except.ok.inj (hrun.symm.trans hsplice)
  have hv₁ : g₁.HasValue w := hgrown.consistent.hasValue_of_mem_results (o := new) (by simp [hw])
  have hv : g.HasValue old := hc.hasValue_of_mem_results (o := op) (by simp [hold])
  rw [resultTypes, resultTypes, hw, hold] at hty
  refine ⟨w, l₁, l₂, hc, hl, hk, hold, hgrown, hw, ?_, hoffers.standsIn,
    hasValue_of_producersOf htouched, hreplaced⟩
  rw [value?_eq_some hv₁, value?_eq_some hv]
  simpa [typesOf] using hty

end Graph

namespace Application

open SimdLowering.Graph

variable {rules : RuleSet} {target : ConversionTarget} {s s' : Application} {gone : List OpId}
  {g₀ : Graph} {func op : OpId} {b : BlockId}

/-- Trying sound rules that keep types loses nothing. -/
theorem tryRules_faithful {l : List Rule}
    (hl : ∀ rule ∈ l, s.graph.kind op ∈ rule.roots ∧ rule.LocallySound ∧ rule.KeepsTypes)
    (hs : Faithful g₀ func s.graph gone) (hb : s.graph.blockOf? op = some b)
    (h : tryRules op l s = .ok s') : ∃ gone', Faithful g₀ func s'.graph gone' := by
  induction l generalizing s with
  | nil =>
    cases h
    exact ⟨gone, hs⟩
  | cons rule l ih =>
    obtain ⟨hroot, hsound, htypes⟩ := hl rule (List.mem_cons_self ..)
    have hl := fun rule hr => hl rule (List.mem_cons_of_mem _ hr)
    rw [tryRules] at h
    obtain ⟨⟨g₁, sizes₁, outcome⟩, hrun, h⟩ := bind_eq_ok.mp h
    cases outcome with
    -- A rule that declines or refuses has left the graph as it was.
    | declined =>
      obtain rfl := hsound.idle hs.consistent hroot hrun (by simp)
      exact ih (s := { s with sizes := sizes₁ }) hl hs hb h
    | refused reason =>
      obtain rfl := hsound.idle hs.consistent hroot hrun (by simp)
      cases h
      exact ⟨gone, hs⟩
    | matched edits =>
      -- One that matches offers what computes the same, and this takes the place of the operation.
      obtain ⟨hk, old, hold⟩ := htypes.single hs.consistent hroot hrun
      rcases hsound.offers hs.consistent hroot hrun hold with ⟨rfl, rfl⟩ |
        ⟨steps, new, rfl, hoffers⟩
      · exact ih (s := { s with sizes := sizes₁ }) hl hs hb h
      · dsimp only at h
        rw [if_neg (by simp [Edits.isEmpty])] at h
        obtain ⟨touched, htouched, h⟩ := bind_eq_ok.mp h
        obtain ⟨g', hsplice, h⟩ := bind_eq_ok.mp h
        cases h
        obtain ⟨w, l₁, l₂, hx⟩ := exchanged_of_offers hs.consistent hb hk hold hoffers
          (htypes.types hs.consistent hroot hrun) htouched hsplice
        exact ⟨op :: gone, hs.exchanged hx⟩

end Application

open SimdLowering.Graph in
/-- Take any set of rules that are locally sound and keep types, any function with a history that
validates, any target, any budget and any remembered sizes. If applying the rules comes back,
the function returns what it returned. -/
theorem RuleSet.apply_keeps_runs {rules : RuleSet}
    (hrules : ∀ e ∈ rules.entries, e.rule.LocallySound ∧ e.rule.KeepsTypes)
    {edits : List Edit} {g g' : Graph} {gone : List OpId}
    (history : Edit.replay edits = .ok (g, gone)) {func : OpId} (hvalid : g.Validates func)
    {target : ConversionTarget} {budget : Nat} {sizes sizes' : AccessSizes} {result : ApplyResult}
    (h : rules.apply g func target budget sizes = .ok (g', sizes', result)) :
    ∀ args r, g.run func args = .ok r → g'.run func args = .ok r := by
  intro args r hr
  have hc := consistent_of_replay history
  have hv := (validates_iff hc).mp hvalid
  have hfunc : g.HasOp func := by
    obtain ⟨entry, ⟨-, s, hs, -⟩, -⟩ := run_eq_ok.mp hr
    exact hasOp_of_mem_regionsOf (List.mem_of_mem_head? hs)
  -- Whatever is read in the function is there, as the function validates.
  have hstart : Faithful g func g gone := by
    refine ⟨hc, hfunc, fun entry hentry o ho v hread => ?_, fun _ _ h => h⟩
    have hin : g.Inside func o := hentry.holdsBlock.inside ho
    refine ⟨hv.hasValue_of_mem_operands hc hin hread, fun hgone => ?_⟩
    rw [hv.live o hin hgone] at hread
    cases hread
  have hend := RuleSet.apply_invariant
    (I := fun s => ∃ gone, Faithful g func s.graph gone) ?_ ⟨gone, hstart⟩ h
  · obtain ⟨_, hend⟩ := hend
    exact hend.run args r hr
  -- A visit asks for legality, which leaves the graph alone, and then tries the rules of the kind.
  · intro s op b s' ⟨gone, hs⟩ hb hvisit
    obtain ⟨⟨verdict, sizes⟩, -, hvisit⟩ := bind_eq_ok.mp hvisit
    dsimp only at hvisit
    split at hvisit
    · cases hvisit
      exact ⟨gone, hs⟩
    · refine Application.tryRules_faithful (s := { s with sizes := sizes }) (fun rule hrule => ?_)
        hs hb hvisit
      obtain ⟨e, he, rfl⟩ := List.mem_map.mp hrule
      exact ⟨(RuleSet.mem_forKind.mp he).2, hrules e (RuleSet.mem_forKind.mp he).1⟩

/-! ## Constants that are written again -/

/-- Whatever is the constant one, of thirty-two bits, is written again with the given type. -/
def Rules.retypeOne (ty : Ty) : Rule :=
  ⟨"RetypeOne", [.constant], fun g op sizes =>
    match (g.attrs op).get? AttrName.value with
    | some (.int 1) =>
      if g.resultTypes op = [.i 32] then
        let (g, new) := g.addOp (Instr.constantInt ty 1)
        .ok (g, sizes, .matched ⟨[], .replace new⟩)
      else .ok (g, sizes, .declined)
    | _ => .ok (g, sizes, .declined)⟩

namespace Rules

open SimdLowering.Graph

variable {g g' : Graph} {gone : List OpId} {op : OpId} {sizes sizes' : AccessSizes}
  {outcome : Outcome} {edits : Edits} {ty : Ty} {env : Env} {x : RtValue}

/-- What the rule has done, by the answer. -/
theorem retypeOne_run_eq_ok (h : (retypeOne ty).run g op sizes = .ok (g', sizes', outcome)) :
    (outcome = .declined ∧ g' = g) ∨
      ((g.attrs op).get? AttrName.value = some (.int 1) ∧ g.resultTypes op = [.i 32] ∧
        g' = (g.addOp (Instr.constantInt ty 1)).1 ∧ outcome =
          .matched ⟨[], .replace g.nextOp⟩) := by
  unfold retypeOne at h
  dsimp only at h
  split at h
  next hvalue =>
    split at h
    next hty =>
      cases h
      exact Or.inr ⟨hvalue, hty, rfl, rfl⟩
    · cases h
      exact Or.inl ⟨rfl, rfl⟩
  · cases h
    exact Or.inl ⟨rfl, rfl⟩

/-- The constant one, of a type that can hold it, is one. -/
theorem evalOp_constant_one (hty : ty = .i 32 ∨ ty = .ui 32) (hk : g.kind op = .constant)
    (hvalue : (g.attrs op).get? AttrName.value = some (.int 1)) (hres : g.resultTypes op = [ty]) :
    g.evalOp env op = .ok (.scalar (.int 1)) := by
  rw [evalOp, Frame.eval]
  simp only [frame, hk, hres, List.head?_cons, Frame.evalConstant, hvalue, Frame.resultLanes,
    Frame.result, Frame.finish]
  rcases hty with rfl | rfl <;> rfl

theorem results_addOp_constant : (g.addOp (Instr.constantInt ty 1)).1.results g.nextOp =
    [⟨g.values.size⟩] := by
  rw [results, op_addOp, if_pos rfl]
  rfl

theorem resultTypes_addOp_constant :
    (g.addOp (Instr.constantInt ty 1)).1.resultTypes g.nextOp = [ty] := by
  have hv := value?_addOp (g := g) (Instr.constantInt ty 1) ⟨g.values.size⟩
  rw [if_neg (by simp [HasValue])] at hv
  rw [resultTypes, results_addOp_constant, typesOf, List.map_singleton, value, hv]
  simp [Instr.constantInt, Draft.pureOp, Draft.withAttr]

theorem retypeOne_locallySound (hty : ty = .i 32 ∨ ty = .ui 32) :
    (retypeOne ty).LocallySound where
  idle hc hk h hidle := by
    rcases retypeOne_run_eq_ok h with ⟨-, rfl⟩ | ⟨-, -, -, rfl⟩
    · rfl
    · exact absurd rfl (hidle _)
  offers {g gone op sizes g' sizes' edits old} hc hk h hold := by
    rcases retypeOne_run_eq_ok h with ⟨hcontra, -⟩ | ⟨hvalue, hres, rfl, he⟩
    · cases hcontra
    · cases he
      refine Or.inr ⟨[], g.nextOp, rfl, ⟨⟨[g.nextOp], ?_, List.Perm.refl _⟩,
        ⟨_, results_addOp_constant⟩, ?_⟩⟩
      · exact Gains.addOp rfl
      -- Both constants compute the number one, whatever their type is.
      · intro func entry l₁ l₂ args env x _ _ _ _ hx
        refine ⟨env, rfl, ?_⟩
        have hkind : g.kind op = .constant := List.mem_singleton.mp hk
        rw [evalOp_constant_one (.inl rfl) hkind hvalue hres] at hx
        cases hx
        apply evalOp_constant_one hty
        · rw [kind, op_addOp, if_pos rfl]
          rfl
        · rw [attrs, op_addOp, if_pos rfl]
          rfl
        · exact resultTypes_addOp_constant

theorem retypeOne_keepsTypes : (retypeOne (.i 32)).KeepsTypes where
  single {g gone op sizes g' sizes' edits} hc hk h := by
    have hkind : g.kind op = .constant := List.mem_singleton.mp hk
    rcases retypeOne_run_eq_ok h with ⟨hcontra, -⟩ | ⟨-, hres, -, -⟩
    · cases hcontra
    · refine ⟨by simp [hkind], ?_⟩
      rw [resultTypes, typesOf, List.map_eq_singleton_iff] at hres
      obtain ⟨old, hold, -⟩ := hres
      exact ⟨old, hold⟩
  types {g gone op sizes g' sizes' steps new} hc hk h := by
    rcases retypeOne_run_eq_ok h with ⟨hcontra, -⟩ | ⟨-, hres, rfl, he⟩
    · cases hcontra
    · cases he
      rw [resultTypes_addOp_constant, hres]

end Rules

/-! ## A function that takes a minimum -/

namespace Graph

/-- The history of a function that returns the smaller one of the constants one and minus one. -/
def leastHistory : List Edit :=
  [.createBlock [], .createOp (Instr.constantInt (.i 32) 1), .append ⟨0⟩ ⟨0⟩,
    .createOp (Instr.constantInt (.i 32) (-1)), .append ⟨0⟩ ⟨1⟩,
    .createOp (Instr.binary .minsi ⟨⟨0⟩, .i 32⟩ ⟨1⟩), .append ⟨0⟩ ⟨2⟩,
    .createOp (Instr.ret [⟨2⟩]), .append ⟨0⟩ ⟨3⟩, .createRegion [⟨0⟩],
    .createOp (Instr.func "least" ⟨0⟩)]

/-- The graph that this history ends with. -/
def leastGraph : Graph where
  ops := #[⟨.constant, [], [⟨0⟩], ⟨[("value", .int 1)]⟩, [], some ⟨0⟩⟩,
    ⟨.constant, [], [⟨1⟩], ⟨[("value", .int (-1))]⟩, [], some ⟨0⟩⟩,
    ⟨.minsi, [⟨0⟩, ⟨1⟩], [⟨2⟩], .empty, [], some ⟨0⟩⟩, ⟨.ret, [⟨2⟩], [], .empty, [], some ⟨0⟩⟩,
    ⟨.func, [], [], ⟨[("sym_name", .str "least")]⟩, [⟨0⟩], none⟩]
  values := #[⟨.result ⟨0⟩ 0, .i 32⟩, ⟨.result ⟨1⟩ 0, .i 32⟩, ⟨.result ⟨2⟩ 0, .i 32⟩]
  blocks := #[⟨[], [⟨0⟩, ⟨1⟩, ⟨2⟩, ⟨3⟩], some ⟨0⟩⟩]
  regions := #[⟨[⟨0⟩], some ⟨4⟩⟩]
  chains := #[[⟨⟨2⟩, 0⟩], [⟨⟨2⟩, 1⟩], [⟨⟨3⟩, 0⟩]]

/-- The graph in which the constant one has been written again with the given type. -/
def retypedGraph (ty : Ty) : Graph where
  ops := #[⟨.constant, [], [⟨0⟩], ⟨[("value", .int 1)]⟩, [], none⟩,
    ⟨.constant, [], [⟨1⟩], ⟨[("value", .int (-1))]⟩, [], some ⟨0⟩⟩,
    ⟨.minsi, [⟨3⟩, ⟨1⟩], [⟨2⟩], .empty, [], some ⟨0⟩⟩, ⟨.ret, [⟨2⟩], [], .empty, [], some ⟨0⟩⟩,
    ⟨.func, [], [], ⟨[("sym_name", .str "least")]⟩, [⟨0⟩], none⟩,
    ⟨.constant, [], [⟨3⟩], ⟨[("value", .int 1)]⟩, [], some ⟨0⟩⟩]
  values := #[⟨.result ⟨0⟩ 0, .i 32⟩, ⟨.result ⟨1⟩ 0, .i 32⟩, ⟨.result ⟨2⟩ 0, .i 32⟩,
    ⟨.result ⟨5⟩ 0, ty⟩]
  blocks := #[⟨[], [⟨5⟩, ⟨1⟩, ⟨2⟩, ⟨3⟩], some ⟨0⟩⟩]
  regions := #[⟨[⟨0⟩], some ⟨4⟩⟩]
  chains := #[[], [⟨⟨2⟩, 1⟩], [⟨⟨3⟩, 0⟩], [⟨⟨2⟩, 0⟩]]

theorem leastGraph_history : Edit.replay leastHistory = .ok (leastGraph, []) := by cbv

theorem leastGraph_validates : leastGraph.Validates ⟨4⟩ :=
  .of_replay leastGraph_history rfl (by cbv)

/-- The rule is applied once, to the constant one, for either type. -/
theorem apply_retypeOne {ty : Ty} (hty : ty = .i 32 ∨ ty = .ui 32) :
    (RuleSet.ofList [Rules.retypeOne ty]).apply leastGraph ⟨4⟩ .empty 1 .empty =
      .ok (retypedGraph ty, .empty, ⟨1, 1, false, []⟩) := by
  rcases hty with rfl | rfl
  · cbv
  · cbv

theorem apply_keeps_runs_least : (retypedGraph (.i 32)).run ⟨4⟩ [] = .ok [.scalar (.int (-1))] := by
  refine RuleSet.apply_keeps_runs ?_ leastGraph_history leastGraph_validates
    (apply_retypeOne (.inl rfl)) [] _ (by rfl)
  intro e he
  obtain rfl := List.mem_singleton.mp he
  exact ⟨Rules.retypeOne_locallySound (.inl rfl), Rules.retypeOne_keepsTypes⟩

/-- The history of a function that returns its two arguments. -/
def pairHistory : List Edit :=
  [.createBlock [.i 32, .i 32], .createOp (Instr.ret [⟨0⟩, ⟨1⟩]), .append ⟨0⟩ ⟨0⟩,
    .createRegion [⟨0⟩], .createOp (Instr.func "pair" ⟨0⟩)]

/-- The graph that this history ends with. -/
def pairGraph : Graph where
  ops := #[⟨.ret, [⟨0⟩, ⟨1⟩], [], .empty, [], some ⟨0⟩⟩,
    ⟨.func, [], [], ⟨[("sym_name", .str "pair")]⟩, [⟨0⟩], none⟩]
  values := #[⟨.argument ⟨0⟩ 0, .i 32⟩, ⟨.argument ⟨0⟩ 1, .i 32⟩]
  blocks := #[⟨[⟨0⟩, ⟨1⟩], [⟨0⟩], some ⟨0⟩⟩]
  regions := #[⟨[⟨0⟩], some ⟨1⟩⟩]
  chains := #[[⟨⟨0⟩, 0⟩], [⟨⟨0⟩, 1⟩]]

/-- The graph in which another return, of the arguments in reverse, has taken the place. -/
def reversedGraph : Graph where
  ops := #[⟨.ret, [⟨0⟩, ⟨1⟩], [], .empty, [], none⟩,
    ⟨.func, [], [], ⟨[("sym_name", .str "pair")]⟩, [⟨0⟩], none⟩,
    ⟨.ret, [⟨1⟩, ⟨0⟩], [], .empty, [], some ⟨0⟩⟩]
  values := #[⟨.argument ⟨0⟩ 0, .i 32⟩, ⟨.argument ⟨0⟩ 1, .i 32⟩]
  blocks := #[⟨[⟨0⟩, ⟨1⟩], [⟨2⟩], some ⟨0⟩⟩]
  regions := #[⟨[⟨0⟩], some ⟨1⟩⟩]
  chains := #[[⟨⟨2⟩, 1⟩], [⟨⟨2⟩, 0⟩]]

/-- Another return, of the values in reverse, takes the place of a return. -/
def reverseReturn : Rule := (Action.replace .ret true).toRule "ReverseReturn" [.ret] none

theorem reverseReturn_run (g : Graph) (op : OpId) (sizes : AccessSizes) :
    reverseReturn.run g op sizes =
      .ok ((g.addOp (Action.likeDraft g op .ret (g.operands op).reverse)).1, sizes,
        .matched ⟨[], .replace g.nextOp⟩) := rfl

/-- A return gives no value, so anything may stand in for it. -/
theorem reverseReturn_locallySound : reverseReturn.LocallySound where
  idle {g gone op sizes g' sizes' outcome} hc hk h hidle := by
    rw [reverseReturn_run] at h
    obtain ⟨-, -, rfl⟩ := by simpa using Except.ok.inj h
    exact absurd rfl (hidle _)
  offers {g gone op sizes g' sizes' edits old} hc hk h hold := by
    rw [reverseReturn_run] at h
    obtain ⟨rfl, -, rfl⟩ := by simpa using Except.ok.inj h
    refine Or.inr ⟨[], g.nextOp, rfl, ⟨⟨[g.nextOp], Gains.addOp rfl, List.Perm.refl _⟩,
      ⟨⟨g.values.size⟩, ?_⟩, ?_⟩⟩
    · rw [results, op_addOp, if_pos rfl, newOperation]
      simp only [Action.likeDraft, resultTypes, hold]
      rfl
    · intro func entry l₁ l₂ args env x _ _ _ _ hx
      exact absurd (List.mem_singleton.mp hk) (kind_ne_ret_of_evalOp hx)

/-- Local soundness alone is not enough, for two reasons. An operation that reads a value also
looks at its type, and a rule that writes a constant again with another type is locally sound. And
what a rule does to a return is not judged by any value. -/
theorem locallySound_not_enough :
    ((Rules.retypeOne (.ui 32)).LocallySound ∧
      Edit.replay leastHistory = .ok (leastGraph, []) ∧ leastGraph.Validates ⟨4⟩ ∧
      (RuleSet.ofList [Rules.retypeOne (.ui 32)]).apply leastGraph ⟨4⟩ .empty 1 .empty =
        .ok (retypedGraph (.ui 32), .empty, ⟨1, 1, false, []⟩) ∧
      leastGraph.run ⟨4⟩ [] = .ok [.scalar (.int (-1))] ∧
      (retypedGraph (.ui 32)).run ⟨4⟩ [] = .ok [.scalar (.int 1)]) ∧
    (reverseReturn.LocallySound ∧
      Edit.replay pairHistory = .ok (pairGraph, []) ∧ pairGraph.Validates ⟨1⟩ ∧
      (RuleSet.ofList [reverseReturn]).apply pairGraph ⟨1⟩ .empty 1 .empty =
        .ok (reversedGraph, .empty, ⟨1, 1, false, []⟩) ∧
      pairGraph.run ⟨1⟩ [.scalar (.int 3), .scalar (.int 5)] =
        .ok [.scalar (.int 3), .scalar (.int 5)] ∧
      reversedGraph.run ⟨1⟩ [.scalar (.int 3), .scalar (.int 5)] =
        .ok [.scalar (.int 5), .scalar (.int 3)]) := by
  have history : Edit.replay pairHistory = .ok (pairGraph, []) := by cbv
  refine ⟨⟨Rules.retypeOne_locallySound (.inr rfl), leastGraph_history, leastGraph_validates,
    apply_retypeOne (.inr rfl), by rfl, by rfl⟩, ⟨reverseReturn_locallySound, history,
    .of_replay history rfl (by cbv), by cbv, by rfl, by rfl⟩⟩

end Graph

end SimdLowering
