/-
The printed form depends on what is nested in an operation and on nothing else.

Printing goes down the nesting and looks into four arenas, and it keeps the numbers it has given
away in a table under the names that values have in the arena. None of that is to show. Two
operations, each in a graph of its own, look alike if one relation pairs off what is nested in
them, kind by kind and list by list. The two runs are then held together by what they have
written: the same text, and tables that give the same number to values that are paired.

The relation need not be total, so the graphs may hold whatever else there is. It has to be
one-to-one on values, since a value that stands in two places shows the same number in both. For
operations, blocks and regions it makes no difference to the text whether two of them are one.
-/
import SimdLowering.Graph.Print
import SimdLowering.Proofs.Graph.Scopes

set_option autoImplicit false

namespace SimdLowering

/-! ## Lists that are paired off -/

/-- Each member of the second list has a partner in the first. -/
theorem exists_of_forall₂_right {α β : Type} {R : α → β → Prop} {l : List α} {l' : List β} {y : β}
    (h : List.Forall₂ R l l') (hy : y ∈ l') : ∃ x ∈ l, R x y := by
  induction h with
  | nil => cases hy
  | cons hxy _ ih =>
    rcases List.mem_cons.mp hy with rfl | hy
    · exact ⟨_, List.mem_cons_self, hxy⟩
    · obtain ⟨x, hx, hR⟩ := ih hy
      exact ⟨x, List.mem_cons_of_mem _ hx, hR⟩

/-- Lists that correspond are empty together. -/
theorem isEmpty_eq_of_forall₂ {α β : Type} {R : α → β → Prop} {l : List α} {l' : List β}
    (h : List.Forall₂ R l l') : l.isEmpty = l'.isEmpty := by
  cases h <;> rfl

/-- Their first members correspond. -/
theorem head?_rel_of_forall₂ {α β : Type} {R : α → β → Prop} {l : List α} {l' : List β}
    (h : List.Forall₂ R l l') : Option.Rel R l.head? l'.head? := by
  cases h with
  | nil => exact .none
  | cons hxy _ => exact .some hxy

/-- What comes out the same for partners comes out the same for the lists. -/
theorem map_eq_of_forall₂ {α β γ : Type} {R : α → β → Prop} {f : α → γ} {f' : β → γ}
    (hf : ∀ x y, R x y → f x = f' y) {l : List α} {l' : List β} (h : List.Forall₂ R l l') :
    l.map f = l'.map f' := by
  induction h with
  | nil => rfl
  | cons hxy _ ih => rw [List.map_cons, List.map_cons, hf _ _ hxy, ih]

namespace Graph

variable {g h : Graph} {root root' o o' : OpId} {r r' : RegionId} {b b' : BlockId}
  {v w : ValueId} {p q : Printout} {n d indent : Nat}

/-! ## Depth -/

/-- In a finite nesting no path is longer than there are regions. -/
theorem Under.le_size_of_finite (finite : g.NestsFinitely root) (hu : g.Under root n r)
    (hr : g.HasRegion r) : n ≤ g.regions.size := by
  classical
  obtain ⟨bound, hbound⟩ := finite
  -- A path that is a longest one of all is a longest one to its region.
  let reached : Nat → Prop := fun m => ∃ s, g.HasRegion s ∧ g.Under root m s
  have hn : reached n := ⟨r, hr, hu⟩
  obtain ⟨s, hs, hmost⟩ : reached (Nat.findGreatest reached bound) :=
    Nat.findGreatest_spec (hbound n r hu) hn
  have hle : n ≤ Nat.findGreatest reached bound := Nat.le_findGreatest (hbound n r hu) hn
  have hsize := hmost.longest_le_size hs fun k hk => Nat.le_findGreatest (hbound k s hk) ⟨s, hs, hk⟩
  omega

/-- Printing that is not cut off does not change when it may go deeper. -/
theorem printWithin_succ (hdeep : ∀ n r, g.Under o n r → g.HasRegion r → n < d) (hd : 0 < d) :
    g.printWithin d indent o p = g.printWithin (d + 1) indent o p := by
  induction d generalizing o indent p with
  | zero => omega
  | succ d ih =>
    -- The printer spends one level on each nested operation, and so it has enough left inside.
    have inside : ∀ p, ∀ r ∈ g.regionsOf o,
        (g.opsOfRegion r).foldl (fun p x => g.printWithin d (indent + 2) x p) p =
          (g.opsOfRegion r).foldl (fun p x => g.printWithin (d + 1) (indent + 2) x p) p := by
      intro p r hr
      refine List.foldl_ext _ _ p fun p x hx => ?_
      obtain ⟨b, hb, hx⟩ := List.mem_flatMap.mp hx
      have hone := hdeep 1 r (.own hr) (hasRegion_of_mem_blocksIn hb)
      apply ih
      · intro n s hs hregion
        have := hdeep (n + 1) s (.descend hr hb hx hs) hregion
        omega
      · omega
    rw [printWithin, printWithin]
    split
    · congr 1
      exact List.foldl_ext _ _ _ inside
    · congr 1
      refine List.foldl_ext _ _ _ fun p r hr => ?_
      congr 1
      exact inside _ r hr

/-- In a finite nesting printing is never cut off. -/
theorem print_eq (finite : g.NestsFinitely root) (hd : g.depthBound ≤ d) :
    g.print root = (g.printWithin d 0 root .empty).text := by
  induction d, hd using Nat.le_induction with
  | base => rfl
  | succ d hd ih =>
    rw [depthBound] at hd
    rw [ih, printWithin_succ]
    · intro n r hu hr
      have := hu.le_size_of_finite finite hr
      omega
    · omega

/-! ## Correspondence -/

/-- A way to pair off what is nested in an operation of one graph with what is nested in an
operation of another, so that all that is read off the paired records is equal, or is paired
itself. Types are in a graph as they are and not by name, so types that correspond are equal, and
attributes that hold types are equal as well. -/
structure Correspondence (g h : Graph) where
  ops : OpId → OpId → Prop
  values : ValueId → ValueId → Prop
  blocks : BlockId → BlockId → Prop
  regions : RegionId → RegionId → Prop
  oneToOne : Relator.BiUnique values
  kind {o o' : OpId} : ops o o' → g.kind o = h.kind o'
  attrs {o o' : OpId} : ops o o' → g.attrs o = h.attrs o'
  operands {o o' : OpId} : ops o o' → List.Forall₂ values (g.operands o) (h.operands o')
  results {o o' : OpId} : ops o o' → List.Forall₂ values (g.results o) (h.results o')
  resultTypes {o o' : OpId} : ops o o' → g.resultTypes o = h.resultTypes o'
  regionsOf {o o' : OpId} : ops o o' → List.Forall₂ regions (g.regionsOf o) (h.regionsOf o')
  blocksIn {r r' : RegionId} : regions r r' → List.Forall₂ blocks (g.blocksIn r) (h.blocksIn r')
  argsOf {b b' : BlockId} : blocks b b' → List.Forall₂ values (g.argsOf b) (h.argsOf b')
  argTypes {b b' : BlockId} : blocks b b' → g.typesOf (g.argsOf b) = h.typesOf (h.argsOf b')
  opsIn {b b' : BlockId} : blocks b b' → List.Forall₂ ops (g.opsIn b) (h.opsIn b')

namespace Correspondence

variable (c : Correspondence g h)

/-- Regions that correspond list operations that do. -/
theorem opsOfRegion (hr : c.regions r r') :
    List.Forall₂ c.ops (g.opsOfRegion r) (h.opsOfRegion r') :=
  List.rel_flatMap (c.blocksIn hr) fun _ _ hb => c.opsIn hb

/-- Operations that correspond have entry blocks that do, or none. -/
theorem entryBlock? (ho : c.ops o o') :
    Option.Rel c.blocks (g.entryBlock? o) (h.entryBlock? o') := by
  rw [Graph.entryBlock?, Graph.entryBlock?, c.kind ho]
  split
  · have hfirst := head?_rel_of_forall₂ (c.regionsOf ho)
    generalize (g.regionsOf o).head? = first, (h.regionsOf o').head? = first' at hfirst ⊢
    cases hfirst with
    | none => exact .none
    | some hr => exact head?_rel_of_forall₂ (c.blocksIn hr)
  · exact .none

/-- A path under the second operation has its counterpart under the first. -/
theorem under (ho : c.ops o o') (hu : h.Under o' n r') : ∃ r, g.Under o n r ∧ c.regions r r' := by
  induction hu with
  | own hr' =>
    obtain ⟨r, hr, hrr⟩ := exists_of_forall₂_right (c.regionsOf ho) hr'
    exact ⟨r, .own hr, hrr⟩
  | inner _ hb' ho' hs' ih =>
    obtain ⟨r, hu, hrr⟩ := ih
    obtain ⟨b, hb, hbb⟩ := exists_of_forall₂_right (c.blocksIn hrr) hb'
    obtain ⟨x, hx, hxx⟩ := exists_of_forall₂_right (c.opsIn hbb) ho'
    obtain ⟨s, hs, hss⟩ := exists_of_forall₂_right (c.regionsOf hxx) hs'
    exact ⟨s, .inner hu hb hx hs, hss⟩

/-- And nest finitely together. -/
theorem nestsFinitely (ho : c.ops o o') (finite : g.NestsFinitely o) : h.NestsFinitely o' := by
  obtain ⟨bound, hbound⟩ := finite
  refine ⟨bound, fun n r' hu => ?_⟩
  obtain ⟨r, hu, -⟩ := c.under ho hu
  exact hbound n r hu

/-! ## Printouts that agree -/

/-- Two printouts agree: the text is the same, and the values that got their numbers correspond in
the order in which they got them. -/
structure Agree (p q : Printout) : Prop where
  text : p.text = q.text
  next : p.next = q.next
  numbers : List.Forall₂ (fun x y => c.values x.1 y.1 ∧ x.2 = y.2) p.numbers q.numbers

variable {c}

namespace Agree

/-- At the start nothing is printed and nothing is named. -/
theorem empty : c.Agree .empty .empty := ⟨rfl, rfl, .nil⟩

/-- The same text is put on both sides. -/
theorem put (hp : c.Agree p q) (s : String) : c.Agree (p.put s) (q.put s) :=
  ⟨congrArg (· ++ s) hp.text, hp.next, hp.numbers⟩

/-- Values that correspond are given the same name. -/
theorem define (hp : c.Agree p q) (hv : c.values v w) : c.Agree (p.define v) (q.define w) :=
  ⟨hp.text, congrArg (· + 1) hp.next, .cons ⟨hv, hp.next⟩ hp.numbers⟩

/-- Going along two lists that are paired off, and doing at each member what keeps printouts in
agreement. -/
theorem foldl {α β : Type} {R : α → β → Prop} {f : Printout → α → Printout}
    {f' : Printout → β → Printout} {xs : List α} {ys : List β} (hp : c.Agree p q)
    (hxs : List.Forall₂ R xs ys)
    (step : ∀ {p q x y}, c.Agree p q → R x y → c.Agree (f p x) (f' q y)) :
    c.Agree (xs.foldl f p) (ys.foldl f' q) := by
  induction hxs generalizing p q with
  | nil => exact hp
  | cons hxy _ ih => exact ih (step hp hxy)

/-- So are lists of them. -/
theorem defineAll {vs ws : List ValueId} (hp : c.Agree p q) (hvs : List.Forall₂ c.values vs ws) :
    c.Agree (vs.foldl Printout.define p) (ws.foldl Printout.define q) :=
  hp.foldl hvs fun hp hv => hp.define hv

/-- The name of a value is the name of its counterpart. -/
theorem nameOf (hp : c.Agree p q) (hv : c.values v w) : p.nameOf v = q.nameOf w := by
  have lookup : p.numbers.lookup v = q.numbers.lookup w := by
    have hnumbers := hp.numbers
    generalize p.numbers = xs, q.numbers = ys at hnumbers ⊢
    induction hnumbers with
    | nil => rfl
    | @cons x y xs ys hxy _ ih =>
      obtain ⟨hxy, hnumber⟩ := hxy
      -- This is where values have to be paired one-to-one.
      have hsame : (v == x.1) = (w == y.1) := by
        rw [Bool.eq_iff_iff, beq_iff_eq, beq_iff_eq]
        exact Relator.rel_eq c.oneToOne hv hxy
      rw [List.lookup_cons, List.lookup_cons, hsame, hnumber, ih]
  rw [Printout.nameOf, Printout.nameOf, lookup]

/-- And are then called by the same names. -/
theorem namesOf {vs ws : List ValueId} (hp : c.Agree p q) (hvs : List.Forall₂ c.values vs ws) :
    vs.map p.nameOf = ws.map q.nameOf :=
  map_eq_of_forall₂ (fun _ _ hv => hp.nameOf hv) hvs

/-- The line of an operation comes out the same. -/
theorem printHead (hp : c.Agree p q) (ho : c.ops o o') (indent : Nat) :
    c.Agree (g.printHead indent o p) (h.printHead indent o' q) := by
  have hp := hp.defineAll (c.results ho)
  rw [Graph.printHead, Graph.printHead, hp.namesOf (c.results ho), hp.namesOf (c.operands ho),
    isEmpty_eq_of_forall₂ (c.results ho), isEmpty_eq_of_forall₂ (c.operands ho), c.kind ho,
    c.attrs ho, c.resultTypes ho]
  exact hp.put _

/-- So does that of a function. -/
theorem printFuncHead (hp : c.Agree p q) (ho : c.ops o o') (indent : Nat) :
    c.Agree (g.printFuncHead indent o p) (h.printFuncHead indent o' q) := by
  rw [Graph.printFuncHead, Graph.printFuncHead, funcName?, funcName?, c.attrs ho]
  have hentry := c.entryBlock? ho
  generalize g.entryBlock? o = entry, h.entryBlock? o' = entry' at hentry ⊢
  cases hentry with
  | none => exact hp.put _
  | @some b b' hb =>
    have hp := hp.defineAll (c.argsOf hb)
    have hparams := hp.namesOf (c.argsOf hb)
    have htext : ∀ (p : Printout) (vs : List ValueId) (tys : List Ty),
        List.zipWith (fun v ty => p.nameOf v ++ ": " ++ ty.render) vs tys =
          List.zipWith (fun s ty => s ++ ": " ++ ty.render) (vs.map p.nameOf) tys :=
      fun p vs tys => by rw [List.zipWith_map_left]
    simp only [Option.map_some, Option.getD_some, htext, hparams, c.argTypes hb]
    exact hp.put _

/-- Operations that correspond leave printouts that agree as they were: in agreement. -/
theorem printWithin (hp : c.Agree p q) (ho : c.ops o o') :
    c.Agree (g.printWithin d indent o p) (h.printWithin d indent o' q) := by
  induction d generalizing o o' indent p q with
  | zero => exact hp
  | succ d ih =>
    have inside : ∀ {p q r r'}, c.Agree p q → c.regions r r' →
        c.Agree ((g.opsOfRegion r).foldl (fun p x => g.printWithin d (indent + 2) x p) p)
          ((h.opsOfRegion r').foldl (fun p x => h.printWithin d (indent + 2) x p) q) := by
      intro p q r r' hp hr
      exact hp.foldl (c.opsOfRegion hr) fun hp hx => ih hp hx
    rw [Graph.printWithin, Graph.printWithin, c.kind ho]
    split
    · have hhead := hp.printFuncHead ho indent
      have hbody := hhead.foldl (c.regionsOf ho) fun hp hr => inside hp hr
      exact hbody.put _
    · have hhead := hp.printHead ho indent
      have hbody := hhead.foldl (c.regionsOf ho) fun hp hr =>
        (inside (hp.put " \x7b\n") hr).put (blanks indent ++ "\x7d")
      exact hbody.put _

end Agree

end Correspondence

/-- Operations that correspond print the same text, whatever else their graphs hold. -/
theorem print_eq_of_correspondence (c : Correspondence g h) (hroot : c.ops root root')
    (finite : g.NestsFinitely root) : g.print root = h.print root' := by
  have finite' := c.nestsFinitely hroot finite
  -- Each graph has its own bound on the depth, and a larger one does as well.
  let d := max g.depthBound h.depthBound
  calc g.print root
      = (g.printWithin d 0 root .empty).text := print_eq finite (Nat.le_max_left _ _)
    _ = (h.printWithin d 0 root' .empty).text :=
        (Correspondence.Agree.empty.printWithin hroot).text
    _ = h.print root' := (print_eq finite' (Nat.le_max_right _ _)).symm

/-- Another history of the function around a function in `strayReadGraph`. The records are created
in another order, among others that are not part of it. -/
def rearrangedHistory : List Edit :=
  [.createBlock [.index], .createOp (Instr.constantInt (.i 8) 0), .createBlock [],
    .createBlock [.i 32], .createRegion [⟨2⟩], .createOp (Instr.func "outer" ⟨0⟩),
    .createOp (Instr.constantInt (.i 32) 8), .createOp (Instr.constantInt (.i 32) 7),
    .append ⟨2⟩ ⟨3⟩, .append ⟨2⟩ ⟨2⟩, .createRegion [⟨1⟩], .createOp (Instr.func "inner" ⟨1⟩),
    .insertBefore ⟨2⟩ ⟨2⟩ ⟨4⟩, .createOp (Instr.binary .addi ⟨⟨4⟩, .i 32⟩ ⟨3⟩),
    .append ⟨1⟩ ⟨5⟩, .createOp (Instr.ret [⟨5⟩]), .append ⟨2⟩ ⟨6⟩]

/-- The graph that this history ends with. -/
def rearrangedGraph : Graph where
  ops := #[⟨.constant, [], [⟨1⟩], ⟨[("value", .int 0)]⟩, [], none⟩,
    ⟨.func, [], [], ⟨[("sym_name", .str "outer")]⟩, [⟨0⟩], none⟩,
    ⟨.constant, [], [⟨3⟩], ⟨[("value", .int 8)]⟩, [], some ⟨2⟩⟩,
    ⟨.constant, [], [⟨4⟩], ⟨[("value", .int 7)]⟩, [], some ⟨2⟩⟩,
    ⟨.func, [], [], ⟨[("sym_name", .str "inner")]⟩, [⟨1⟩], some ⟨2⟩⟩,
    ⟨.addi, [⟨4⟩, ⟨3⟩], [⟨5⟩], .empty, [], some ⟨1⟩⟩,
    ⟨.ret, [⟨5⟩], [], .empty, [], some ⟨2⟩⟩]
  values := #[⟨.argument ⟨0⟩ 0, .index⟩, ⟨.result ⟨0⟩ 0, .i 8⟩, ⟨.argument ⟨2⟩ 0, .i 32⟩,
    ⟨.result ⟨2⟩ 0, .i 32⟩, ⟨.result ⟨3⟩ 0, .i 32⟩, ⟨.result ⟨5⟩ 0, .i 32⟩]
  blocks := #[⟨[⟨0⟩], [], none⟩, ⟨[], [⟨5⟩], some ⟨1⟩⟩, ⟨[⟨2⟩], [⟨3⟩, ⟨4⟩, ⟨2⟩, ⟨6⟩], some ⟨0⟩⟩]
  regions := #[⟨[⟨2⟩], some ⟨1⟩⟩, ⟨[⟨1⟩], some ⟨4⟩⟩]
  chains := #[[], [], [], [⟨⟨5⟩, 1⟩], [⟨⟨5⟩, 0⟩], [⟨⟨6⟩, 0⟩]]

/-- Where an operation of `strayReadGraph` has gone. -/
inductive MovedOp : OpId → OpId → Prop
  | first : MovedOp ⟨0⟩ ⟨3⟩
  | second : MovedOp ⟨1⟩ ⟨2⟩
  | sum : MovedOp ⟨2⟩ ⟨5⟩
  | inner : MovedOp ⟨3⟩ ⟨4⟩
  | ret : MovedOp ⟨4⟩ ⟨6⟩
  | outer : MovedOp ⟨5⟩ ⟨1⟩

/-- Where a value of `strayReadGraph` has gone. -/
inductive MovedValue : ValueId → ValueId → Prop
  | param : MovedValue ⟨0⟩ ⟨2⟩
  | first : MovedValue ⟨1⟩ ⟨4⟩
  | second : MovedValue ⟨2⟩ ⟨3⟩
  | sum : MovedValue ⟨3⟩ ⟨5⟩

/-- Where a block of `strayReadGraph` has gone. -/
inductive MovedBlock : BlockId → BlockId → Prop
  | outer : MovedBlock ⟨0⟩ ⟨2⟩
  | inner : MovedBlock ⟨1⟩ ⟨1⟩

/-- Where a region of `strayReadGraph` has gone. -/
inductive MovedRegion : RegionId → RegionId → Prop
  | inner : MovedRegion ⟨0⟩ ⟨1⟩
  | outer : MovedRegion ⟨1⟩ ⟨0⟩

/-- The records of the two graphs that stand for each other. -/
def rearrangement : Correspondence strayReadGraph rearrangedGraph where
  ops := MovedOp
  values := MovedValue
  blocks := MovedBlock
  regions := MovedRegion
  oneToOne := by
    constructor
    · intro v w x hv hw
      cases hv <;> cases hw <;> rfl
    · intro v w x hw hx
      cases hw <;> cases hx <;> rfl
  kind h := by cases h <;> rfl
  attrs h := by cases h <;> rfl
  operands h := by cases h <;> repeat constructor
  results h := by cases h <;> repeat constructor
  resultTypes h := by cases h <;> rfl
  regionsOf h := by cases h <;> repeat constructor
  blocksIn h := by cases h <;> repeat constructor
  argsOf h := by cases h <;> repeat constructor
  argTypes h := by cases h <;> rfl
  opsIn h := by cases h <;> repeat constructor

/-- The sum shows the same number where it is made and where it is returned, and the constant that
is read too early shows none. -/
theorem print_eq_of_correspondence_rearranged :
    Edit.replay strayReadHistory = .ok (strayReadGraph, [⟨6⟩]) ∧
    Edit.replay rearrangedHistory = .ok (rearrangedGraph, []) ∧
    rearrangement.ops ⟨5⟩ ⟨1⟩ ∧ strayReadGraph.NestsFinitely ⟨5⟩ ∧
    strayReadGraph.print ⟨5⟩ = rearrangedGraph.print ⟨1⟩ ∧
    rearrangedGraph.print ⟨1⟩ =
      "func.func @outer(%0: i32) \x7b\n  %1 = arith.constant \x7bvalue = 7\x7d : i32\n" ++
      "  func.func @inner() \x7b\n    %2 = arith.addi %1, %? : i32\n  \x7d\n" ++
      "  %3 = arith.constant \x7bvalue = 8\x7d : i32\n  func.return %2\n\x7d\n" := by
  have finite := strayReadGraph_finite
  exact ⟨strayReadGraph_history, by cbv, .outer, finite,
    print_eq_of_correspondence rearrangement .outer finite, by cbv⟩

end Graph

end SimdLowering
