/-
What is asked about access sizes.

A visit may ask for the size of the load it stands at, for the verdict of the target or in
the rule that splits loads, and what it is told is remembered. Nothing else is ever asked:
all other checks and rules leave the sizes alone. So any relation between sizes that goes
along with the one question is kept by everything that happens before a rewrite.

The answer is a sum over the loads that carry this one, computed in words of 64 bits. If there is
an answer, it is the exact one.
-/
import SimdLowering.Proofs.Target.Lawful

set_option autoImplicit false

namespace SimdLowering

open SimdLowering.Graph SimdLowering.Rules

variable {gen : Generation} {g g' : Graph} {op : OpId} {k : OpKind} {c c' : AccessSizes}
  {Q : AccessSizes → AccessSizes → Prop}

/-- The operation is a load, and its size was asked for. -/
def Asks (g : Graph) (op : OpId) (c c' : AccessSizes) : Prop :=
  g.kind op = .upd ∧ ∃ n, c.query g op = .ok (n, c')

/-- The sizes are as they were, or the size of the operation was asked for. -/
def AsksAtMost (g : Graph) (op : OpId) (c c' : AccessSizes) : Prop := c' = c ∨ Asks g op c c'

/-! ## Rules -/

/-- Whatever the rule answers, it asks for the size of its load at most. -/
def Rule.Queries (rule : Rule) : Prop :=
  ∀ g op c g' c' outcome, g.kind op ∈ rule.roots →
    rule.run g op c = .ok (g', c', outcome) → AsksAtMost g op c c'

theorem queries_ofDecision (name : String) (roots : List OpKind)
    (look : Graph → OpId → Except Fault Decision) : (Rule.ofDecision name roots look).Queries := by
  intro g op c g' c' outcome _ h
  obtain ⟨x, hx, h⟩ := bind_eq_ok.mp h
  obtain ⟨d, -, hd⟩ := bind_eq_ok.mp hx
  cases hd
  cases h
  exact Or.inl rfl

theorem queries_splitUpd (bits : Nat) : (splitUpd bits).Queries := by
  intro g op c g' c' outcome hk h
  have hkind : g.kind op = .upd := List.mem_singleton.mp hk
  obtain ⟨⟨d, c₁⟩, hlook, h⟩ := bind_eq_ok.mp h
  obtain ⟨⟨n, c₂⟩, hquery, hlook⟩ := bind_eq_ok.mp hlook
  -- The answer to the question is what every branch goes on with.
  have hsame : c₁ = c₂ := by
    obtain ⟨most, -, hlook⟩ := bind_eq_ok.mp hlook
    dsimp only at hlook
    split at hlook
    · cases hlook
      rfl
    · obtain ⟨a, -, hlook⟩ := bind_eq_ok.mp hlook
      split at hlook
      · cases hlook
        rfl
      · obtain ⟨ty, -, hlook⟩ := bind_eq_ok.mp hlook
        cases hlook
        rfl
  cases h
  exact Or.inr ⟨hkind, n, hsame ▸ hquery⟩

/-- What holds of every rule that decides without asking for sizes, and of the splitting of loads,
holds of the rules of both generations. -/
theorem forall_mem_tables {P : Rule → Prop}
    (decides : ∀ name roots look, P (Rule.ofDecision name roots look))
    (splits : ∀ bits, P (splitUpd bits)) (shift : Int) : ∀ r ∈ aieRules ++ aiemlRules shift,
      P r := by
  simp only [aieRules, aiemlRules, List.forall_mem_append, List.forall_mem_cons]
  refine ⟨⟨decides _ _ _, splits _, ?_⟩, decides _ _ _, splits _, ?_⟩
  all_goals
    repeat' apply And.intro
    all_goals first | exact decides _ _ _ | exact List.forall_mem_nil _

/-- Among the rules of both generations only the splitting of loads asks for sizes. -/
theorem queries_of_mem_tables (shift : Int) : ∀ r ∈ aieRules ++ aiemlRules shift, r.Queries :=
  forall_mem_tables queries_ofDecision queries_splitUpd shift

/-! ## Checks -/

/-- The check that is said to a target, if one is, asks for the size of its load at most. -/
def TargetSetting.Queries : TargetSetting → Prop
  | check k c => ∀ g op sizes r, g.kind op = k → c g op sizes = .ok r → AsksAtMost g op sizes r.2
  | _ => True

namespace FinalForm

theorem queries_ofPredicate (k : OpKind) (p : Graph → OpId → Bool) :
    TargetSetting.Queries (.check k (.ofPredicate p)) := by
  intro g op c r _ h
  cases h
  exact Or.inl rfl

theorem queries_ofTest (k : OpKind) (test : Graph → OpId → Except Fault Bool) :
    TargetSetting.Queries (.check k (.ofTest test)) := by
  intro g op c r _ h
  obtain ⟨b, -, h⟩ := bind_eq_ok.mp h
  cases h
  exact Or.inl rfl

theorem queries_loadFits (gen : Generation) :
    TargetSetting.Queries (.check .upd (loadFits gen)) := by
  intro g op c r hk h
  obtain ⟨⟨n, c'⟩, hquery, h⟩ := bind_eq_ok.mp h
  cases h
  exact Or.inr ⟨hk, n, hquery⟩

/-- What holds of whatever is said of a dialect or a kind, of every test and of the check of loads
holds of all that is said to the target of a generation. -/
theorem forall_mem_settings {P : TargetSetting → Prop} (dialects : ∀ d, P (.legalDialect d))
    (legal : ∀ k, P (.legalKind k)) (illegal : ∀ k, P (.illegalKind k))
      (predicates : ∀ k p, P (.check k (.ofPredicate p)))
    (tests : ∀ k test, P (.check k (.ofTest test)))
    (loads : ∀ gen, P (.check .upd (loadFits gen))) (gen : Generation) :
    ∀ s ∈ gen.settings, P s :=
  forall_mem_settings_of_checks dialects legal illegal (loads gen) (fun _ => predicates _ _)
    (fun _ => tests _ _) (fun _ _ => predicates _ _) (predicates _ _) (predicates _ _)
    (fun _ _ => tests _ _) (fun _ _ => tests _ _) (tests _ _) (tests _ _)

theorem settings_queries (gen : Generation) : ∀ s ∈ gen.settings, s.Queries :=
  forall_mem_settings (fun _ => trivial) (fun _ => trivial) (fun _ => trivial) queries_ofPredicate
    queries_ofTest queries_loadFits gen

end FinalForm

/-- For its verdict the target asks for the size of a load at most. -/
theorem Generation.legality_queries {verdict : Legality}
    (h : gen.conversionTarget.legality g op c = .ok (verdict, c')) : AsksAtMost g op c c' := by
  cases hcheck : gen.conversionTarget.checks (g.kind op) with
  | none =>
    rw [ConversionTarget.legality_of_kind hcheck] at h
    cases h
    exact Or.inl rfl
  | some check =>
    obtain ⟨ok, hr, -⟩ := (ConversionTarget.legality_eq_ok_of_check hcheck).mp h
    exact FinalForm.settings_queries gen _ (ConversionTarget.mem_of_checks hcheck) g op c _ rfl hr

/-- A relation between sizes that goes along with the question for the size of the load
goes along with everything a visit asks. -/
theorem LowerOptions.tracks {o : LowerOptions} (hrefl : ∀ c, Q c c)
    (htrans : ∀ {c₁ c₂ c₃}, Q c₁ c₂ → Q c₂ c₃ → Q c₁ c₃)
    (hask : ∀ c c', Asks g op c c' → Q c c') :
    Application.Tracks o.ruleSet o.target.conversionTarget g op Q := by
  have atMost : ∀ c c', AsksAtMost g op c c' → Q c c' := by
    rintro c c' (rfl | h)
    · exact hrefl c'
    · exact hask c c' h
  refine ⟨hrefl, htrans, fun c v c' h => ?_, fun e he hk c g' c' outcome h => ?_⟩
  · exact atMost c c' (Generation.legality_queries h)
  · exact atMost c c' (queries_of_mem_tables o.shift _ (o.mem_tables he) g op c g' c' outcome hk h)

namespace Graph

variable {gone : List OpId} {d : OpId} {v : ValueId} {n : Nat}

/-! ## What a load contributes -/

/-- The offsets of loads, added up. -/
def totalOffset (g : Graph) (l : List Use) : Int :=
  l.foldr (fun u sum => g.updOffset u.user + sum) 0

@[simp] theorem totalOffset_nil : g.totalOffset [] = 0 := rfl

@[simp] theorem totalOffset_cons (u : Use) (l : List Use) :
    g.totalOffset (u :: l) = g.updOffset u.user + g.totalOffset l := rfl

/-- The order in which offsets are added up does not matter. -/
theorem totalOffset_perm {l l' : List Use} (h : l.Perm l') : g.totalOffset l =
    g.totalOffset l' := by
  induction h with
  | nil => rfl
  | cons u _ ih => rw [totalOffset_cons, totalOffset_cons, ih]
  | swap u t l => exact Int.add_left_comm ..
  | trans _ _ ih₁ ih₂ => exact ih₁.trans ih₂

theorem totalOffset_congr {l : List Use}
    (h : ∀ u ∈ l, g'.updOffset u.user = g.updOffset u.user) :
    g'.totalOffset l = g.totalOffset l := by
  induction l with
  | nil => rfl
  | cons u l ih =>
    rw [totalOffset_cons, totalOffset_cons, h u (List.mem_cons_self ..),
      ih fun t ht => h t (List.mem_cons_of_mem _ ht)]

/-- Where no offset is negative, fewer of them come to no more. -/
theorem totalOffset_le {l l' : List Use} (h : l.Sublist l')
    (hoffsets : ∀ u ∈ l', 0 ≤ g.updOffset u.user) :
    g.totalOffset l ≤ g.totalOffset l' := by
  induction h with
  | slnil => exact Int.le_refl _
  | cons u _ ih =>
    have hu := hoffsets u (List.mem_cons_self ..)
    have hrest := ih fun t ht => hoffsets t (List.mem_cons_of_mem _ ht)
    rw [totalOffset_cons]
    omega
  | cons_cons u _ ih =>
    exact Int.add_le_add_left (ih fun t ht => hoffsets t (List.mem_cons_of_mem _ ht)) _

theorem totalOffset_nonneg {l : List Use} (hoffsets : ∀ u ∈ l, 0 ≤ g.updOffset u.user) :
    0 ≤ g.totalOffset l := totalOffset_le (List.nil_sublist l) hoffsets

theorem totalOffset_eq_zero {l : List Use} (hoffsets : ∀ u ∈ l, g.updOffset u.user = 0) :
    g.totalOffset l = 0 := by
  induction l with
  | nil => rfl
  | cons u l ih =>
    rw [totalOffset_cons, hoffsets u (List.mem_cons_self ..),
      ih fun t ht => hoffsets t (List.mem_cons_of_mem _ ht), Int.add_zero]

/-- The offsets of the loads that carry a value, added up. -/
def carried (g : Graph) (v : ValueId) : Int :=
  g.totalOffset ((g.uses v).filter fun u => g.kind u.user == .upd)

theorem mem_filter_loads {u : Use} :
    u ∈ (g.uses v).filter (fun u => g.kind u.user == .upd) ↔
      u ∈ g.uses v ∧ g.kind u.user = .upd := by
  rw [List.mem_filter, beq_iff_eq]

/-- No load counts more than all of them, where none starts before the vector does. -/
theorem le_carried (hoffsets : ∀ u ∈ g.uses v, g.kind u.user = .upd → 0 ≤ g.updOffset u.user)
    {u : Use} (hu : u ∈ g.uses v) (hk : g.kind u.user = .upd) :
    g.updOffset u.user ≤ g.carried v := by
  have hle : g.totalOffset [u] ≤ g.carried v :=
    totalOffset_le (List.singleton_sublist.mpr (mem_filter_loads.mpr ⟨hu, hk⟩)) fun t ht =>
      hoffsets t (mem_filter_loads.mp ht).1 (mem_filter_loads.mp ht).2
  rwa [totalOffset_cons, totalOffset_nil, Int.add_zero] at hle

theorem carried_nonneg (hoffsets : ∀ u ∈ g.uses v, g.kind u.user = .upd → 0 ≤ g.updOffset u.user) :
    0 ≤ g.carried v :=
  totalOffset_nonneg fun u hu => hoffsets u (mem_filter_loads.mp hu).1 (mem_filter_loads.mp hu).2

/-- Where the same loads carry a value, and start where they did, it is carried as it was. -/
theorem carried_congr (h : Consistent g gone) {gone' : List OpId} (h' : Consistent g' gone')
    (hloads : ∀ u, (u ∈ g'.uses v ∧ g'.kind u.user = .upd) ↔ (u ∈ g.uses v ∧ g.kind u.user = .upd))
    (hoffset : ∀ u ∈ g.uses v, g.kind u.user = .upd → g'.updOffset u.user = g.updOffset u.user) :
    g'.carried v = g.carried v := by
  have hperm : ((g'.uses v).filter fun u => g'.kind u.user == .upd).Perm
      ((g.uses v).filter fun u => g.kind u.user == .upd) := by
    refine (List.perm_ext_iff_of_nodup ((h'.readOnce v).filter _) ((h.readOnce v).filter _)).mpr
      fun u => ?_
    rw [mem_filter_loads, mem_filter_loads]
    exact hloads u
  rw [carried, carried, totalOffset_perm hperm]
  refine totalOffset_congr fun u hu => ?_
  obtain ⟨hu, hk⟩ := List.mem_filter.mp hu
  exact hoffset u hu (by simpa using hk)

/-- Offsets that have been added up are added up right, and their sum is no larger than can be
counted. -/
theorem sum_of_foldlM_fitI64 {l : List Use} {start sum : Int} (hstart : start < twoPow 63)
    (h : l.foldlM (fun sum u => fitI64 (sum + g.updOffset u.user)) start = .ok sum) :
    sum = start + g.totalOffset l ∧ sum < twoPow 63 := by
  induction l generalizing start with
  | nil =>
    cases h
    exact ⟨(Int.add_zero _).symm, hstart⟩
  | cons u l ih =>
    obtain ⟨next, hnext, h⟩ := bind_eq_ok.mp h
    obtain ⟨hfits, rfl⟩ := fitI64_eq_ok.mp hnext
    obtain ⟨hsum, hend⟩ := ih hfits.2 h
    exact ⟨by rw [hsum, totalOffset_cons, Int.add_assoc], hend⟩

/-- Offsets none of which is negative can be added up in any order, if their sum can be counted. -/
theorem foldlM_fitI64_of_nonneg {l : List Use} {start : Int}
    (hoffsets : ∀ u ∈ l, 0 ≤ g.updOffset u.user) (hstart : 0 ≤ start)
    (hsum : start + g.totalOffset l < twoPow 63) :
    l.foldlM (fun sum u => fitI64 (sum + g.updOffset u.user)) start =
      .ok (start + g.totalOffset l) := by
  induction l generalizing start with
  | nil => exact congrArg Except.ok (Int.add_zero _).symm
  | cons u l ih =>
    have hu := hoffsets u (List.mem_cons_self ..)
    have hrest : 0 ≤ g.totalOffset l :=
      totalOffset_nonneg fun t ht => hoffsets t (List.mem_cons_of_mem _ ht)
    rw [totalOffset_cons, ← Int.add_assoc] at hsum ⊢
    have hlow : -(twoPow 63 : Int) ≤ start + g.updOffset u.user := by
      have : (0 : Int) ≤ twoPow 63 := Int.natCast_nonneg _
      omega
    rw [List.foldlM_cons, fitI64_eq_ok.mpr ⟨⟨hlow, by omega⟩, rfl⟩]
    exact ih (fun t ht => hoffsets t (List.mem_cons_of_mem _ ht)) (by omega) hsum

theorem carried_of_downstreamOffset {m : Int} (h : g.downstreamOffset v = .ok m) :
    m = g.carried v ∧ g.carried v < twoPow 63 := by
  obtain ⟨hsum, hfits⟩ := sum_of_foldlM_fitI64 (by decide) h
  rw [Int.zero_add] at hsum
  have hcarried : m = g.carried v := hsum
  exact ⟨hcarried, hcarried ▸ hfits⟩

theorem downstreamOffset_of_nonneg
    (hoffsets : ∀ u ∈ g.uses v, g.kind u.user = .upd → 0 ≤ g.updOffset u.user)
    (hfits : g.carried v < twoPow 63) : g.downstreamOffset v = .ok (g.carried v) := by
  have hsum := foldlM_fitI64_of_nonneg
    (fun u (hu : u ∈ (g.uses v).filter fun u => g.kind u.user == .upd) => hoffsets u
      (List.mem_of_mem_filter hu)
      (by simpa using (List.mem_filter.mp hu).2)) (Int.le_refl 0)
  rw [Int.zero_add] at hsum
  exact hsum hfits

/-- The lanes of a load whose size is computed can be counted, and the size is what is left of them
without what comes before and what carries it. -/
theorem size_of_accessSize (hres : (g.results d).head? = some v) (h : g.accessSize d = .ok n) :
    (∀ shape, g.resultShape? d = some shape → shape.bits < twoPow 32) ∧
      n = (max 0 ((((g.resultShape? d).map VectorShape.bits).getD 0 : Nat) - g.updOffset d -
        g.carried v)).toNat % twoPow 32 := by
  unfold accessSize at h
  rw [hres] at h
  -- The size has come back, so nothing on the way has overflowed.
  obtain ⟨total, htotal, h⟩ := bind_eq_ok.mp h
  obtain ⟨downstream, hdownstream, h⟩ := bind_eq_ok.mp h
  obtain ⟨rest, hrest, h⟩ := bind_eq_ok.mp h
  obtain ⟨bits, hbits, h⟩ := bind_eq_ok.mp h
  cases h
  obtain ⟨hshort, rfl⟩ : (∀ shape, g.resultShape? d = some shape → shape.bits < twoPow 32) ∧
      total = ((g.resultShape? d).map VectorShape.bits).getD 0 := by
    unfold resultBits at htotal
    cases hshape : g.resultShape? d with
    | none =>
      rw [hshape] at htotal
      cases htotal
      exact ⟨nofun, rfl⟩
    | some shape =>
      rw [hshape] at htotal
      obtain ⟨hfits, rfl⟩ := fitU32_eq_ok.mp htotal
      exact ⟨fun _ e => Option.some.inj e ▸ hfits, rfl⟩
  refine ⟨hshort, ?_⟩
  rw [(fitI64_eq_ok.mp hbits).2, (fitI64_eq_ok.mp hrest).2,
    (carried_of_downstreamOffset hdownstream).1]

/-- Where a load has the lanes it had, starts where it did and is carried as it was, it contributes
what it did. -/
theorem accessSize_congr (hres : (g.results d).head? = some v)
    (hres' : (g'.results d).head? = some v) (hshape : g'.resultShape? d = g.resultShape? d)
    (hoffset : g'.updOffset d = g.updOffset d) (hcarried : g'.carried v = g.carried v)
    (hoffsets : ∀ u ∈ g'.uses v, g'.kind u.user = .upd → 0 ≤ g'.updOffset u.user)
    (h : g.accessSize d = .ok n) : g'.accessSize d = .ok n := by
  unfold accessSize at h ⊢
  rw [hres] at h
  rw [hres']
  obtain ⟨total, htotal, h⟩ := bind_eq_ok.mp h
  obtain ⟨downstream, hdownstream, h⟩ := bind_eq_ok.mp h
  obtain ⟨rfl, hfits⟩ := carried_of_downstreamOffset hdownstream
  refine bind_eq_ok.mpr ⟨total, by rw [← htotal, resultBits, resultBits, hshape], ?_⟩
  refine bind_eq_ok.mpr ⟨g.carried v, ?_, by rwa [hoffset]⟩
  rw [← hcarried] at hfits ⊢
  exact downstreamOffset_of_nonneg hoffsets hfits

/-- Where it has the lanes it had, starts where it did and is carried by no more than it was, what
it contributes can still be computed. -/
theorem exists_accessSize_of_le (hres : (g.results d).head? = some v)
    (hres' : (g'.results d).head? = some v) (hshape : g'.resultShape? d = g.resultShape? d)
    (hoffset : g'.updOffset d = g.updOffset d) (hcarried : g'.carried v ≤ g.carried v)
    (hoffsets : ∀ u ∈ g'.uses v, g'.kind u.user = .upd → 0 ≤ g'.updOffset u.user)
    (h : g.accessSize d = .ok n) : ∃ m, g'.accessSize d = .ok m := by
  unfold accessSize at h ⊢
  rw [hres] at h
  rw [hres']
  obtain ⟨total, htotal, h⟩ := bind_eq_ok.mp h
  obtain ⟨downstream, hdownstream, h⟩ := bind_eq_ok.mp h
  obtain ⟨rest, hrest, h⟩ := bind_eq_ok.mp h
  obtain ⟨bits, hbits, -⟩ := bind_eq_ok.mp h
  obtain ⟨rfl, hfits⟩ := carried_of_downstreamOffset hdownstream
  obtain ⟨hrestFits, hdifference⟩ := fitI64_eq_ok.mp hrest
  obtain ⟨hbitsFits, -⟩ := fitI64_eq_ok.mp hbits
  -- Less is carried than before, and nothing of it is negative, so no difference overflows.
  have hnonneg : 0 ≤ g'.carried v := carried_nonneg hoffsets
  have htotal' : g'.resultBits d = .ok total := by rw [← htotal, resultBits, resultBits, hshape]
  have hcarried' := downstreamOffset_of_nonneg hoffsets (by omega)
  have hbits' : fitI64 (rest - g'.carried v) = .ok (rest - g'.carried v) :=
    fitI64_eq_ok.mpr ⟨⟨by omega, by omega⟩, rfl⟩
  simp only [htotal', hcarried', hoffset, hrest, hbits', bind, Except.bind]
  exact ⟨_, rfl⟩

end Graph

end SimdLowering
