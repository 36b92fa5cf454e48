/-
What a target says is what it was told last.

A target keeps four tables: the dialects declared legal, the kinds declared legal, the kinds
declared illegal, and the checks. A setting writes to the entries of one kind or of one dialect
and to no other, so each entry remembers the last setting that wrote to it. That is one argument
for all four tables (`Remembers`), and the verdicts follow from what it gives for each of them.

The two tables of kinds are written together: what goes into one is taken out of the other. They
remember the same setting, one what it said and the other the opposite, so no kind is in both,
whatever is said in whatever order. Were a kind left in both, the table that is looked up first
would decide and not the last word.
-/
import SimdLowering.Rewrite.Legality

set_option autoImplicit false

namespace SimdLowering

variable {α β : Type} {word : TargetSetting → Option α} {settings settings' : List TargetSetting}
  {s : TargetSetting} {a : α} {k : OpKind} {d : Dialect} {c : LegalityCheck} {ok : Bool}

/-! ## Settings -/

namespace TargetSetting

/-- The check that the setting registers for a kind. -/
def checkFor? (k : OpKind) : TargetSetting → Option LegalityCheck
  | .check k' c => if k' = k then some c else none
  | _ => none

/-- What the setting says of a kind: that it may stay, or that it may not. -/
def wordOn? (k : OpKind) : TargetSetting → Option Bool
  | .legalKind k' => if k' = k then some true else none
  | .illegalKind k' => if k' = k then some false else none
  | _ => none

/-- What the setting says of a dialect, which can only be that it is legal. -/
def welcomes? (d : Dialect) : TargetSetting → Option Unit
  | .legalDialect d' => if d' = d then some () else none
  | _ => none

/-- A setting has a check for a kind if it is that check. -/
theorem checkFor?_eq_some_iff : s.checkFor? k = some c ↔ s = .check k c := by
  cases s <;> simp [checkFor?]

/-- It has a word on a kind if it allows or forbids that very kind. -/
theorem wordOn?_eq_some_iff :
    s.wordOn? k = some ok ↔ s = if ok then .legalKind k else .illegalKind k := by
  cases s <;> cases ok <;> simp [wordOn?]

/-- It welcomes a dialect if it allows all of it. -/
theorem welcomes?_eq_some_iff {u : Unit} : s.welcomes? d = some u ↔ s = .legalDialect d := by
  cases s <;> simp [welcomes?]

end TargetSetting

open SimdLowering.TargetSetting

/-! ## The last word -/

/-- Of the settings that have a word on the matter, the last one has this word. -/
def LastSays (word : TargetSetting → Option α) (settings : List TargetSetting) (a : α) : Prop :=
  ∃ before s after, settings = before ++ s :: after ∧ word s = some a ∧
    ∀ x ∈ after, word x = none

/-- None of the settings has a word on the matter. -/
def Silent (word : TargetSetting → Option α) (settings : List TargetSetting) : Prop :=
  ∀ s ∈ settings, word s = none

/-- The last word is the first one that is met reading backwards. -/
theorem lastSays_iff : LastSays word settings a ↔ settings.reverse.findSome? word = some a := by
  rw [List.findSome?_eq_some_iff]
  constructor
  · rintro ⟨before, s, after, rfl, hs, hafter⟩
    refine ⟨after.reverse, s, before.reverse, by simp, hs, ?_⟩
    intro x hx
    exact hafter x (List.mem_reverse.mp hx)
  · rintro ⟨after, s, before, hsplit, hs, hafter⟩
    refine ⟨before.reverse, s, after.reverse, ?_, hs, ?_⟩
    · rw [← List.reverse_reverse settings, hsplit]
      simp
    · intro x hx
      exact hafter x (List.mem_reverse.mp hx)

/-- To be silent is to have no last word. -/
theorem silent_iff : Silent word settings ↔ settings.reverse.findSome? word = none := by
  simp [Silent]

/-- Either nothing is set, or something is set last. -/
theorem silent_or_lastSays (word : TargetSetting → Option α) (settings : List TargetSetting) :
    Silent word settings ∨ ∃ a, LastSays word settings a := by
  cases h : settings.reverse.findSome? word with
  | none => exact Or.inl (silent_iff.mpr h)
  | some a => exact Or.inr ⟨a, lastSays_iff.mpr h⟩

/-- Settings with the same last words are silent together. -/
theorem silent_congr (h : ∀ a, LastSays word settings' a ↔ LastSays word settings a) :
    Silent word settings' ↔ Silent word settings := by
  have hsame : settings'.reverse.findSome? word = settings.reverse.findSome? word := by
    apply Option.ext
    intro a
    rw [← lastSays_iff, ← lastSays_iff, h]
  rw [silent_iff, silent_iff, hsame]

namespace ConversionTarget

/-! ## Tables -/

/-- An entry of a table that holds the word of one setting until another one has a word. -/
structure Remembers (read : ConversionTarget → β) (word : TargetSetting → Option α)
    (keep : α → β) : Prop where
  told : ∀ (t : ConversionTarget) s a, word s = some a → read (t.configure s) = keep a
  untold : ∀ (t : ConversionTarget) s, word s = none → read (t.configure s) = read t

namespace Remembers

variable {read : ConversionTarget → β} {keep : α → β}

/-- Settings without a word leave the entry alone. -/
theorem foldl_eq (h : Remembers read word keep) (hsilent : Silent word settings)
    (t : ConversionTarget) : read (settings.foldl configure t) = read t := by
  induction settings generalizing t with
  | nil => rfl
  | cons s rest ih =>
    have hs : word s = none := hsilent s (List.mem_cons_self ..)
    have hrest : Silent word rest := fun x hx => hsilent x (List.mem_cons_of_mem _ hx)
    rw [List.foldl_cons, ih hrest, h.untold t s hs]

/-- What remembers words is as it was at the start if there are none. -/
theorem of_silent (h : Remembers read word keep) (hsilent : Silent word settings) :
    read (ofSettings settings) = read .empty :=
  h.foldl_eq hsilent .empty

/-- And it keeps the last one otherwise. -/
theorem of_lastSays (h : Remembers read word keep) (hlast : LastSays word settings a) :
    read (ofSettings settings) = keep a := by
  obtain ⟨before, s, after, rfl, hs, hafter⟩ := hlast
  -- Whatever came before, the last word is written over it and then left alone.
  rw [ofSettings, List.foldl_append, List.foldl_cons, h.foldl_eq hafter, h.told _ s a hs]

end Remembers

/-- The check of a kind is the last one set. -/
theorem remembers_checks (k : OpKind) : Remembers (fun t => t.checks k) (checkFor? k) some where
  told := by
    intro t s c hs
    rw [checkFor?_eq_some_iff.mp hs]
    simp [configure]
  untold := by
    intro t s hs
    cases s with
    | check k' c =>
      have hne : k ≠ k' := by simpa [checkFor?, eq_comm] using hs
      simp [configure, hne]
    | legalDialect | legalKind | illegalKind => rfl

/-- The two tables of kinds are one entry for each kind: it is in one of them or in the other. -/
theorem remembers_kinds (k : OpKind) :
    Remembers (fun t => (t.legalKinds k, t.illegalKinds k)) (wordOn? k) fun ok => (ok, !ok) where
  told := by
    intro t s ok hs
    rw [wordOn?_eq_some_iff.mp hs]
    cases ok <;> simp [configure]
  untold := by
    intro t s hs
    cases s with
    | legalKind k' | illegalKind k' =>
      have hne : k ≠ k' := by simpa [wordOn?, eq_comm] using hs
      simp [configure, hne]
    | legalDialect | check => rfl

/-- A dialect once welcomed stays so. -/
theorem remembers_dialects (d : Dialect) :
    Remembers (fun t => t.dialects d) (welcomes? d) fun _ => true where
  told := by
    intro t s a hs
    rw [welcomes?_eq_some_iff.mp hs]
    simp [configure]
  untold := by
    intro t s hs
    cases s with
    | legalDialect d' =>
      have hne : d ≠ d' := by simpa [welcomes?, eq_comm] using hs
      simp [configure, hne]
    | legalKind | illegalKind | check => rfl

/-! ## What the tables hold -/

/-- Without a check set there is none. -/
theorem checks_of_silent (h : Silent (checkFor? k) settings) : (ofSettings settings).checks k =
    none :=
  (remembers_checks k).of_silent h

theorem checks_of_lastSays (h : LastSays (checkFor? k) settings c) :
    (ofSettings settings).checks k = some c :=
  (remembers_checks k).of_lastSays h

/-- A check that a target has is one that was registered. -/
theorem mem_of_checks (h : (ofSettings settings).checks k = some c) : .check k c ∈ settings := by
  rcases silent_or_lastSays (checkFor? k) settings with hsilent | ⟨c', hlast⟩
  · rw [checks_of_silent hsilent] at h
    cases h
  · rw [checks_of_lastSays hlast] at h
    cases h
    obtain ⟨before, s, after, rfl, hs, -⟩ := hlast
    rw [checkFor?_eq_some_iff.mp hs]
    simp

/-- A kind that nobody speaks of is neither allowed nor forbidden. -/
theorem kinds_of_silent (h : Silent (wordOn? k) settings) :
    (ofSettings settings).legalKinds k = false ∧ (ofSettings settings).illegalKinds k = false :=
  Prod.mk.inj ((remembers_kinds k).of_silent h)

/-- One that somebody speaks of is one of the two. -/
theorem kinds_of_lastSays (h : LastSays (wordOn? k) settings ok) :
    (ofSettings settings).legalKinds k = ok ∧ (ofSettings settings).illegalKinds k = !ok :=
  Prod.mk.inj ((remembers_kinds k).of_lastSays h)

/-- No kind is both among the legal and among the illegal ones. -/
theorem not_legal_and_illegal (settings : List TargetSetting) (k : OpKind) :
    ¬ ((ofSettings settings).legalKinds k = true ∧ (ofSettings settings).illegalKinds k =
      true) := by
  rintro ⟨hlegal, hillegal⟩
  rcases silent_or_lastSays (wordOn? k) settings with hsilent | ⟨ok, hlast⟩
  · simp [(kinds_of_silent hsilent).1] at hlegal
  · simp [(kinds_of_lastSays hlast).1] at hlegal
    simp [(kinds_of_lastSays hlast).2, hlegal] at hillegal

/-- A dialect is welcome exactly if it was ever welcomed. -/
theorem dialects_iff : (ofSettings settings).dialects d = true ↔ .legalDialect d ∈ settings := by
  rcases silent_or_lastSays (welcomes? d) settings with hsilent | ⟨a, hlast⟩
  · have habsent : .legalDialect d ∉ settings := by
      intro hmem
      simpa [welcomes?] using hsilent _ hmem
    simp [(remembers_dialects d).of_silent hsilent, habsent, empty]
  · have hmem : .legalDialect d ∈ settings := by
      obtain ⟨before, s, after, rfl, hs, -⟩ := hlast
      rw [welcomes?_eq_some_iff.mp hs]
      simp
    simp [(remembers_dialects d).of_lastSays hlast, hmem]

/-! ## Verdicts -/

section

variable {t : ConversionTarget} {g : Graph} {op : OpId} {sizes sizes' : AccessSizes}
  {verdict : Legality}

/-- Where there is a check, it decides. -/
theorem legality_of_check (h : t.checks (g.kind op) = some c) :
    t.legality g op sizes =
      (c g op sizes).map fun r => (if r.1 then .legal else .illegal, r.2) := by
  simp only [legality, h]
  cases c g op sizes <;> rfl

/-- Where there is a check for the kind, it decides. -/
theorem legality_eq_ok_of_check (h : t.checks (g.kind op) = some c) :
    t.legality g op sizes = .ok (verdict, sizes') ↔
      ∃ ok, c g op sizes = .ok (ok, sizes') ∧ (if ok then .legal else .illegal) = verdict := by
  rw [legality_of_check h]
  cases c g op sizes with
  | error e => simp [Except.map]
  | ok r =>
    obtain ⟨ok, rest⟩ := r
    constructor
    · intro heq
      cases heq
      exact ⟨ok, rfl, rfl⟩
    · rintro ⟨ok', heq, rfl⟩
      cases heq
      rfl

/-- Where there is none, what is said of the kind is the verdict. -/
theorem legality_of_kind (h : t.checks (g.kind op) = none) :
    t.legality g op sizes = .ok (t.kindLegality (g.kind op), sizes) := by
  rw [legality, h]

end

/-- Where there is none, the last word on the kind does. -/
theorem kindLegality_of_lastSays (h : LastSays (wordOn? k) settings ok) :
    (ofSettings settings).kindLegality k = if ok then .legal else .illegal := by
  obtain ⟨hlegal, hillegal⟩ := kinds_of_lastSays h
  rw [kindLegality, hlegal, hillegal]
  cases ok <;> rfl

/-- And without any, the dialect. -/
theorem kindLegality_of_silent (h : Silent (wordOn? k) settings) :
    (ofSettings settings).kindLegality k =
      if (ofSettings settings).dialects k.dialect then .legal else .unknown := by
  obtain ⟨hlegal, hillegal⟩ := kinds_of_silent h
  rw [kindLegality, hlegal, hillegal]
  rfl

/-- The verdict on an operation by the last word: the check that was registered last for the kind,
or what was said last of the kind where no check was registered, or whether the dialect was ever
declared legal where nothing was said of the kind either. -/
inductive LastWord (settings : List TargetSetting) (g : Graph) (op : OpId) (sizes : AccessSizes) :
    Except Fault (Legality × AccessSizes) → Prop where
  | checked {c : LegalityCheck} (last : LastSays (checkFor? (g.kind op)) settings c) :
      LastWord settings g op sizes
        ((c g op sizes).map fun r => (if r.1 then .legal else .illegal, r.2))
  | told {ok : Bool} (unchecked : Silent (checkFor? (g.kind op)) settings)
      (last : LastSays (wordOn? (g.kind op)) settings ok) :
      LastWord settings g op sizes (.ok (if ok then .legal else .illegal, sizes))
  | welcome (unchecked : Silent (checkFor? (g.kind op)) settings)
      (untold : Silent (wordOn? (g.kind op)) settings)
      (dialect : .legalDialect (g.kind op).dialect ∈ settings) :
      LastWord settings g op sizes (.ok (.legal, sizes))
  | unknown (unchecked : Silent (checkFor? (g.kind op)) settings)
      (untold : Silent (wordOn? (g.kind op)) settings)
      (dialect : .legalDialect (g.kind op).dialect ∉ settings) :
      LastWord settings g op sizes (.ok (.unknown, sizes))

namespace LastWord

variable {g : Graph} {op : OpId} {sizes : AccessSizes}
  {r : Except Fault (Legality × AccessSizes)}

/-- The target says what the last word says. -/
theorem legality_eq (h : LastWord settings g op sizes r) :
    (ofSettings settings).legality g op sizes = r := by
  cases h with
  | checked last => exact legality_of_check (checks_of_lastSays last)
  | told unchecked last =>
    rw [legality_of_kind (checks_of_silent unchecked), kindLegality_of_lastSays last]
  | welcome unchecked untold dialect =>
    rw [legality_of_kind (checks_of_silent unchecked), kindLegality_of_silent untold,
      if_pos (dialects_iff.mpr dialect)]
  | unknown unchecked untold dialect =>
    rw [legality_of_kind (checks_of_silent unchecked), kindLegality_of_silent untold,
      if_neg (mt dialects_iff.mp dialect)]

/-- There is a last word on every operation. -/
theorem exists_verdict (settings : List TargetSetting) (g : Graph) (op : OpId)
    (sizes : AccessSizes) : ∃ r, LastWord settings g op sizes r := by
  rcases silent_or_lastSays (checkFor? (g.kind op)) settings with unchecked | ⟨c, last⟩
  · rcases silent_or_lastSays (wordOn? (g.kind op)) settings with untold | ⟨ok, last⟩
    · by_cases dialect : .legalDialect (g.kind op).dialect ∈ settings
      · exact ⟨_, .welcome unchecked untold dialect⟩
      · exact ⟨_, .unknown unchecked untold dialect⟩
    · exact ⟨_, .told unchecked last⟩
  · exact ⟨_, .checked last⟩

/-- The order of the settings matters for nothing but which check and which word on the kind of
the operation come last. -/
theorem reorder (hperm : settings'.Perm settings)
    (hcheck : ∀ c, LastSays (checkFor? (g.kind op)) settings' c ↔
      LastSays (checkFor? (g.kind op)) settings c)
    (hword : ∀ ok, LastSays (wordOn? (g.kind op)) settings' ok ↔
      LastSays (wordOn? (g.kind op)) settings ok)
    (h : LastWord settings g op sizes r) : LastWord settings' g op sizes r := by
  cases h with
  | checked last => exact .checked ((hcheck _).mpr last)
  | told unchecked last => exact .told ((silent_congr hcheck).mpr unchecked) ((hword _).mpr last)
  | welcome unchecked untold dialect =>
    exact .welcome ((silent_congr hcheck).mpr unchecked) ((silent_congr hword).mpr untold)
      (hperm.mem_iff.mpr dialect)
  | unknown unchecked untold dialect =>
    exact .unknown ((silent_congr hcheck).mpr unchecked) ((silent_congr hword).mpr untold)
      (mt hperm.mem_iff.mp dialect)

end LastWord

/-- Take any sequence of settings. The target to which they have been said, one after the other,
says of every operation what the last word says, and nothing else. It has no kind both among the
legal and among the illegal ones. Let the same settings come in another order. Then as long as
the check for the kind of an operation that comes last and the word on this kind that comes last
are the same ones, or there are none, the verdict on the operation stays what it is. -/
theorem legality_by_lastWord (settings : List TargetSetting) :
    (∀ g op sizes r, (ofSettings settings).legality g op sizes = r ↔
      LastWord settings g op sizes r) ∧
    (∀ k, ¬ ((ofSettings settings).legalKinds k = true ∧
      (ofSettings settings).illegalKinds k = true)) ∧
    ∀ (settings' : List TargetSetting) (g : Graph) (op : OpId), settings'.Perm settings →
      (∀ c, LastSays (checkFor? (g.kind op)) settings' c ↔
        LastSays (checkFor? (g.kind op)) settings c) →
      (∀ ok, LastSays (wordOn? (g.kind op)) settings' ok ↔
        LastSays (wordOn? (g.kind op)) settings ok) →
      ∀ sizes, (ofSettings settings').legality g op sizes =
        (ofSettings settings).legality g op sizes := by
  refine ⟨fun g op sizes r => ⟨?_, LastWord.legality_eq⟩, not_legal_and_illegal settings, ?_⟩
  · rintro rfl
    obtain ⟨r, hr⟩ := LastWord.exists_verdict settings g op sizes
    rw [hr.legality_eq]
    exact hr
  · intro settings' g op hperm hcheck hword sizes
    obtain ⟨r, hr⟩ := LastWord.exists_verdict settings g op sizes
    rw [hr.legality_eq, (hr.reorder hperm hcheck hword).legality_eq]

/-! ## Settings that are overridden -/

/-- A dialect is declared legal, and one of its kinds is not. -/
def broadSettings : List TargetSetting := [.legalDialect .arith, .illegalKind .muli]

/-- Sums get a check that refuses them all and then one that asks for two operands. Differences
may not stay and then may. -/
def overriddenSettings : List TargetSetting :=
  [.check .addi (.ofPredicate fun _ _ => false), .illegalKind .subi,
    .check .addi (.ofPredicate fun g op => (g.operands op).length = 2), .legalKind .subi]

/-- A sum, a difference, a product, a minimum and a reduction. -/
def assortedGraph : Graph where
  ops := #[⟨.addi, [⟨0⟩, ⟨0⟩], [⟨1⟩], .empty, [], some ⟨0⟩⟩,
    ⟨.subi, [⟨1⟩, ⟨0⟩], [⟨2⟩], .empty, [], some ⟨0⟩⟩,
    ⟨.muli, [⟨2⟩, ⟨0⟩], [⟨3⟩], .empty, [], some ⟨0⟩⟩,
    ⟨.minsi, [⟨3⟩, ⟨0⟩], [⟨4⟩], .empty, [], some ⟨0⟩⟩,
    ⟨.reduction, [⟨4⟩], [⟨5⟩], .empty, [], some ⟨0⟩⟩]
  values := #[⟨.argument ⟨0⟩ 0, .vector 16 (.i 32)⟩, ⟨.result ⟨0⟩ 0, .vector 16 (.i 32)⟩,
    ⟨.result ⟨1⟩ 0, .vector 16 (.i 32)⟩, ⟨.result ⟨2⟩ 0, .vector 16 (.i 32)⟩,
    ⟨.result ⟨3⟩ 0, .vector 16 (.i 32)⟩, ⟨.result ⟨4⟩ 0, .i 32⟩]
  blocks := #[⟨[⟨0⟩], [⟨0⟩, ⟨1⟩, ⟨2⟩, ⟨3⟩, ⟨4⟩], none⟩]
  regions := #[]
  chains := #[[⟨⟨0⟩, 0⟩, ⟨⟨0⟩, 1⟩, ⟨⟨1⟩, 1⟩, ⟨⟨2⟩, 1⟩, ⟨⟨3⟩, 1⟩], [⟨⟨1⟩, 0⟩], [⟨⟨2⟩, 0⟩],
    [⟨⟨3⟩, 0⟩],
    [⟨⟨4⟩, 0⟩]]

/-- The sum stays by its second check, the difference by the second word on it. The product goes
and the minimum stays, both of the dialect that was declared legal, and nothing is known of the
reduction. If the overridden settings come first, all these verdicts are the same. -/
theorem legality_by_lastWord_overridden :
    LastWord (broadSettings ++ overriddenSettings) assortedGraph ⟨0⟩ .empty (.ok (.legal, .empty)) ∧
    LastWord (broadSettings ++ overriddenSettings) assortedGraph ⟨1⟩ .empty (.ok (.legal, .empty)) ∧
    LastWord (broadSettings ++ overriddenSettings) assortedGraph ⟨2⟩ .empty
      (.ok (.illegal, .empty)) ∧
    LastWord (broadSettings ++ overriddenSettings) assortedGraph ⟨3⟩ .empty (.ok (.legal, .empty)) ∧
    LastWord (broadSettings ++ overriddenSettings) assortedGraph ⟨4⟩ .empty
      (.ok (.unknown, .empty)) ∧
    (overriddenSettings ++ broadSettings).Perm (broadSettings ++ overriddenSettings) ∧
    ∀ op ∈ assortedGraph.opsIn ⟨0⟩, ∀ sizes,
      (ofSettings (overriddenSettings ++ broadSettings)).legality assortedGraph op sizes =
        (ofSettings (broadSettings ++ overriddenSettings)).legality assortedGraph op sizes := by
  obtain ⟨hverdict, -, hreorder⟩ := legality_by_lastWord (broadSettings ++ overriddenSettings)
  have hperm : (overriddenSettings ++ broadSettings).Perm (broadSettings ++ overriddenSettings) :=
    List.perm_append_comm
  refine ⟨(hverdict _ _ _ _).mp rfl, (hverdict _ _ _ _).mp rfl, (hverdict _ _ _ _).mp rfl,
    (hverdict _ _ _ _).mp rfl, (hverdict _ _ _ _).mp rfl, hperm, ?_⟩
  intro op hop
  -- Read backwards, both orders have the same check and the same word for each of these kinds.
  have hsame : ∀ kind ∈ [OpKind.addi, .subi, .muli, .minsi, .reduction],
      (∀ c, LastSays (checkFor? kind) (overriddenSettings ++ broadSettings) c ↔
        LastSays (checkFor? kind) (broadSettings ++ overriddenSettings) c) ∧
      ∀ ok, LastSays (wordOn? kind) (overriddenSettings ++ broadSettings) ok ↔
        LastSays (wordOn? kind) (broadSettings ++ overriddenSettings) ok := by
    simp only [List.forall_mem_cons, lastSays_iff]
    exact ⟨⟨fun _ => Iff.rfl, fun _ => Iff.rfl⟩, ⟨fun _ => Iff.rfl, fun _ => Iff.rfl⟩,
      ⟨fun _ => Iff.rfl, fun _ => Iff.rfl⟩, ⟨fun _ => Iff.rfl, fun _ => Iff.rfl⟩,
      ⟨fun _ => Iff.rfl, fun _ => Iff.rfl⟩, List.forall_mem_nil _⟩
  have hkind : assortedGraph.kind op ∈ [OpKind.addi, .subi, .muli, .minsi, .reduction] := by
    revert op
    decide
  exact hreorder _ _ _ hperm (hsame _ hkind).1 (hsame _ hkind).2

end ConversionTarget

end SimdLowering
