/-
The order in which rules are tried.

A set keeps, for each kind of operation, the positions of the rules that name the kind, and
every addition puts one more position at the end and sorts again. Sorting is stable: among
positions of one priority those that stood first still do. So if the positions were in order by
priority and then by position, they are so after the addition, since the new position is above
all others. That is the invariant of this file, and it determines the order: the rules that name
the kind, each once if it names the kind once, by priority, and by addition where priorities are
equal.

Nothing bounds priorities or the number of rules here. Where they are written as 32-bit words
nothing is lost as long as there are no more than `2 ^ 32` rules, which the main theorem says too.
-/
import SimdLowering.Rewrite.Action
import Mathlib.Data.List.Induction
import Mathlib.Data.List.Permutation

set_option autoImplicit false

namespace SimdLowering

/-! ## Stable sorting -/

section Stable

variable {α : Type} (key : α → Nat) {l : List α} {R : α → α → Prop}

/-- Sorting by keys leaves alone how the members of one key stand to each other. -/
theorem filter_mergeSort_key (k : Nat) :
    (l.mergeSort fun a b => decide (key a ≤ key b)).filter (fun a => key a == k) =
      l.filter fun a => key a == k := by
  symm
  apply List.Sublist.eq_of_length
  · -- The members of one key are sorted as they stand, and so they come out in this order.
    have hsorted : (l.filter fun a => key a == k).Pairwise fun a b =>
        decide (key a ≤ key b) = true := by
      apply List.pairwise_of_forall_mem_list
      intro a ha b hb
      simp only [List.mem_filter, beq_iff_eq] at ha hb
      simp [ha.2, hb.2]
    have hsub := List.sublist_mergeSort (by simp; omega) (by simp; omega) hsorted
      (List.filter_sublist (p := fun a => key a == k) (l := l))
    have := hsub.filter fun a => key a == k
    rwa [List.filter_filter, List.filter_congr (q := fun a => key a == k) (by simp)] at this
  · exact ((List.mergeSort_perm l _).filter _).length_eq.symm

/-- If members of one key stand in some order, then after sorting by keys all members stand in
the order of the keys and then in that order. -/
theorem pairwise_mergeSort_key (h : l.Pairwise fun a b => key a = key b → R a b) :
    (l.mergeSort fun a b => decide (key a ≤ key b)).Pairwise fun a b =>
      key a < key b ∨ key a = key b ∧ R a b := by
  have hsorted : (l.mergeSort fun a b => decide (key a ≤ key b)).Pairwise fun a b =>
      decide (key a ≤ key b) = true :=
    List.pairwise_mergeSort (by simp; omega) (by simp; omega) l
  rw [List.pairwise_iff_forall_sublist] at hsorted h ⊢
  intro a b hab
  have hle : key a ≤ key b := by simpa using hsorted hab
  by_cases heq : key a = key b
  · right
    have hfilter := hab.filter fun c => key c == key b
    rw [filter_mergeSort_key] at hfilter
    simp only [List.filter_cons, heq, beq_self_eq_true, if_true, List.filter_nil] at hfilter
    exact ⟨heq, h (hfilter.trans List.filter_sublist) heq⟩
  · left
    omega

end Stable

namespace RuleSet

variable {entries : List RuleEntry} {e : RuleEntry} {s : RuleSet} {rule : Rule} {kind : OpKind}
  {before : List Nat} {priority i j : Nat}

/-! ## One addition -/

/-- The priority of the rule at a position. -/
def priorityAt (entries : List RuleEntry) (i : Nat) : Nat :=
  (entries[i]?.map RuleEntry.priority).getD 0

/-- The rule at the first position is tried before the one at the second: it has the smaller
priority, or the same one and was added before. -/
def TriedBefore (entries : List RuleEntry) (i j : Nat) : Prop :=
  priorityAt entries i < priorityAt entries j ∨
    priorityAt entries i = priorityAt entries j ∧ i < j

/-- While a rule is being added, positions have the priorities that they have afterwards. -/
theorem keyAt_eq (h : i ≤ entries.length) :
    keyAt entries e.priority i = priorityAt (entries ++ [e]) i := by
  unfold keyAt priorityAt
  split
  · next hi =>
    subst hi
    simp
  · next hi => rw [List.getElem?_append_left (by omega)]

theorem priorityAt_append (h : i < entries.length) :
    priorityAt (entries ++ [e]) i = priorityAt entries i := by
  unfold priorityAt
  rw [List.getElem?_append_left h]

theorem triedBefore_append (hi : i < entries.length) (hj : j < entries.length) :
    TriedBefore (entries ++ [e]) i j ↔ TriedBefore entries i j := by
  unfold TriedBefore
  rw [priorityAt_append hi, priorityAt_append hj]

theorem mem_place : i ∈ place entries priority before ↔ i ∈ before ∨ i = entries.length := by
  simp [place]

/-- Putting a position in place keeps the positions in the order of trial. -/
theorem pairwise_place (hlt : ∀ i ∈ before, i < entries.length)
    (h : before.Pairwise (TriedBefore entries)) :
    (place entries e.priority before).Pairwise (TriedBefore (entries ++ [e])) := by
  -- Sorting is stable, so equal priorities keep the order in which the rules were added.
  have hstands : (before ++ [entries.length]).Pairwise fun i j =>
      keyAt entries e.priority i = keyAt entries e.priority j → i < j := by
    apply List.pairwise_append.mpr
    refine ⟨?_, by simp, ?_⟩
    · refine h.imp_of_mem ?_
      intro i j hi hj hij hkey
      rw [keyAt_eq (Nat.le_of_lt (hlt i hi)), keyAt_eq (Nat.le_of_lt (hlt j hj)),
        priorityAt_append (hlt i hi), priorityAt_append (hlt j hj)] at hkey
      unfold TriedBefore at hij
      omega
    · intro i hi j hj _
      rw [List.mem_singleton.mp hj]
      exact hlt i hi
  refine (pairwise_mergeSort_key (keyAt entries e.priority) hstands).imp_of_mem ?_
  intro i j hi hj hij
  have hle : ∀ k ∈ place entries e.priority before, k ≤ entries.length := by
    intro k hk
    rcases mem_place.mp hk with hk | rfl
    · exact Nat.le_of_lt (hlt k hk)
    · exact Nat.le_refl _
  rw [keyAt_eq (hle i hi), keyAt_eq (hle j hj)] at hij
  exact hij

theorem mem_orderWith : i ∈ orderWith kind entries before e ↔
    i ∈ before ∨ i = entries.length ∧ kind ∈ e.rule.roots := by
  unfold orderWith
  induction e.rule.roots generalizing before with
  | nil => simp
  | cons k ks ih =>
    rw [List.foldl_cons, ih, List.mem_cons]
    by_cases hk : k = kind
    · rw [if_pos hk, mem_place]
      simp only [hk, true_or, and_true]
      tauto
    · rw [if_neg hk]
      have hk' : kind ≠ k := fun h => hk h.symm
      simp only [hk', false_or]

/-- Roots of other kinds leave the positions alone. -/
theorem foldl_place_of_not_mem {roots : List OpKind} (h : kind ∉ roots) :
    roots.foldl (fun order k => if k = kind then place entries priority order else order) before =
      before := by
  induction roots with
  | nil => rfl
  | cons k ks ih =>
    simp only [List.mem_cons, not_or] at h
    rw [List.foldl_cons, if_neg (fun hk => h.1 hk.symm), ih h.2]

/-- A rule that names the kind once is put in place once, and any other rule not at all. -/
theorem orderWith_eq (once : e.rule.roots.Nodup) : orderWith kind entries before e =
    if kind ∈ e.rule.roots then place entries e.priority before else before := by
  unfold orderWith
  by_cases h : kind ∈ e.rule.roots
  · rw [if_pos h]
    obtain ⟨left, right, hroots⟩ := List.append_of_mem h
    rw [hroots, List.nodup_append, List.nodup_cons] at once
    have hleft : kind ∉ left := by
      intro hb
      exact once.2.2 kind hb kind (by simp) rfl
    rw [hroots, List.foldl_append, List.foldl_cons, if_pos rfl, foldl_place_of_not_mem hleft,
      foldl_place_of_not_mem once.2.1.1]
  · rw [if_neg h, foldl_place_of_not_mem h]

/-! ## All additions -/

/-- The last addition comes on top of the order before it. -/
theorem order_append : order ⟨entries ++ [e]⟩ kind =
    orderWith kind entries (order ⟨entries⟩ kind) e := by
  have hseen : ∀ (l seen : List RuleEntry) (o : List Nat),
      (l.foldl (fun t e => (t.1 ++ [e], orderWith kind t.1 t.2 e)) (seen, o)).1 = seen ++ l := by
    intro l
    induction l with
    | nil => simp
    | cons e l ih =>
      intro seen o
      rw [List.foldl_cons, ih]
      simp
  unfold order
  rw [List.foldl_append, List.foldl_cons, List.foldl_nil, hseen, List.nil_append]

/-- The positions for a kind are those of the rules that name it. -/
theorem mem_order : i ∈ s.order kind ↔ ∃ e, s.entries[i]? = some e ∧ kind ∈ e.rule.roots := by
  obtain ⟨entries⟩ := s
  induction entries using List.reverseRecOn with
  | nil => simp [order]
  | append_singleton entries e ih =>
    rw [order_append, mem_orderWith, ih]
    dsimp only
    by_cases hi : i < entries.length
    · rw [List.getElem?_append_left hi]
      simp [Nat.ne_of_lt hi]
    · rw [List.getElem?_eq_none (by omega), List.getElem?_append_right (by omega)]
      by_cases heq : i = entries.length
      · simp [heq]
      · rw [List.getElem?_eq_none (by simp; omega)]
        simp [heq]

/-- The positions for a kind stand in the order of trial, each once. -/
theorem pairwise_order (once : ∀ e ∈ s.entries, e.rule.roots.Nodup) :
    (s.order kind).Pairwise (TriedBefore s.entries) := by
  obtain ⟨entries⟩ := s
  -- The invariant of the additions: what there is stays in order when a position is put in place.
  induction entries using List.reverseRecOn with
  | nil => exact .nil
  | append_singleton entries e ih =>
    rw [order_append, orderWith_eq (once e (by simp))]
    have hlt : ∀ i ∈ order ⟨entries⟩ kind, i < entries.length := by
      intro i hi
      obtain ⟨e', he', -⟩ := mem_order.mp hi
      exact (List.getElem?_eq_some_iff.mp he').1
    have hbefore := ih fun e' he' => once e' (by simp [he'])
    split
    · exact pairwise_place hlt hbefore
    · refine hbefore.imp_of_mem ?_
      intro i j hi hj hij
      exact (triedBefore_append (hlt i hi) (hlt j hj)).mpr hij

/-- The rules for a kind are the rules at its positions. -/
theorem map_forKind : (s.forKind kind).map some = (s.order kind).map fun i => s.entries[i]? := by
  have hfound : ∀ l : List Nat, (∀ i ∈ l, ∃ e, s.entries[i]? = some e) →
      (l.filterMap fun i => s.entries[i]?).map some = l.map fun i => s.entries[i]? := by
    intro l hl
    induction l with
    | nil => rfl
    | cons i l ih =>
      obtain ⟨e, he⟩ := hl i (by simp)
      rw [List.filterMap_cons_some he, List.map_cons, List.map_cons, he,
        ih fun j hj => hl j (by simp [hj])]
  apply hfound
  intro i hi
  obtain ⟨e, he, -⟩ := mem_order.mp hi
  exact ⟨e, he⟩

/-- The rules tried on a kind are those of the set that name it. -/
theorem mem_forKind : e ∈ s.forKind kind ↔ e ∈ s.entries ∧ kind ∈ e.rule.roots := by
  unfold forKind
  rw [List.mem_filterMap]
  constructor
  · rintro ⟨i, hi, he⟩
    obtain ⟨e', he', hkind⟩ := mem_order.mp hi
    obtain rfl : e' = e := Option.some.inj (he'.symm.trans he)
    exact ⟨List.mem_of_getElem? he, hkind⟩
  · rintro ⟨he, hkind⟩
    obtain ⟨i, hi⟩ := List.mem_iff_getElem?.mp he
    exact ⟨i, mem_order.mpr ⟨e, hi, hkind⟩, hi⟩

/-- The addition of a rule, with a priority of its own or without. -/
structure Addition where
  rule : Rule
  priority : Option Nat

/-- The set after one more addition. -/
def extend (s : RuleSet) (a : Addition) : RuleSet :=
  match a.priority with
  | some priority => s.addAt a.rule priority
  | none => s.add a.rule

/-- The set after the additions, made in order. -/
def ofAdditions (l : List Addition) : RuleSet := l.foldl extend empty

/-- Every addition is in the set at its place. Without a priority of its own it has the number
of its place. -/
theorem entries_ofAdditions (l : List Addition) :
    (ofAdditions l).entries = l.mapIdx fun i a => ⟨a.rule, a.priority.getD i⟩ := by
  induction l using List.reverseRecOn with
  | nil => rfl
  | append_singleton l a ih =>
    have hlen : (ofAdditions l).entries.length = l.length := by simp [ih]
    have hlast : (ofAdditions (l ++ [a])).entries =
        (ofAdditions l).entries ++ [⟨a.rule, a.priority.getD l.length⟩] := by
      rw [ofAdditions, List.foldl_append, List.foldl_cons, List.foldl_nil]
      change (extend (ofAdditions l) a).entries = _
      unfold extend
      cases a.priority with
      | some priority => rfl
      | none => rw [← hlen]; rfl
    rw [hlast, ih, List.mapIdx_concat]

/-- Take any sequence of additions of rules that name no kind twice, with or without priorities of
their own. The rules tried on a kind are those added that name it, each once, in ascending
priority and, where priorities are equal, in the order of addition; a rule added without a
priority has the number of its place for one. Names and priorities are listed in this order
too. No priority reaches a number that bounds the priorities that were given and the number of
rules. -/
theorem forKind_stable {l : List Addition} (once : ∀ a ∈ l, a.rule.roots.Nodup)
    (kind : OpKind) :
    (ofAdditions l).entries = l.mapIdx (fun i a => ⟨a.rule, a.priority.getD i⟩) ∧
    (∀ i, i ∈ (ofAdditions l).order kind ↔ ∃ a, l[i]? = some a ∧ kind ∈ a.rule.roots) ∧
    ((ofAdditions l).order kind).Pairwise (TriedBefore (ofAdditions l).entries) ∧
    ((ofAdditions l).forKind kind).map some =
      ((ofAdditions l).order kind).map (fun i => (ofAdditions l).entries[i]?) ∧
    (ofAdditions l).priorities kind =
      ((ofAdditions l).forKind kind).map (fun e => (e.rule.name, e.priority)) ∧
    ∀ bound, l.length ≤ bound → (∀ a ∈ l, ∀ p, a.priority = some p → p < bound) →
      ∀ e ∈ (ofAdditions l).entries, e.priority < bound := by
  have hentries := entries_ofAdditions l
  refine ⟨hentries, fun i => ?_, ?_, map_forKind, rfl, fun bound hlen hgiven e he => ?_⟩
  · rw [mem_order, hentries]
    simp
  · apply pairwise_order
    intro e he
    rw [hentries, List.mem_mapIdx] at he
    obtain ⟨i, hi, rfl⟩ := he
    exact once _ (List.getElem_mem hi)
  -- Without a priority of its own a rule gets its number.
  · rw [hentries, List.mem_mapIdx] at he
    obtain ⟨i, hi, rfl⟩ := he
    cases hp : l[i].priority with
    | some p => exact hgiven _ (List.getElem_mem hi) p hp
    | none => exact Nat.lt_of_lt_of_le hi hlen

/-- Rules that decline, of which two name two kinds. The third is added with the priority that
the first has by its place, the fifth with one below that of the fourth. -/
def mixedAdditions : List Addition :=
  [⟨Action.decline.toRule "sums" [.addi, .subi] none, none⟩,
    ⟨Action.decline.toRule "products" [.muli] none, none⟩,
    ⟨Action.decline.toRule "tied" [.muli, .addi] none, some 0⟩,
    ⟨Action.decline.toRule "late" [.addi] none, none⟩,
    ⟨Action.decline.toRule "early" [.addi] none, some 2⟩]

/-- Two of the rules for sums are tied and stand in the order of addition. The early one comes
before the late one, though it was added after it. -/
theorem forKind_stable_mixed :
    (∀ a ∈ mixedAdditions, a.rule.roots.Nodup) ∧
    (ofAdditions mixedAdditions).order .addi = [0, 2, 4, 3] ∧
    (ofAdditions mixedAdditions).priorities .addi =
      [("sums", 0), ("tied", 0), ("early", 2), ("late", 3)] ∧
    (ofAdditions mixedAdditions).priorities .muli = [("tied", 0), ("products", 1)] ∧
    ((ofAdditions mixedAdditions).order .addi).Pairwise
      (TriedBefore (ofAdditions mixedAdditions).entries) := by
  have once : ∀ a ∈ mixedAdditions, a.rule.roots.Nodup := by decide
  exact ⟨once, by cbv, by cbv, by cbv, (forKind_stable once .addi).2.2.1⟩

end RuleSet

end SimdLowering
