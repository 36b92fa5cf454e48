/-
What is left of lanes that were folded in any order.

A reduction folds the lanes of a vector one after the other, and its tree folds them in
pairs, and the pairs in pairs. Which lanes were folded is a multiset, and what it is folded
to is described by a relation that does not know the order: a sum by its residue, an extremum
by being the least or the greatest of all. `Folding` says of such a relation that it goes
along with both ways to fold, and that it determines the result.
-/
import SimdLowering.Proofs.Eval.Lanes
import Mathlib.Algebra.BigOperators.Group.Finset.Basic
import Mathlib.Algebra.Order.Group.Multiset

set_option autoImplicit false

namespace SimdLowering

open Finset

variable {bits : Nat} {sign : Signedness} {kind : ElemKind} {a b c : Lane} {s t : Multiset Lane}
  {f comb : Lane → Lane → Lane} {T : Lane → Multiset Lane → Prop}

/-- The relation `T` between a lane and the lanes it was folded from goes along with `f` and
bringing into range, with `comb`, and determines the lane in range. -/
structure Folding (kind : ElemKind) (f comb : Lane → Lane → Lane)
    (T : Lane → Multiset Lane → Prop) : Prop where
  single : ∀ {a}, a.normalize kind = a → T a {a}
  join : ∀ {a b s t}, T a s → T b t → T ((f a b).normalize kind) (s + t)
  snoc : ∀ {a c s}, T a s → c.normalize kind = c → T (comb a c) (s + {c})
  unique : ∀ {a b s}, T a s → T b s → a.normalize kind = b.normalize kind

/-- Folding one lane after the other folds all of them. -/
theorem Folding.foldl (h : Folding kind f comb T) {l : List Lane}
    (hl : ∀ c ∈ l, c.normalize kind = c) (ha : T a s) : T (l.foldl comb a) (s + l) := by
  induction l generalizing a s with
  | nil => simpa using ha
  | cons c l ih =>
    have hc := hl c (List.mem_cons_self ..)
    have hrest := ih (fun d hd => hl d (List.mem_cons_of_mem _ hd)) (h.snoc ha hc)
    rw [List.foldl_cons, ← Multiset.cons_coe, ← Multiset.singleton_add, ← add_assoc]
    exact hrest

/-! ## Sums -/

/-- The lane has the residue of the sum. -/
def SumsTo (bits : Nat) (a : Lane) (s : Multiset Lane) : Prop :=
  ∃ n, a = .int n ∧ n % twoPow bits = (s.map Lane.asInt).sum % twoPow bits

theorem folding_sum (hb : bits < 128) :
    Folding (.int bits sign) Lane.add (Lane.combine .add (.int bits sign)) (SumsTo bits) where
  single ha := ⟨_, (Lane.eq_int_of_normalize ha).1, by simp⟩
  join := by
    rintro _ _ s t ⟨m, rfl, hm⟩ ⟨n, rfl, hn⟩
    refine ⟨_, rfl, ?_⟩
    change wrapInt (wrap128 (m + n)) bits sign % _ = _
    rw [wrapInt_emod, wrap128_emod (Nat.le_of_lt hb), Multiset.map_add,
      Multiset.sum_add, Int.add_emod, hm, hn, ← Int.add_emod]
  snoc := by
    rintro _ c s ⟨m, rfl, hm⟩ hc
    rw [(Lane.eq_int_of_normalize hc).1]
    refine ⟨_, rfl, ?_⟩
    rw [wrap128_emod (Nat.le_of_lt hb), Multiset.map_add, Multiset.sum_add, Multiset.map_singleton,
      Multiset.sum_singleton, Int.add_emod, hm, ← Int.add_emod]
    rfl
  unique := by
    rintro _ _ s ⟨m, rfl, hm⟩ ⟨n, rfl, hn⟩
    exact Lane.Congruent.normalize hb ⟨m, n, rfl, rfl, hm.trans hn.symm⟩

/-! ## Extrema -/

/-- Lanes in the range of an integer type are ordered as the integers they hold. -/
theorem lessThan_of_fits (ha : a.normalize (.int bits sign) = a)
    (hb : b.normalize (.int bits sign) = b) :
    a.lessThan b (.int bits sign) = decide (a.asInt < b.asInt) := by
  cases sign with
  | unsigned =>
    have hwa := (Lane.eq_int_of_normalize ha).2
    have hwb := (Lane.eq_int_of_normalize hb).2
    simp only [Lane.lessThan, Lane.unsignedView, hwa, hwb]
  | signless => rfl
  | signed => rfl

/-- The lane is one of those it was folded from, all of which are in range, and comes before
the others in the given order. -/
structure ExtremeOf (kind : ElemKind) (le : Int → Int → Prop) (a : Lane) (s : Multiset Lane) :
    Prop where
  mem : a ∈ s
  fits : ∀ b ∈ s, b.normalize kind = b
  bound : ∀ b ∈ s, le a.asInt b.asInt

theorem ExtremeOf.single {le : Int → Int → Prop} (hrefl : ∀ n, le n n)
    (ha : a.normalize kind = a) : ExtremeOf kind le a {a} := by
  refine ⟨Multiset.mem_singleton_self a, fun b hb => ?_, fun b hb => ?_⟩
  · rw [Multiset.mem_singleton.mp hb, ha]
  · rw [Multiset.mem_singleton.mp hb]
    exact hrefl _

/-- Of two extreme lanes, one that comes before the other is extreme among all. -/
theorem ExtremeOf.join {le : Int → Int → Prop} (htrans : ∀ {l m n}, le l m → le m n → le l n)
    (ha : ExtremeOf kind le a s) (hb : ExtremeOf kind le b t) (hab : le a.asInt b.asInt) :
    ExtremeOf kind le a (s + t) := by
  refine ⟨Multiset.mem_add.mpr (Or.inl ha.mem), fun c hc => ?_, fun c hc => ?_⟩
  · rcases Multiset.mem_add.mp hc with hc | hc
    · exact ha.fits c hc
    · exact hb.fits c hc
  · rcases Multiset.mem_add.mp hc with hc | hc
    · exact ha.bound c hc
    · exact htrans hab (hb.bound c hc)

theorem ExtremeOf.unique {le : Int → Int → Prop} (hanti : ∀ {m n}, le m n → le n m → m = n)
    (ha : ExtremeOf (.int bits sign) le a s) (hb : ExtremeOf (.int bits sign) le b s) : a = b := by
  have hint := hanti (ha.bound b hb.mem) (hb.bound a ha.mem)
  rw [(Lane.eq_int_of_normalize (ha.fits a ha.mem)).1,
    (Lane.eq_int_of_normalize (hb.fits b hb.mem)).1, hint]

theorem folding_minimum : Folding (.int bits sign) (Lane.minimum (.int bits sign))
    (Lane.combine .minsi (.int bits sign)) (ExtremeOf (.int bits sign) (· ≤ ·)) where
  single := ExtremeOf.single Int.le_refl
  join := by
    intro a b s t ha hb
    have hfa := ha.fits a ha.mem
    have hfb := hb.fits b hb.mem
    -- The tree asks whether the left lane is less, the fold below whether the new one is.
    rw [Lane.minimum, lessThan_of_fits hfa hfb]
    split
    · next hlt =>
      rw [hfa]
      exact ha.join Int.le_trans hb (Int.le_of_lt (of_decide_eq_true hlt))
    · next hge =>
      rw [hfb, add_comm]
      exact hb.join Int.le_trans ha (by simpa using hge)
  snoc := by
    intro a c s ha hc
    have hfa := ha.fits a ha.mem
    rw [Lane.combine, lessThan_of_fits hc hfa]
    split
    · next hlt =>
      rw [add_comm]
      exact (ExtremeOf.single Int.le_refl hc).join Int.le_trans ha
        (Int.le_of_lt (of_decide_eq_true hlt))
    · next hge => exact ha.join Int.le_trans (.single Int.le_refl hc) (by simpa using hge)
  unique ha hb := congrArg _ (ha.unique Int.le_antisymm hb)

theorem folding_maximum : Folding (.int bits sign) (Lane.maximum (.int bits sign))
    (Lane.combine .maxsi (.int bits sign)) (ExtremeOf (.int bits sign) (· ≥ ·)) where
  single := ExtremeOf.single Int.le_refl
  join := by
    intro a b s t ha hb
    have hfa := ha.fits a ha.mem
    have hfb := hb.fits b hb.mem
    rw [Lane.maximum, lessThan_of_fits hfa hfb]
    split
    · next hlt =>
      rw [hfb, add_comm]
      exact hb.join ge_trans ha (Int.le_of_lt (of_decide_eq_true hlt))
    · next hge =>
      rw [hfa]
      exact ha.join ge_trans hb (by simpa using hge)
  snoc := by
    intro a c s ha hc
    have hfa := ha.fits a ha.mem
    rw [Lane.combine, lessThan_of_fits hfa hc]
    split
    · next hlt =>
      rw [add_comm]
      have hsingle : ExtremeOf (.int bits sign) (· ≥ ·) c {c} := .single Int.le_refl hc
      exact hsingle.join ge_trans ha (Int.le_of_lt (of_decide_eq_true hlt))
    · next hge => exact ha.join ge_trans (.single Int.le_refl hc) (by simpa using hge)
  unique ha hb := congrArg _ (ha.unique (fun h h' => Int.le_antisymm h' h) hb)

/-! ## Whose sign an extremum goes by -/

/-- The combining function that goes by the sign of the lanes, where the given one goes by its
name. -/
def CombiningKind.byType : CombiningKind → CombiningKind
  | minui => minsi
  | maxui => maxsi
  | kind => kind

/-- It makes a difference for the two unsigned extrema only, and none of lanes without a sign. -/
theorem Lane.combine_byType {combining : CombiningKind}
    (h : combining.byType = combining ∨ sign = .unsigned) :
    Lane.combine combining.byType (.int bits sign) = Lane.combine combining (.int bits sign) := by
  rcases h with h | rfl
  · rw [h]
  · funext a c
    cases combining <;>
      simp only [CombiningKind.byType, Lane.combine, Lane.lessThan, decide_eq_true_eq]

/-- Of the lanes five and minus one, the unsigned minimum is the first. -/
example : Lane.combine .minui (.int 32 .signless) (.int 5) (.int (-1)) = .int 5 ∧
    Lane.combine CombiningKind.minui.byType (.int 32 .signless) (.int 5) (.int (-1)) = .int (-1) :=
  ⟨rfl, rfl⟩

end SimdLowering
