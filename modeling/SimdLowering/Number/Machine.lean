/-
Whole numbers that fit into machine words.

Lanes and bits are counted in words of 32 bits without a sign, offsets and indices in words of
64 bits with one. The arithmetic on them is checked: a result that fits is the exact one, and one
that does not is an overflow, which ends whatever was going on. So everything is computed in whole
numbers, and a result that could miss its word is asked whether it fits.
-/
import SimdLowering.Fault
import SimdLowering.Number.Power

set_option autoImplicit false

namespace SimdLowering

/-- The number, if it fits into 32 bits without a sign. -/
def fitU32 (n : Nat) : Except Fault Nat := if n < twoPow 32 then .ok n else .error .overflow

/-- The number, if it fits into 64 bits with a sign. -/
def fitI64 (v : Int) : Except Fault Int :=
  if -(twoPow 63 : Int) ≤ v ∧ v < twoPow 63 then .ok v else .error .overflow

/-- What fits is the number itself. -/
theorem fitU32_eq_ok {n m : Nat} : fitU32 n = .ok m ↔ n < twoPow 32 ∧ m = n := by
  unfold fitU32
  split
  · next h => simp [h, eq_comm]
  · next h => simp [h]

theorem fitI64_eq_ok {v w : Int} :
    fitI64 v = .ok w ↔ (-(twoPow 63 : Int) ≤ v ∧ v < twoPow 63) ∧ w = v := by
  unfold fitI64
  split
  · next h => simp [h, eq_comm]
  · next h => simp [h]

/-- What does not fit is an overflow and no other fault. -/
theorem fitU32_eq_error {n : Nat} {e : Fault} :
    fitU32 n = .error e ↔ twoPow 32 ≤ n ∧ e = .overflow := by
  unfold fitU32
  split
  · next h => simp [Nat.not_le.mpr h]
  · next h => simp [Nat.not_lt.mp h, eq_comm]

theorem fitI64_eq_error {v : Int} {e : Fault} :
    fitI64 v = .error e ↔ ¬(-(twoPow 63 : Int) ≤ v ∧ v < twoPow 63) ∧ e = .overflow := by
  unfold fitI64
  split
  · next h => simp [h]
  · next h => simp [h, eq_comm]

end SimdLowering
