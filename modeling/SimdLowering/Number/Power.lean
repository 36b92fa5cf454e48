/-
Powers of two and of ten, as whole numbers.

Widths, masks and decimal grids all count in these two bases. Each base has its
own function, so that a power is a whole number wherever it is written and is
put among the integers only by a visible cast. That a power of two grows by one
factor at a time and is never zero is what dividing by it needs. The instance
of the power is written out, so that it is the same one whatever is imported.
-/

set_option autoImplicit false

namespace SimdLowering

/-! ## Powers of two -/

/-- Two to a power: the number of values that so many bits can take. -/
def twoPow (bits : Nat) : Nat := @HPow.hPow Nat Nat Nat (@instHPow Nat Nat instPowNat) 2 bits

theorem twoPow_zero : twoPow 0 = 1 := rfl

theorem twoPow_succ (bits : Nat) : twoPow (bits + 1) = twoPow bits * 2 := rfl

theorem twoPow_pos (bits : Nat) : 0 < twoPow bits := by
  induction bits with
  | zero => exact Nat.one_pos
  | succ bits ih => rw [twoPow_succ]; omega

/-! ## Powers of ten -/

/-- Ten to a power: the number of values that so many decimal digits can take. -/
def tenPow (digits : Nat) : Nat := @HPow.hPow Nat Nat Nat (@instHPow Nat Nat instPowNat) 10 digits

end SimdLowering
