/-
Graphs that are written down.

A witness is a graph given by its tables, with a history that ends with it. What a theorem
asks of such a graph is a finite matter and is computed. The lemmas here say what is enough
to compute: one place to look at for what lies under a function, one comparison of sizes for
who waits for a value, one run of the verifier for the rest.

This is where the whole of Mathlib comes in. Longer runs are evaluated by `cbv`, which takes
library functions apart by their equations, and the equations that Mathlib has are used
rather than made again in each module that evaluates something.
-/
import SimdLowering.Proofs.Graph.History
import SimdLowering.Proofs.Graph.Validity
import Mathlib

set_option autoImplicit false

namespace SimdLowering

/-- What is seen to succeed has an answer. -/
theorem exists_of_isOk {ε α : Type} {x : Except ε α} (h : x.isOk = true) : ∃ a, x = .ok a := by
  cases x with
  | error e => cases h
  | ok a => exact ⟨a, rfl⟩

namespace Graph

variable {g : Graph} {gone : List OpId} {func root : OpId}

/-- Where no chain is beyond the end of the values, no one waits for a value to come. -/
theorem hasValue_of_uses (hsize : g.chains.size ≤ g.values.size) :
    ∀ v, g.uses v ≠ [] → g.HasValue v := by
  intro v hv
  by_contra hnot
  have hbeyond : g.chains.size ≤ v.index := Nat.le_trans hsize (Nat.le_of_not_lt hnot)
  rw [uses, Array.getElem?_eq_none hbeyond] at hv
  exact hv rfl

/-- What lies in no block lies under nothing. -/
theorem not_inside_of_replay {edits : List Edit} (history : Edit.replay edits = .ok (g, gone))
    (hblock : g.blockOf? func = none) : ¬ g.Inside root func :=
  not_inside_of_blockOf? (consistent_of_replay history).toNestingAgrees hblock

/-- A function that lies in no block is validated by a scan. -/
theorem Validates.of_replay {edits : List Edit} (history : Edit.replay edits = .ok (g, gone))
    (hblock : g.blockOf? func = none) (hscan : g.validationErrors func = .ok []) :
    g.Validates func :=
  ⟨not_inside_of_replay history hblock, hscan⟩

end Graph

end SimdLowering
