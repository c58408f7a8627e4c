import Mathlib.Logic.Function.Basic

/-!
Partial maps as functions to `Option`: which entries there are after one has
been written or removed.
-/

namespace PartialMap

variable {κ α : Type*} [DecidableEq κ] {m : κ → Option α} {k x : κ} {v w : α}

/-- The entries after a write are the new one and those at the other keys. -/
theorem insert_eq_some :
    Function.update m k (some v) x = some w ↔ (x = k ∧ w = v) ∨ (x ≠ k ∧ m x = some w) := by
  by_cases hx : x = k
  · rw [hx, Function.update_self, Option.some.injEq]
    simp [eq_comm]
  · rw [Function.update_of_ne hx]
    simp [hx]

/-- The entries after a removal are those at the other keys. -/
theorem erase_eq_some : Function.update m k none x = some w ↔ x ≠ k ∧ m x = some w := by
  by_cases hx : x = k
  · rw [hx, Function.update_self]
    simp
  · rw [Function.update_of_ne hx]
    simp [hx]

end PartialMap
