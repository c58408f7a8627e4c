import Mathlib.Order.WellFounded

/-!
Ranks along an infinite run. A rank is kept by every step of the run and lowered
by the steps that count, so only finitely many steps count. The rank of a state
is a relation: a state may have several, and each step says which one of the
next state is meant.
-/

namespace Ranking

variable {σ ρ : Type*} [Preorder ρ]

/-- The ranks of a run: no step raises the rank, and one that counts lowers it. -/
structure Lowers (run : Nat → σ) (counts : Nat → Prop) (R : σ → ρ → Prop) : Prop where
  step : ∀ n r, R (run n) r → ∃ r', R (run (n + 1)) r' ∧ r' ≤ r ∧ (counts n → r' < r)

variable {run : Nat → σ} {counts : Nat → Prop} {R : σ → ρ → Prop}

/-- The rank is never raised. -/
theorem Lowers.le (h : Lowers run counts R) {n : Nat} {r : ρ} (hn : R (run n) r) (k : Nat) :
    ∃ r', R (run (n + k)) r' ∧ r' ≤ r := by
  induction k with
  | zero => exact ⟨r, hn, le_rfl⟩
  | succ k ih =>
      obtain ⟨r₁, hr₁, hle₁⟩ := ih
      obtain ⟨r₂, hr₂, hle₂, _⟩ := h.step _ _ hr₁
      exact ⟨r₂, hr₂, hle₂.trans hle₁⟩

/-- From some step on none counts. -/
theorem Lowers.finite [WellFoundedLT ρ] (h : Lowers run counts R) {n : Nat} {r : ρ}
    (hn : R (run n) r) :
    ∃ m, ∀ k, m ≤ k → ¬ counts k := by
  induction r using WellFoundedLT.induction generalizing n with
  | ind r ih =>
      by_contra hmany
      push Not at hmany
      obtain ⟨k, hk, hcounts⟩ := hmany n
      obtain ⟨r₁, hr₁, hle⟩ := h.le hn (k - n)
      rw [Nat.add_sub_cancel' hk] at hr₁
      obtain ⟨r₂, hr₂, _, hlt⟩ := h.step _ _ hr₁
      obtain ⟨m, hm⟩ := ih r₂ ((hlt hcounts).trans_le hle) hr₂
      obtain ⟨k', hk', hcounts'⟩ := hmany m
      exact hm k' hk' hcounts'

end Ranking
