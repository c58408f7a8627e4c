import Mathlib.Tactic

/-!
Machine words as natural numbers. Unsigned arithmetic wraps modulo the word
size, the bitwise complement is taken inside the word, and the two masking
idioms of aligned memory (`x & (2^k - 1)` and `x & ~(2^k - 1)`) are the
remainder and the multiple below.
-/

namespace Word

/-- Unsigned addition, subtraction and multiplication of `w`-bit words. -/
def add (w a b : Nat) : Nat := (a + b) % 2 ^ w

def sub (w a b : Nat) : Nat := (2 ^ w + a - b) % 2 ^ w

def mul (w a b : Nat) : Nat := a * b % 2 ^ w

/-- Bitwise complement of a 64-bit word. -/
def compl (a : Nat) : Nat := 2 ^ 64 - 1 - a

/-- `(n + (a - 1)) & ~(a - 1)` on 64-bit words. -/
def roundUp (n a : Nat) : Nat := add 64 n (a - 1) &&& compl (a - 1)

/-- `x != 0 && (x & (x - 1)) == 0`. -/
def isPow2 (x : Nat) : Bool := x != 0 && (x &&& (x - 1)) == 0

theorem add_eq {w a b : Nat} (h : a + b < 2 ^ w) : add w a b = a + b :=
  Nat.mod_eq_of_lt h

theorem sub_eq {w a b : Nat} (ha : a < 2 ^ w) (h : b ≤ a) :
    sub w a b = a - b := by
  unfold sub
  rw [show 2 ^ w + a - b = (a - b) + 2 ^ w by omega, Nat.add_mod_right]
  exact Nat.mod_eq_of_lt (by omega)

theorem add_lt (w a b : Nat) : add w a b < 2 ^ w :=
  Nat.mod_lt _ (Nat.two_pow_pos w)

/-- Subtracting a part of what was added. -/
theorem sub_add_part {w a b c : Nat} (hc : c ≤ 2 ^ w) : sub w (add w a (b + c)) c = add w a b := by
  have hcancel : 2 ^ w + (a + (b + c)) % 2 ^ w - c ≡ a + b [MOD 2 ^ w] := by
    apply Nat.ModEq.add_right_cancel' c
    rw [Nat.sub_add_cancel (by omega), Nat.add_assoc a b c]
    unfold Nat.ModEq
    rw [Nat.add_mod_left, Nat.mod_mod]
  exact hcancel

/-- Subtracting what was added. -/
theorem sub_add_cancel {w a c : Nat} (ha : a < 2 ^ w) (hc : c ≤ 2 ^ w) :
    sub w (add w a c) c = a := by
  have hpart := sub_add_part (a := a) (b := 0) hc
  rw [Nat.zero_add] at hpart
  rw [hpart]
  exact Nat.mod_eq_of_lt ha

/-- An addition that wraps ends below both operands. -/
theorem add_wrap {w a b : Nat} (ha : a < 2 ^ w) (hb : b < 2 ^ w) (h : 2 ^ w ≤ a + b) :
    add w a b = a + b - 2 ^ w := by
  unfold add
  rw [Nat.mod_eq_sub_mod h, Nat.mod_eq_of_lt (by omega)]

theorem mul_eq {w a b : Nat} (h : a * b < 2 ^ w) : mul w a b = a * b :=
  Nat.mod_eq_of_lt h

theorem isPow2_iff {x : Nat} : isPow2 x = true ↔ ∃ k, x = 2 ^ k := by
  have h := Nat.ne_zero_and_sub_one_eq_zero_iff_isPowerOfTwo (n := x)
  simp only [isPow2, Bool.and_eq_true, bne_iff_ne, ne_eq, beq_iff_eq]
  exact h

/-- Masking with the complement of `2^k - 1` rounds down to a multiple of
`2^k`. -/
theorem and_compl_mask {a k : Nat} (ha : a < 2 ^ 64) (hk : k ≤ 64) :
    a &&& compl (2 ^ k - 1) = a / 2 ^ k * 2 ^ k := by
  have hpow : 2 ^ k ≤ 2 ^ 64 := Nat.pow_le_pow_right (by decide) hk
  have hpos := Nat.two_pow_pos k
  have hcompl : compl (2 ^ k - 1) = (2 ^ (64 - k) - 1) * 2 ^ k := by
    have hsplit : 2 ^ 64 = 2 ^ (64 - k) * 2 ^ k := by
      rw [← Nat.pow_add]
      congr 1
      omega
    rw [Nat.sub_mul, ← hsplit]
    unfold compl
    omega
  apply Nat.eq_of_testBit_eq
  intro i
  rw [hcompl, Nat.testBit_and, Nat.testBit_mul_two_pow,
    Nat.testBit_mul_two_pow, Nat.testBit_div_two_pow, Nat.testBit_two_pow_sub_one]
  by_cases hi : k ≤ i
  · have hik : i - k + k = i := by omega
    rw [hik]
    by_cases hbit : a.testBit i = true
    · have hlt : i < 64 := by
        by_contra hge
        have := Nat.testBit_lt_two_pow
          (Nat.lt_of_lt_of_le ha (Nat.pow_le_pow_right (by decide) (Nat.le_of_not_lt hge)))
        simp [this] at hbit
      have hlt' : i - k < 64 - k := by omega
      simp [hi, hbit, hlt']
    · simp [hi, hbit]
  · simp [hi]

theorem roundUp_eq {n k : Nat} (hk : k ≤ 64) (h : n + (2 ^ k - 1) < 2 ^ 64) :
    roundUp n (2 ^ k) = (n + (2 ^ k - 1)) / 2 ^ k * 2 ^ k := by
  unfold roundUp
  rw [add_eq h, and_compl_mask h hk]

/-- Rounding up without a wrap: the result is the least multiple of `2^k` that
is not below `n`. -/
theorem roundUp_spec {n k : Nat} (hk : k ≤ 64) (h : n + (2 ^ k - 1) < 2 ^ 64) :
    2 ^ k ∣ roundUp n (2 ^ k) ∧ n ≤ roundUp n (2 ^ k) ∧
      roundUp n (2 ^ k) < n + 2 ^ k := by
  rw [roundUp_eq hk h]
  have hpos := Nat.two_pow_pos k
  have hdiv := Nat.div_add_mod (n + (2 ^ k - 1)) (2 ^ k)
  have hmod := Nat.mod_lt (n + (2 ^ k - 1)) hpos
  rw [Nat.mul_comm] at hdiv
  exact ⟨Nat.dvd_mul_left _ _, by omega, by omega⟩

/-- Rounding up past the end of the word wraps to zero. -/
theorem roundUp_wrap {n k : Nat} (hk : k ≤ 64) (hn : n < 2 ^ 64)
    (h : 2 ^ 64 ≤ n + (2 ^ k - 1)) : roundUp n (2 ^ k) = 0 := by
  have hpow : 2 ^ k ≤ 2 ^ 64 := Nat.pow_le_pow_right (by decide) hk
  have hadd : add 64 n (2 ^ k - 1) = n + (2 ^ k - 1) - 2 ^ 64 := by
    unfold add
    rw [Nat.mod_eq_sub_mod h, Nat.mod_eq_of_lt (by omega)]
  unfold roundUp
  rw [hadd, and_compl_mask (by omega) hk,
    Nat.div_eq_of_lt (by omega), Nat.zero_mul]

-- Reducing a remainder by a large literal counts the literal down; the
-- operations are opened with the lemmas above.
attribute [irreducible] add sub mul

end Word
