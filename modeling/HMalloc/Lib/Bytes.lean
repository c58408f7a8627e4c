import Mathlib.Tactic

/-!
Byte-addressed memory. A memory is a total function from addresses to bytes;
which addresses are mapped is the business of the layer that hands them out.
Words are eight bytes, least significant byte first, so that a pointer stored
inside a data block is really stored in the bytes of that block.
-/

namespace Bytes

abbrev Mem := Nat → UInt8

/-- The little-endian value of the `n` bytes from address `a` on. -/
def readLE (m : Mem) (a : Nat) : Nat → Nat
  | 0 => 0
  | n + 1 => (m a).toNat + 256 * readLE m (a + 1) n

/-- Load of an eight-byte word. -/
def readWord (m : Mem) (a : Nat) : Nat := readLE m a 8

/-- Store of an eight-byte word. -/
def writeWord (m : Mem) (a v : Nat) : Mem := fun x =>
  if a ≤ x ∧ x < a + 8 then UInt8.ofNat (v / 256 ^ (x - a)) else m x

/-- `memset`. -/
def fill (m : Mem) (a n : Nat) (b : UInt8) : Mem := fun x =>
  if a ≤ x ∧ x < a + n then b else m x

/-- `memcpy`. -/
def copy (m : Mem) (dst src n : Nat) : Mem := fun x =>
  if dst ≤ x ∧ x < dst + n then m (src + (x - dst)) else m x

theorem writeWord_outside (m : Mem) (a v x : Nat) (h : x < a ∨ a + 8 ≤ x) :
    writeWord m a v x = m x := by
  unfold writeWord
  rw [if_neg (by omega)]

/-- The byte at the address of a store is the low byte of the word. -/
theorem writeWord_low (m : Mem) (a v : Nat) : writeWord m a v a = UInt8.ofNat v := by
  unfold writeWord
  rw [if_pos (by omega), Nat.sub_self, Nat.pow_zero, Nat.div_one]

theorem fill_outside (m : Mem) (a n : Nat) (b : UInt8) (x : Nat)
    (h : x < a ∨ a + n ≤ x) : fill m a n b x = m x := by
  unfold fill
  rw [if_neg (by omega)]

theorem copy_outside (m : Mem) (dst src n x : Nat)
    (h : x < dst ∨ dst + n ≤ x) : copy m dst src n x = m x := by
  unfold copy
  rw [if_neg (by omega)]

theorem fill_inside (m : Mem) (b n i : Nat) (v : UInt8) (h : i < n) :
    fill m b n v (b + i) = v := by
  unfold fill
  rw [if_pos ⟨by omega, by omega⟩]

theorem copy_inside (m : Mem) (dst src n i : Nat) (h : i < n) :
    copy m dst src n (dst + i) = m (src + i) := by
  unfold copy
  rw [if_pos ⟨by omega, by omega⟩, Nat.add_sub_cancel_left]

theorem readLE_congr {m m' : Mem} {a n : Nat}
    (h : ∀ x, a ≤ x → x < a + n → m' x = m x) :
    readLE m' a n = readLE m a n := by
  induction n generalizing a with
  | zero => rfl
  | succ n ih =>
      simp only [readLE]
      rw [h a (Nat.le_refl a) (by omega), ih]
      intro x hlo hhi
      exact h x (by omega) (by omega)

/-- A word depends on its own eight bytes only. -/
theorem readWord_congr {m m' : Mem} {a : Nat}
    (h : ∀ x, a ≤ x → x < a + 8 → m' x = m x) :
    readWord m' a = readWord m a :=
  readLE_congr h

/-- A store leaves every word alone whose eight bytes it does not meet. -/
theorem readWord_writeWord_disjoint (m : Mem) (a b v : Nat)
    (h : b + 8 ≤ a ∨ a + 8 ≤ b) :
    readWord (writeWord m a v) b = readWord m b := by
  apply readWord_congr
  intro x hlo hhi
  exact writeWord_outside m a v x (by omega)

private theorem readLE_writeWord (m : Mem) (a v n i : Nat) (h : i + n ≤ 8) :
    readLE (writeWord m a v) (a + i) n = v / 256 ^ i % 256 ^ n := by
  induction n generalizing i with
  | zero => simp [readLE, Nat.mod_one]
  | succ n ih =>
      have hbyte : writeWord m a v (a + i) = UInt8.ofNat (v / 256 ^ i) := by
        unfold writeWord
        rw [if_pos (by omega), Nat.add_sub_cancel_left]
      simp only [readLE]
      rw [hbyte, Nat.add_assoc, ih (i + 1) (by omega)]
      have hdiv : v / 256 ^ (i + 1) = v / 256 ^ i / 256 := by
        rw [Nat.pow_succ, Nat.div_div_eq_div_mul]
      have hlow : (UInt8.ofNat (v / 256 ^ i)).toNat = v / 256 ^ i % 256 := by
        simp
      rw [hdiv, hlow, Nat.pow_succ, Nat.mul_comm (256 ^ n) 256, Nat.mod_mul]

/-- What a load reads back at the address of a store. -/
theorem readWord_writeWord (m : Mem) (a v : Nat) (hv : v < 2 ^ 64) :
    readWord (writeWord m a v) a = v := by
  have h := readLE_writeWord m a v 8 0 (by omega)
  simp only [Nat.add_zero, Nat.pow_zero, Nat.div_one] at h
  rw [readWord, h]
  exact Nat.mod_eq_of_lt (by simpa using hv)

-- From here on loads and stores are known by the lemmas above only; unfolding
-- a word into its bytes is never what a proof about pointers wants.
attribute [irreducible] readWord writeWord

end Bytes
