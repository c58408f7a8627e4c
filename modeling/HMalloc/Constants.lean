import HMalloc.Lib.Word

/-!
The geometry of the allocator (`constants.h`): 4 MiB segments aligned to their
own size, cut into 64 KiB pages, page 0 of a segment holding its header. The
masks and shifts that recover a region and a page from a pointer are given
with the quotients and remainders they compute.
-/

namespace HMalloc

def segmentShift : Nat := 22
def segmentSize : Nat := 4194304
def segmentMask : Nat := segmentSize - 1

def pageShift : Nat := 16
def pageSize : Nat := 65536

def pagesPerSegment : Nat := segmentSize / pageSize
def firstUsablePage : Nat := 1
def usablePagesPerSegment : Nat := pagesPerSegment - firstUsablePage

def allocAlign : Nat := 16
def smallSizeMax : Nat := 16 * 1024

def sizeMax : Nat := 2 ^ 64 - 1

/-- `region_base`: `p & ~SEGMENT_MASK`. -/
def regionBase (p : Nat) : Nat := p &&& Word.compl segmentMask

/-- `page_index_of`: `(p & SEGMENT_MASK) >> PAGE_SHIFT`. -/
def pageIndexOf (p : Nat) : Nat := (p &&& segmentMask) >>> pageShift

theorem segmentSize_eq_pow : segmentSize = 2 ^ segmentShift := by decide

theorem pageSize_eq_pow : pageSize = 2 ^ pageShift := by decide

theorem regionBase_eq {p : Nat} (hp : p < 2 ^ 64) :
    regionBase p = p / segmentSize * segmentSize :=
  Word.and_compl_mask (k := 22) hp (by decide)

theorem pageIndexOf_eq (p : Nat) :
    pageIndexOf p = p % segmentSize / pageSize := by
  unfold pageIndexOf
  rw [show segmentMask = 2 ^ 22 - 1 by decide, Nat.and_two_pow_sub_one_eq_mod,
    Nat.shiftRight_eq_div_pow]
  rfl

/-- Masking any address of the first segment of a region recovers the base. -/
theorem regionBase_add {b d : Nat} (hb : segmentSize ∣ b) (hd : d < segmentSize)
    (hlt : b + d < 2 ^ 64) : regionBase (b + d) = b := by
  obtain ⟨k, rfl⟩ := hb
  rw [regionBase_eq hlt]
  have hdiv : (segmentSize * k + d) / segmentSize = k := by
    rw [Nat.mul_add_div (by decide), Nat.div_eq_of_lt hd, Nat.add_zero]
  rw [hdiv, Nat.mul_comm]

/-- Shifting recovers the page index of any address of a data page. -/
theorem pageIndexOf_add {b i d : Nat} (hb : segmentSize ∣ b)
    (hi : i < pagesPerSegment) (hd : d < pageSize) :
    pageIndexOf (b + (i * pageSize + d)) = i := by
  obtain ⟨k, rfl⟩ := hb
  have hlt : i * pageSize + d < segmentSize := by
    have : pagesPerSegment = 64 := by decide
    simp only [pageSize, segmentSize] at *
    omega
  rw [pageIndexOf_eq, Nat.mul_add_mod, Nat.mod_eq_of_lt hlt, Nat.mul_comm i,
    Nat.mul_add_div (by decide), Nat.div_eq_of_lt hd, Nat.add_zero]

end HMalloc
