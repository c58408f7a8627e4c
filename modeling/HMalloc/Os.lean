import HMalloc.Constants
import HMalloc.Lib.Bytes

/-!
The OS memory layer (`os.cpp`). The kernel is an adversary: each mapping call
is given the kernel's answer, a base address or a failure, and what is assumed
of an answer is `KernelOk`. The state holds the bytes, the set of mapped
addresses and the accounting counters; it also records, for every range the
layer has handed out and not taken back, what the range is for. That record is
ghost state: no function of the program reads it.
-/

namespace HMalloc

open Bytes

/-- The OS page size, a power of two. -/
structure PageSize where
  shift : Fin 64

def PageSize.bytes (ps : PageSize) : Nat := 2 ^ ps.shift.val

/-- The usual size of an OS page. -/
def page4k : PageSize := ⟨12⟩

/-- What a mapped range is for. `large` records where the user pointer is and
`heap` which thread's heap lives there; `foreign` is another allocator's. -/
inductive Purpose where
  | small
  | large (offset : Nat)
  | heap (thread : Nat)
  | table
  | foreign
  deriving DecidableEq

structure Region where
  size : Nat
  purpose : Purpose
  deriving DecidableEq

structure Os where
  mem : Mem
  mapped : Nat → Bool
  regions : Nat → Option Region
  bytesMapped : Nat
  peakMapped : Nat
  mapCalls : Nat
  unmapCalls : Nat
  /-- Ghost: `bytesMapped` has wrapped below zero. -/
  wrapped : Bool

def Os.init : Os where
  mem := fun _ => 0
  mapped := fun _ => false
  regions := fun _ => none
  bytesMapped := 0
  peakMapped := 0
  mapCalls := 0
  unmapCalls := 0
  wrapped := false

/-- `account_map`. -/
def Os.accountMap (os : Os) (n : Nat) : Os :=
  let now := Word.add 64 os.bytesMapped n
  { os with
    bytesMapped := now
    peakMapped := if now > os.peakMapped then now else os.peakMapped
    mapCalls := Word.add 64 os.mapCalls 1 }

/-- `account_unmap`. -/
def Os.accountUnmap (os : Os) (n : Nat) : Os :=
  { os with
    bytesMapped := Word.sub 64 os.bytesMapped n
    unmapCalls := Word.add 64 os.unmapCalls 1
    wrapped := os.wrapped || decide (os.bytesMapped < n) }

/-- A successful `mmap`: the kernel maps and zero-fills the range. -/
def Os.rawMmap (os : Os) (base len : Nat) : Os :=
  { os with
    mem := fill os.mem base len 0
    mapped := fun x => os.mapped x || (decide (base ≤ x) && decide (x < base + len)) }

def Os.munmap (os : Os) (base len : Nat) : Os :=
  { os with
    mapped := fun x => os.mapped x && !(decide (base ≤ x) && decide (x < base + len)) }

/-- `if (len != 0) munmap(base, len)`. -/
def Os.trim (os : Os) (base len : Nat) : Os :=
  if len ≠ 0 then os.munmap base len else os

/-- Ghost: the range is handed out. -/
def Os.retain (os : Os) (base size : Nat) (purpose : Purpose) : Os :=
  { os with regions := Function.update os.regions base (some ⟨size, purpose⟩) }

/-- Ghost: the range is taken back. -/
def Os.forget (os : Os) (base : Nat) : Os :=
  { os with regions := Function.update os.regions base none }

/-- The checks of `os_alloc_aligned` before the first system call. -/
def osAccepts (ps size alignment : Nat) : Bool :=
  !(size == 0 || alignment == 0) && Word.isPow2 alignment &&
    !(size % ps != 0 || alignment % ps != 0)

/-- The checks of `os_alloc_aligned` and the length it then asks `mmap` for. -/
def mmapLength (ps size alignment : Nat) : Option Nat :=
  if !osAccepts ps size alignment then none
  else if alignment ≤ ps then some size
  else
    let overLen := Word.add 64 size alignment
    if overLen < size then none else some overLen

/-- `os_alloc_aligned`, given the kernel's answer to its `mmap`. -/
def osAllocAligned (ps : PageSize) (answer : Option Nat) (os : Os)
    (size alignment : Nat) (purpose : Purpose) : Option Nat × Os :=
  match mmapLength ps.bytes size alignment, answer with
  | some len, some base =>
      if alignment ≤ ps.bytes then
        (some base, ((os.rawMmap base len).accountMap len).retain base size purpose)
      else
        let aligned := Word.add 64 base (alignment - 1) &&& Word.compl (alignment - 1)
        let head := Word.sub 64 aligned base
        let tail := Word.sub 64 (Word.sub 64 len head) size
        let os := ((os.rawMmap base len).trim base head).trim (Word.add 64 aligned size) tail
        let os := (os.accountMap len).accountUnmap (Word.add 64 head tail)
        (some aligned, os.retain aligned size purpose)
  | _, _ => (none, os)

/-- `os_free`. -/
def osFree (os : Os) (ptr size : Nat) : Os :=
  if ptr = 0 ∨ size = 0 then os
  else ((os.munmap ptr size).accountUnmap size).forget ptr

/-- What is assumed of the kernel: a mapping is page-aligned, non-null, inside
the address space, and disjoint from everything currently mapped. -/
def KernelOk (ps : PageSize) (answer : Option Nat) (os : Os) (size alignment : Nat) : Prop :=
  ∀ base, answer = some base → ∀ len, mmapLength ps.bytes size alignment = some len →
    base ≠ 0 ∧ ps.bytes ∣ base ∧ base + len ≤ 2 ^ 64 ∧
      ∀ x, base ≤ x → x < base + len → os.mapped x = false

theorem PageSize.bytes_pos (ps : PageSize) : 0 < ps.bytes := Nat.two_pow_pos _

theorem PageSize.bytes_lt (ps : PageSize) : ps.bytes < 2 ^ 64 :=
  Nat.pow_lt_pow_right (by decide) ps.shift.isLt

theorem Os.trim_mapped (os : Os) (base len x : Nat) :
    (os.trim base len).mapped x =
      (os.mapped x && !(decide (base ≤ x) && decide (x < base + len))) := by
  unfold Os.trim
  split
  · rfl
  · rename_i hzero
    have : ¬ (base ≤ x ∧ x < base + len) := by omega
    rw [← Bool.decide_and, decide_eq_false this]
    simp

theorem Os.trim_mem (os : Os) (base len : Nat) : (os.trim base len).mem = os.mem := by
  unfold Os.trim
  split <;> rfl

theorem Os.trim_regions (os : Os) (base len : Nat) :
    (os.trim base len).regions = os.regions := by
  unfold Os.trim
  split <;> rfl

/-- What a successful mapping has done: exactly the range `[r, r + size)` is
mapped in addition, it was not mapped before, it is zero, and the bytes that
were mapped before are untouched. -/
structure Os.Mapped (os os' : Os) (r size : Nat) (purpose : Purpose) : Prop where
  ne_zero : r ≠ 0
  size_pos : 0 < size
  bound : r + size ≤ 2 ^ 64
  fresh : ∀ x, r ≤ x → x < r + size → os.mapped x = false
  mapped : ∀ x, os'.mapped x = true ↔ os.mapped x = true ∨ (r ≤ x ∧ x < r + size)
  regions : os'.regions = Function.update os.regions r (some ⟨size, purpose⟩)
  mem_old : ∀ x, os.mapped x = true → os'.mem x = os.mem x
  mem_zero : ∀ x, r ≤ x → x < r + size → os'.mem x = 0

theorem osAccepts_spec {ps : PageSize} {size alignment : Nat}
    (h : osAccepts ps.bytes size alignment = true) :
    0 < size ∧ ps.bytes ∣ size ∧ ps.bytes ∣ alignment ∧ ∃ k, alignment = 2 ^ k := by
  simp only [osAccepts, Bool.and_eq_true, Bool.not_eq_true', Bool.or_eq_false_iff,
    beq_eq_false_iff_ne, bne_eq_false_iff_eq] at h
  obtain ⟨⟨⟨hsize, _⟩, hpow⟩, hdvd⟩ := h
  exact ⟨Nat.pos_of_ne_zero hsize, Nat.dvd_of_mod_eq_zero hdvd.1,
    Nat.dvd_of_mod_eq_zero hdvd.2, Word.isPow2_iff.mp hpow⟩

/-- The length that is mapped is the size, with the alignment added beyond a page. -/
theorem mmapLength_spec {ps : PageSize} {size alignment len : Nat} (hsize : size < 2 ^ 64)
    (halign : alignment < 2 ^ 64) (h : mmapLength ps.bytes size alignment = some len) :
    osAccepts ps.bytes size alignment = true ∧
      ((alignment ≤ ps.bytes ∧ len = size) ∨
        (ps.bytes < alignment ∧ len = size + alignment ∧ size + alignment < 2 ^ 64)) := by
  unfold mmapLength at h
  split at h
  · cases h
  rename_i hacc
  refine ⟨by simpa using hacc, ?_⟩
  split at h
  · rename_i hsmall
    cases h
    exact Or.inl ⟨hsmall, rfl⟩
  · rename_i hbig
    dsimp only at h
    split at h
    · cases h
    · rename_i hover
      cases h
      have hfit : size + alignment < 2 ^ 64 := by
        by_contra hwrap
        rw [Word.add_wrap hsize halign (by omega)] at hover
        omega
      exact Or.inr ⟨by omega, Word.add_eq hfit, hfit⟩

/-- The arithmetic of the over-map: without a wrap anywhere, head and tail are
the two pieces left and right of the aligned range. -/
theorem overmap_arith {base size alignment k : Nat} (halign : alignment = 2 ^ k)
    (hsize : 0 < size) (hbound : base + (size + alignment) ≤ 2 ^ 64) (hbase : base ≠ 0) :
    ∃ aligned, Word.add 64 base (alignment - 1) &&& Word.compl (alignment - 1) = aligned ∧
      alignment ∣ aligned ∧ base ≤ aligned ∧ aligned < base + alignment ∧
      Word.sub 64 aligned base = aligned - base ∧
      Word.sub 64 (Word.sub 64 (size + alignment) (aligned - base)) size =
        base + alignment - aligned ∧
      Word.add 64 aligned size = aligned + size := by
  have hpos : 0 < alignment := by
    rw [halign]
    exact Nat.two_pow_pos k
  have hk : k ≤ 64 := by
    by_contra hgt
    have : 2 ^ 64 < 2 ^ k := Nat.pow_lt_pow_right (by decide) (by omega)
    omega
  have hsum : base + (alignment - 1) < 2 ^ 64 := by omega
  have hround := Word.roundUp_spec (n := base) hk (by rw [← halign]; exact hsum)
  rw [← halign] at hround
  obtain ⟨hdvd, hle, hlt⟩ := hround
  refine ⟨Word.roundUp base alignment, rfl, hdvd, hle, hlt, ?_, ?_, ?_⟩
  · exact Word.sub_eq (by omega) hle
  · rw [Word.sub_eq (a := size + alignment) (by omega) (by omega),
      Word.sub_eq (by omega) (by omega)]
    omega
  · exact Word.add_eq (by omega)

/-- `os_alloc_aligned` answers null and changes nothing, or it maps exactly an
aligned range of the requested size. -/
theorem osAllocAligned_spec (ps : PageSize) (purpose : Purpose) {answer : Option Nat} {os : Os}
    {size alignment : Nat} (hkernel : KernelOk ps answer os size alignment)
    (hsize : size < 2 ^ 64) (halign : alignment < 2 ^ 64) :
    osAllocAligned ps answer os size alignment purpose = (none, os) ∨
    ∃ r os', osAllocAligned ps answer os size alignment purpose = (some r, os') ∧
      os.Mapped os' r size purpose ∧ alignment ∣ r := by
  unfold osAllocAligned
  cases hlen : mmapLength ps.bytes size alignment with
  | none => exact Or.inl rfl
  | some len =>
      cases answer with
      | none => exact Or.inl rfl
      | some base =>
          obtain ⟨hne, hdvd, hbound, hfresh⟩ := hkernel base rfl len hlen
          obtain ⟨hacc, hcases⟩ := mmapLength_spec hsize halign hlen
          obtain ⟨hpos, hdsize, hdalign, k, hk⟩ := osAccepts_spec hacc
          right
          dsimp only
          rcases hcases with ⟨hsmall, rfl⟩ | ⟨hbig, rfl, _⟩
          · rw [if_pos hsmall]
            refine ⟨base, _, rfl, ⟨hne, hpos, hbound, hfresh, ?_, rfl, ?_, ?_⟩, ?_⟩
            · intro x
              simp [Os.retain, Os.accountMap, Os.rawMmap]
            · intro x hx
              apply fill_outside
              by_contra hin
              simp [hfresh x (by omega) (by omega)] at hx
            · intro x hlo hhi
              simp only [Os.retain, Os.accountMap, Os.rawMmap, fill]
              rw [if_pos ⟨hlo, hhi⟩]
            · have heq : alignment = ps.bytes :=
                Nat.le_antisymm hsmall (Nat.le_of_dvd (by rw [hk]; exact Nat.two_pow_pos k) hdalign)
              rw [heq]
              exact hdvd
          · rw [if_neg (by omega)]
            obtain ⟨aligned, haligned, hmul, hle, hlt, hhead, htail, hend⟩ :=
              overmap_arith hk hpos hbound hne
            simp only [haligned, hhead, htail, hend]
            refine ⟨aligned, _, rfl, ⟨by omega, hpos, by omega,
              fun x hlo hhi => hfresh x (by omega) (by omega), ?_, ?_, ?_, ?_⟩, hmul⟩
            · -- Trimming takes the head and the tail from the over-map.
              intro x
              have hx := hfresh x
              simp only [Os.retain, Os.accountUnmap, Os.accountMap, Os.trim_mapped, Os.rawMmap,
                Bool.and_eq_true, Bool.or_eq_true, Bool.not_eq_true', Bool.and_eq_false_iff,
                decide_eq_true_eq, decide_eq_false_iff_not]
              by_cases hm : os.mapped x = true
              · have hout : ¬ (base ≤ x ∧ x < base + (size + alignment)) := by
                  rintro ⟨h1, h2⟩
                  simp [hx h1 h2] at hm
                simp only [hm, true_or, true_and, iff_true]
                omega
              · simp only [hm, Bool.false_eq_true, false_or]
                omega
            · simp only [Os.retain, Os.accountUnmap, Os.accountMap, Os.trim_regions, Os.rawMmap]
            · intro x hx
              simp only [Os.retain, Os.accountUnmap, Os.accountMap, Os.trim_mem, Os.rawMmap]
              apply fill_outside
              by_contra hin
              simp [hfresh x (by omega) (by omega)] at hx
            · intro x hlo hhi
              simp only [Os.retain, Os.accountUnmap, Os.accountMap, Os.trim_mem, Os.rawMmap, fill]
              rw [if_pos (by omega)]

/-- A mapping that succeeded. -/
theorem osAllocAligned_mapped {ps : PageSize} {answer : Option Nat} {os os' : Os}
    {size alignment b : Nat} {purpose : Purpose} (hkernel : KernelOk ps answer os size alignment)
    (hsize : size < 2 ^ 64) (halign : alignment < 2 ^ 64)
    (h : osAllocAligned ps answer os size alignment purpose = (some b, os')) :
    os.Mapped os' b size purpose := by
  rcases osAllocAligned_spec ps purpose hkernel hsize halign with hnone | ⟨a, os₁, hsome, hm, _⟩
  · rw [h] at hnone
    cases hnone
  · rw [h] at hsome
    cases hsome
    exact hm

/-- A failed `mmap` changes nothing. -/
theorem osAllocAligned_refused (ps : PageSize) (os : Os) (size alignment : Nat)
    (purpose : Purpose) : osAllocAligned ps none os size alignment purpose = (none, os) := by
  unfold osAllocAligned
  cases mmapLength ps.bytes size alignment <;> rfl

end HMalloc
