import HMalloc.Os

/-!
`os_alloc_aligned` and `os_free` on their own, for every argument and every
answer of the kernel that fits into the address space: which calls reach `mmap`,
which range stays mapped, and what the counters of `os_stats` count.
-/

namespace HMalloc

/-- The arguments with which `os_alloc_aligned` calls `mmap`. -/
structure Mappable (ps : PageSize) (size alignment : Nat) : Prop where
  size_ne : size ≠ 0
  alignment_ne : alignment ≠ 0
  size_dvd : ps.bytes ∣ size
  alignment_dvd : ps.bytes ∣ alignment
  pow : ∃ k, alignment = 2 ^ k
  fits : ps.bytes < alignment → size + alignment < 2 ^ 64

/-- The length of the mapping. -/
def mapLength (ps : PageSize) (size alignment : Nat) : Nat :=
  if alignment ≤ ps.bytes then size else size + alignment

/-- `aligned`, `head` and `tail` of `os_alloc_aligned`. -/
def overmapAligned (base alignment : Nat) : Nat :=
  Word.add 64 base (alignment - 1) &&& Word.compl (alignment - 1)

def overmapHead (base alignment : Nat) : Nat := Word.sub 64 (overmapAligned base alignment) base

def overmapTail (base size alignment : Nat) : Nat :=
  Word.sub 64 (Word.sub 64 (Word.add 64 size alignment) (overmapHead base alignment)) size

section Arguments

variable {ps : PageSize} {size alignment : Nat}

theorem osAccepts_iff : osAccepts ps.bytes size alignment = true ↔
    size ≠ 0 ∧ alignment ≠ 0 ∧ ps.bytes ∣ size ∧ ps.bytes ∣ alignment ∧ ∃ k, alignment = 2 ^ k := by
  simp only [osAccepts, Bool.and_eq_true, Bool.not_eq_true', Bool.or_eq_false_iff,
    beq_eq_false_iff_ne, bne_eq_false_iff_eq, ← Word.isPow2_iff, Nat.dvd_iff_mod_eq_zero]
  tauto

theorem Mappable.length (h : Mappable ps size alignment) :
    mmapLength ps.bytes size alignment = some (mapLength ps size alignment) := by
  have hacc := osAccepts_iff.mpr ⟨h.size_ne, h.alignment_ne, h.size_dvd, h.alignment_dvd, h.pow⟩
  unfold mmapLength mapLength
  rw [hacc, if_neg (by decide)]
  by_cases hle : alignment ≤ ps.bytes
  · rw [if_pos hle, if_pos hle]
  · dsimp only
    rw [if_neg hle, if_neg hle, Word.add_eq (h.fits (by omega)), if_neg (by omega)]

/-- The checks of `os_alloc_aligned` are exact. -/
theorem mmapLength_eq (hsize : size < 2 ^ 64) (halign : alignment < 2 ^ 64) (len : Nat) :
    mmapLength ps.bytes size alignment = some len ↔
      Mappable ps size alignment ∧ len = mapLength ps size alignment := by
  constructor
  · intro h
    obtain ⟨hacc, hcases⟩ := mmapLength_spec hsize halign h
    obtain ⟨h1, h2, h3, h4, h5⟩ := osAccepts_iff.mp hacc
    unfold mapLength
    rcases hcases with ⟨hle, rfl⟩ | ⟨hlt, rfl, hfit⟩
    · exact ⟨⟨h1, h2, h3, h4, h5, fun hlt => absurd hlt (by omega)⟩, (if_pos hle).symm⟩
    · exact ⟨⟨h1, h2, h3, h4, h5, fun _ => hfit⟩, (if_neg (by omega)).symm⟩
  · rintro ⟨h, rfl⟩
    exact h.length

end Arguments

section Range

theorem Os.trim_calls (os : Os) (base len : Nat) :
    (os.trim base len).mapCalls = os.mapCalls ∧ (os.trim base len).unmapCalls = os.unmapCalls := by
  unfold Os.trim
  split <;> exact ⟨rfl, rfl⟩

theorem Os.trim_bytesMapped (os : Os) (base len : Nat) :
    (os.trim base len).bytesMapped = os.bytesMapped := by
  unfold Os.trim
  split <;> rfl

variable {ps : PageSize} {size alignment : Nat} {purpose : Purpose} {os : Os}

/-- A call that does not get as far as `mmap` has no effect. -/
theorem osAllocAligned_rejects (hsize : size < 2 ^ 64) (halign : alignment < 2 ^ 64)
    (h : ¬ Mappable ps size alignment) (answer : Option Nat) :
    osAllocAligned ps answer os size alignment purpose = (none, os) := by
  unfold osAllocAligned
  cases hlen : mmapLength ps.bytes size alignment with
  | none => rfl
  | some len => exact absurd ((mmapLength_eq hsize halign len).mp hlen).1 h

theorem osAllocAligned_exactly (purpose : Purpose) (os : Os) (h : Mappable ps size alignment)
    (hle : alignment ≤ ps.bytes) (base : Nat) :
    osAllocAligned ps (some base) os size alignment purpose =
      (some base, ((os.rawMmap base size).accountMap size).retain base size purpose) := by
  have hlen : mapLength ps size alignment = size := if_pos hle
  simp only [osAllocAligned, h.length, hlen, if_pos hle]

theorem osAllocAligned_over (purpose : Purpose) (os : Os) (h : Mappable ps size alignment)
    (hlt : ps.bytes < alignment) (base : Nat) :
    osAllocAligned ps (some base) os size alignment purpose =
      (some (overmapAligned base alignment),
        ((((((os.rawMmap base (size + alignment)).trim base (overmapHead base alignment)).trim
          (Word.add 64 (overmapAligned base alignment) size)
          (overmapTail base size alignment)).accountMap (size + alignment)).accountUnmap
          (Word.add 64 (overmapHead base alignment) (overmapTail base size alignment))).retain
          (overmapAligned base alignment) size purpose)) := by
  have hle : ¬ alignment ≤ ps.bytes := by omega
  have hlen : mapLength ps size alignment = size + alignment := if_neg hle
  simp only [osAllocAligned, h.length, hlen, if_neg hle, overmapTail, overmapHead,
    overmapAligned, Word.add_eq (h.fits hlt)]

/-- No expression of the over-map wraps: it is cut into the head, the aligned
range and the tail. -/
structure Overmap (base size alignment : Nat) : Prop where
  rounding : base + (alignment - 1) < 2 ^ 64
  head : base + overmapHead base alignment = overmapAligned base alignment
  tail : overmapAligned base alignment + size + overmapTail base size alignment =
    base + (size + alignment)
  last : overmapAligned base alignment + size < 2 ^ 64
  slop : overmapHead base alignment + overmapTail base size alignment = alignment

theorem overmap_exact (hpow : ∃ k, alignment = 2 ^ k) (hsize : 0 < size) {base : Nat}
    (hbase : base ≠ 0) (hbound : base + (size + alignment) ≤ 2 ^ 64) :
    Overmap base size alignment ∧ alignment ∣ overmapAligned base alignment := by
  obtain ⟨k, hk⟩ := hpow
  obtain ⟨aligned, haligned, hmul, hle, hlt, hhead, htail, _⟩ :=
    overmap_arith hk hsize hbound hbase
  have hpos : 0 < alignment := by
    rw [hk]
    exact Nat.two_pow_pos k
  have hA : overmapAligned base alignment = aligned := haligned
  have hH : overmapHead base alignment = aligned - base := by
    unfold overmapHead
    rw [hA, hhead]
  have hT : overmapTail base size alignment = base + alignment - aligned := by
    unfold overmapTail
    rw [hH, Word.add_eq (by omega), htail]
  refine ⟨⟨by omega, ?_, ?_, ?_, ?_⟩, by rw [hA]; exact hmul⟩ <;> rw [hA] at * <;> omega

/-- What a call that has been given a mapping at `base` leaves of it, and what
`os_free` of the result does. -/
structure KeepsRange (ps : PageSize) (os os' : Os) (base size alignment r : Nat) : Prop where
  aligned : alignment ∣ r
  inside : base ≤ r ∧ r + size ≤ base + mapLength ps size alignment
  pieces : ps.bytes ∣ r - base ∧ ps.bytes ∣ r + size ∧
    ps.bytes ∣ base + mapLength ps size alignment - (r + size)
  exact : ps.bytes < alignment → r = overmapAligned base alignment ∧ Overmap base size alignment
  mapped : ∀ x, os'.mapped x = true ↔ (r ≤ x ∧ x < r + size) ∨
    (os.mapped x = true ∧ ¬ (base ≤ x ∧ x < base + mapLength ps size alignment))
  bytes : os'.bytesMapped = (os.bytesMapped + size) % 2 ^ 64
  restored : (osFree os' r size).bytesMapped = os.bytesMapped ∧
    ((∀ x, base ≤ x → x < base + mapLength ps size alignment → os.mapped x = false) →
      (osFree os' r size).mapped = os.mapped)

theorem word_add_mod (a b : Nat) : Word.add 64 a b = (a + b) % 2 ^ 64 := by
  unfold Word.add
  rfl

theorem osFree_mapped (os : Os) {r size : Nat} (hr : r ≠ 0) (hsize : size ≠ 0) :
    osFree os r size = ((os.munmap r size).accountUnmap size).forget r :=
  if_neg (by omega)

/-- Freeing the range takes back what the call has added. -/
theorem osFree_restores {os' : Os} {base len r : Nat} (hr : r ≠ 0) (hsize : size ≠ 0)
    (hlt : size < 2 ^ 64) (hbytes : os.bytesMapped < 2 ^ 64)
    (hmapped : ∀ x, os'.mapped x = true ↔ (r ≤ x ∧ x < r + size) ∨
      (os.mapped x = true ∧ ¬ (base ≤ x ∧ x < base + len)))
    (hinside : base ≤ r ∧ r + size ≤ base + len)
    (hadd : os'.bytesMapped = Word.add 64 os.bytesMapped size) :
    (osFree os' r size).bytesMapped = os.bytesMapped ∧
      ((∀ x, base ≤ x → x < base + len → os.mapped x = false) →
        (osFree os' r size).mapped = os.mapped) := by
  rw [osFree_mapped os' hr hsize]
  constructor
  · change Word.sub 64 os'.bytesMapped size = os.bytesMapped
    rw [hadd]
    exact Word.sub_add_cancel hbytes (Nat.le_of_lt hlt)
  · intro hfresh
    funext x
    change (os'.mapped x && !(decide (r ≤ x) && decide (x < r + size))) = os.mapped x
    have hx := hfresh x
    rw [Bool.eq_iff_iff]
    simp only [Bool.and_eq_true, Bool.not_eq_true', Bool.and_eq_false_iff, decide_eq_false_iff_not,
      hmapped x]
    constructor
    · rintro ⟨hin | hold, hout⟩
      · omega
      · exact hold.1
    · intro hm
      have hnot : ¬ (base ≤ x ∧ x < base + len) := by
        rintro ⟨h1, h2⟩
        rw [hx h1 h2] at hm
        cases hm
      exact ⟨Or.inr ⟨hm, hnot⟩, by omega⟩

theorem keepsRange_exactly (h : Mappable ps size alignment) (hle : alignment ≤ ps.bytes)
    (hsize : size < 2 ^ 64) (hbytes : os.bytesMapped < 2 ^ 64) {base : Nat} (hbase : base ≠ 0)
    (hdvd : ps.bytes ∣ base) :
    KeepsRange ps os (((os.rawMmap base size).accountMap size).retain base size purpose) base size
      alignment base := by
  have hlen : mapLength ps size alignment = size := if_pos hle
  have heq : alignment = ps.bytes :=
    Nat.le_antisymm hle (Nat.le_of_dvd (Nat.pos_of_ne_zero h.alignment_ne) h.alignment_dvd)
  have hmapped : ∀ x, (((os.rawMmap base size).accountMap size).retain base size purpose).mapped x =
      true ↔ (base ≤ x ∧ x < base + size) ∨
        (os.mapped x = true ∧ ¬ (base ≤ x ∧ x < base + size)) := by
    intro x
    simp only [Os.retain, Os.accountMap, Os.rawMmap, Bool.or_eq_true, Bool.and_eq_true,
      decide_eq_true_eq]
    tauto
  constructor
  · rw [heq]
    exact hdvd
  · rw [hlen]
    omega
  · rw [hlen, Nat.sub_self, Nat.sub_self]
    exact ⟨dvd_zero _, (Nat.dvd_add_right hdvd).mpr h.size_dvd, dvd_zero _⟩
  · intro hlt
    omega
  · rw [hlen]
    exact hmapped
  · exact word_add_mod _ _
  · rw [hlen]
    exact osFree_restores hbase h.size_ne hsize hbytes hmapped (by omega) rfl

theorem keepsRange_over (h : Mappable ps size alignment) (hlt : ps.bytes < alignment)
    (hbytes : os.bytesMapped < 2 ^ 64) {base : Nat} (hbase : base ≠ 0) (hdvd : ps.bytes ∣ base)
    (hbound : base + mapLength ps size alignment ≤ 2 ^ 64) :
    KeepsRange ps os
      (((((((os.rawMmap base (size + alignment)).trim base (overmapHead base alignment)).trim
        (Word.add 64 (overmapAligned base alignment) size)
        (overmapTail base size alignment)).accountMap (size + alignment)).accountUnmap
        (Word.add 64 (overmapHead base alignment) (overmapTail base size alignment))).retain
        (overmapAligned base alignment) size purpose)) base size alignment
      (overmapAligned base alignment) := by
  have hlen : mapLength ps size alignment = size + alignment := if_neg (by omega)
  have hpos := Nat.pos_of_ne_zero h.size_ne
  rw [hlen] at hbound
  obtain ⟨hover, haligned⟩ := overmap_exact h.pow hpos hbase hbound
  obtain ⟨_, hhead, htail, hlast, hslop⟩ := hover
  have hdvdA : ps.bytes ∣ overmapAligned base alignment := h.alignment_dvd.trans haligned
  have hfits := h.fits hlt
  have hmapped : ∀ x, (((((((os.rawMmap base (size + alignment)).trim base
      (overmapHead base alignment)).trim (Word.add 64 (overmapAligned base alignment) size)
      (overmapTail base size alignment)).accountMap (size + alignment)).accountUnmap
      (Word.add 64 (overmapHead base alignment) (overmapTail base size alignment))).retain
      (overmapAligned base alignment) size purpose)).mapped x = true ↔
        (overmapAligned base alignment ≤ x ∧ x < overmapAligned base alignment + size) ∨
        (os.mapped x = true ∧ ¬ (base ≤ x ∧ x < base + (size + alignment))) := by
    intro x
    rw [Word.add_eq hlast]
    simp only [Os.retain, Os.accountUnmap, Os.accountMap, Os.trim_mapped, Os.rawMmap,
      Bool.and_eq_true, Bool.or_eq_true, Bool.not_eq_true', Bool.and_eq_false_iff,
      decide_eq_true_eq, decide_eq_false_iff_not]
    by_cases hm : os.mapped x = true
    · simp only [hm, true_or, true_and]
      omega
    · simp only [hm, Bool.false_eq_true, false_or, false_and, or_false]
      omega
  have hadd : Word.sub 64 (Word.add 64 os.bytesMapped (size + alignment)) (Word.add 64
      (overmapHead base alignment) (overmapTail base size alignment)) =
      Word.add 64 os.bytesMapped size := by
    rw [show Word.add 64 (overmapHead base alignment) (overmapTail base size alignment) = alignment
      by rw [Word.add_eq (by omega), hslop]]
    exact Word.sub_add_part (by omega)
  have hbytes' : (((((((os.rawMmap base (size + alignment)).trim base
      (overmapHead base alignment)).trim (Word.add 64 (overmapAligned base alignment) size)
      (overmapTail base size alignment)).accountMap (size + alignment)).accountUnmap
      (Word.add 64 (overmapHead base alignment) (overmapTail base size alignment))).retain
      (overmapAligned base alignment) size purpose)).bytesMapped =
      Word.add 64 os.bytesMapped size := by
    rw [← hadd]
    simp only [Os.retain, Os.accountUnmap, Os.accountMap, Os.trim_bytesMapped, Os.rawMmap]
  constructor
  · exact haligned
  · rw [hlen]
    omega
  · rw [hlen]
    refine ⟨Nat.dvd_sub hdvdA hdvd, (Nat.dvd_add_right hdvdA).mpr h.size_dvd, ?_⟩
    refine Nat.dvd_sub ((Nat.dvd_add_right hdvd).mpr ?_) ((Nat.dvd_add_right hdvdA).mpr h.size_dvd)
    exact (Nat.dvd_add_right h.size_dvd).mpr h.alignment_dvd
  · exact fun _ => ⟨rfl, by omega, hhead, htail, hlast, hslop⟩
  · rw [hlen]
    exact hmapped
  · rw [hbytes']
    exact word_add_mod _ _
  · rw [hlen]
    exact osFree_restores (by omega) h.size_ne (by omega) hbytes hmapped (by omega) hbytes'

/-- `os_alloc_aligned` keeps exactly the range it returns. For every arguments
and every answer of the kernel: without acceptable arguments or without a
mapping nothing is mapped or accounted; otherwise the result is aligned, the
addresses that stay mapped are those of the result, what is trimmed are whole
OS pages of the over-map, no expression wraps, and `os_free` restores both the
mapped set and the byte counter. -/
theorem os_alloc_keeps_range (ps : PageSize) (purpose : Purpose) (os : Os) (size alignment : Nat)
    (hsize : size < 2 ^ 64) (halign : alignment < 2 ^ 64) (hbytes : os.bytesMapped < 2 ^ 64) :
    (¬ Mappable ps size alignment →
      ∀ answer, osAllocAligned ps answer os size alignment purpose = (none, os)) ∧
    osAllocAligned ps none os size alignment purpose = (none, os) ∧
    (Mappable ps size alignment → ∀ base, base ≠ 0 → ps.bytes ∣ base →
      base + mapLength ps size alignment ≤ 2 ^ 64 →
      ∃ r os', osAllocAligned ps (some base) os size alignment purpose = (some r, os') ∧
        KeepsRange ps os os' base size alignment r) := by
  refine ⟨osAllocAligned_rejects hsize halign, osAllocAligned_refused ps os size alignment purpose,
    fun h base hbase hdvd hbound => ?_⟩
  by_cases hle : alignment ≤ ps.bytes
  · exact ⟨_, _, osAllocAligned_exactly purpose os h hle base,
      keepsRange_exactly h hle hsize hbytes hbase hdvd⟩
  · have hlt : ps.bytes < alignment := by omega
    exact ⟨_, _, osAllocAligned_over purpose os h hlt base,
      keepsRange_over h hlt hbytes hbase hdvd hbound⟩

/-- Two pages, aligned to 4 MiB, in an over-map that starts at the third page. -/
theorem os_alloc_keeps_range_over :
    ∃ r os', osAllocAligned page4k (some 8192) Os.init 8192 4194304 .small = (some r, os') ∧
      KeepsRange page4k Os.init os' 8192 8192 4194304 r := by
  refine (os_alloc_keeps_range page4k .small Os.init 8192 4194304 (by decide) (by decide)
    (by decide)).2.2 ⟨by decide, by decide, ?_, ?_, ⟨22, by decide⟩, fun _ => by decide⟩ 8192
    (by decide) ?_ ?_
  · exact ⟨2, by decide⟩
  · exact ⟨1024, by decide⟩
  · exact ⟨2, by decide⟩
  · decide

end Range

section Counters

/-- A call of the OS layer, with the kernel's answer. -/
inductive OsCall where
  | alloc (size alignment : Nat) (purpose : Purpose) (answer : Option Nat)
  | free (ptr size : Nat)

def OsCall.exec (ps : PageSize) (os : Os) : OsCall → Os
  | .alloc size alignment purpose answer =>
      (osAllocAligned ps answer os size alignment purpose).2
  | .free ptr size => osFree os ptr size

/-- The call is an `os_alloc_aligned` that returns a non-null pointer. -/
def OsCall.maps (ps : PageSize) (os : Os) : OsCall → Bool
  | .alloc size alignment purpose answer =>
      match (osAllocAligned ps answer os size alignment purpose).1 with
      | some r => r != 0
      | none => false
  | .free _ _ => false

/-- The call is an `os_free` of a non-null pointer and a non-zero size. -/
def OsCall.unmaps (_ : PageSize) (_ : Os) : OsCall → Bool
  | .alloc _ _ _ _ => false
  | .free ptr size => ptr != 0 && size != 0

/-- The call has an alignment beyond the page size, passes the checks, and the
kernel maps what it asks for. -/
def OsCall.trims (ps : PageSize) (_ : Os) : OsCall → Bool
  | .alloc size alignment _ answer =>
      (mmapLength ps.bytes size alignment).isSome && answer.isSome && decide (ps.bytes < alignment)
  | .free _ _ => false

def runOs (ps : PageSize) : List OsCall → Os → Os
  | [], os => os
  | call :: calls, os => runOs ps calls (call.exec ps os)

/-- The number of calls of a run that are of some kind. -/
def countOs (ps : PageSize) (kind : PageSize → Os → OsCall → Bool) : List OsCall → Os → Nat
  | [], _ => 0
  | call :: calls, os =>
      (if kind ps os call then 1 else 0) + countOs ps kind calls (call.exec ps os)

/-- The arguments are words, and a mapping is inside the address space. -/
def OsCall.Ok (ps : PageSize) : OsCall → Prop
  | .alloc size alignment _ answer => size < 2 ^ 64 ∧ alignment < 2 ^ 64 ∧
      ∀ base, answer = some base → base ≠ 0 ∧ base + mapLength ps size alignment ≤ 2 ^ 64
  | .free ptr size => ptr < 2 ^ 64 ∧ size < 2 ^ 64

variable {ps : PageSize} {os : Os}

/-- A call is turned away without effect, or its arguments pass and the kernel maps. -/
theorem osAllocAligned_fails_or_maps (ps : PageSize) {size alignment : Nat}
    (hsize : size < 2 ^ 64) (halign : alignment < 2 ^ 64) (os : Os) (purpose : Purpose)
    (answer : Option Nat) :
    (osAllocAligned ps answer os size alignment purpose = (none, os) ∧
      ((mmapLength ps.bytes size alignment).isSome && answer.isSome) = false) ∨
    (Mappable ps size alignment ∧ ∃ base, answer = some base) := by
  by_cases h : Mappable ps size alignment
  · cases answer with
    | none => exact Or.inl ⟨osAllocAligned_refused ps os size alignment purpose, Bool.and_false _⟩
    | some base => exact Or.inr ⟨h, base, rfl⟩
  · have hnone : mmapLength ps.bytes size alignment = none :=
      Option.eq_none_iff_forall_not_mem.mpr fun len hlen =>
        h ((mmapLength_eq hsize halign len).mp hlen).1
    exact Or.inl ⟨osAllocAligned_rejects hsize halign h answer, by rw [hnone]; rfl⟩

/-- What one call adds to the two counters. -/
theorem OsCall.exec_counts (os : Os) {call : OsCall} (hok : call.Ok ps)
    (hmap : os.mapCalls < 2 ^ 64) (hunmap : os.unmapCalls < 2 ^ 64) :
    (call.exec ps os).mapCalls =
      (os.mapCalls + if call.maps ps os then 1 else 0) % 2 ^ 64 ∧
    (call.exec ps os).unmapCalls =
      (os.unmapCalls + ((if call.unmaps ps os then 1 else 0) +
        if call.trims ps os then 1 else 0)) % 2 ^ 64 := by
  have hnone : os.mapCalls = (os.mapCalls + 0) % 2 ^ 64 ∧
      os.unmapCalls = (os.unmapCalls + (0 + 0)) % 2 ^ 64 :=
    ⟨(Nat.mod_eq_of_lt hmap).symm, (Nat.mod_eq_of_lt hunmap).symm⟩
  cases call with
  | free ptr size =>
      by_cases hnull : ptr = 0 ∨ size = 0
      · have hexec : osFree os ptr size = os := if_pos hnull
        have hkind : (ptr != 0 && size != 0) = false := by
          rcases hnull with h | h <;> simp [h]
        simp only [OsCall.exec, OsCall.maps, OsCall.unmaps, OsCall.trims, hexec, hkind]
        exact hnone
      · have hexec := osFree_mapped os (show ptr ≠ 0 by omega) (show size ≠ 0 by omega)
        have hkind : (ptr != 0 && size != 0) = true := by
          simp only [Bool.and_eq_true, bne_iff_ne]
          omega
        simp only [OsCall.exec, OsCall.maps, OsCall.unmaps, OsCall.trims, hexec, hkind]
        exact ⟨hnone.1, word_add_mod _ _⟩
  | alloc size alignment purpose answer =>
      obtain ⟨hsize, halign, hanswer⟩ := hok
      rcases osAllocAligned_fails_or_maps ps hsize halign os purpose answer with
        ⟨hexec, hnot⟩ | ⟨h, base, rfl⟩
      · simp only [OsCall.exec, OsCall.maps, OsCall.unmaps, OsCall.trims, hexec, hnot]
        exact hnone
      · obtain ⟨hbase, hbound⟩ := hanswer base rfl
        by_cases hle : alignment ≤ ps.bytes
        · have hexec := osAllocAligned_exactly purpose os h hle base
          simp only [OsCall.exec, OsCall.maps, OsCall.unmaps, OsCall.trims, hexec,
            bne_iff_ne.mpr hbase, decide_eq_false (show ¬ ps.bytes < alignment by omega),
            Bool.and_false]
          exact ⟨word_add_mod _ _, hnone.2⟩
        · have hlt : ps.bytes < alignment := by omega
          have hexec := osAllocAligned_over purpose os h hlt base
          have hlen : mapLength ps size alignment = size + alignment := if_neg hle
          obtain ⟨hover, _⟩ := overmap_exact h.pow (Nat.pos_of_ne_zero h.size_ne) hbase
            (by rw [← hlen]; exact hbound)
          have hne : overmapAligned base alignment ≠ 0 := by
            have := hover.head
            omega
          simp only [OsCall.exec, OsCall.maps, OsCall.unmaps, OsCall.trims, hexec,
            bne_iff_ne.mpr hne, h.length, Option.isSome_some, Bool.and_self, decide_eq_true hlt]
          simp only [Os.retain, Os.accountUnmap, Os.accountMap, Os.trim_calls, Os.rawMmap]
          exact ⟨word_add_mod _ _, word_add_mod _ _⟩

/-- What the counters count over a run: a mapping that is trimmed counts as an
unmapping too. -/
theorem runOs_counts (os : Os) {calls : List OsCall} (hok : ∀ call ∈ calls, call.Ok ps)
    (hmap : os.mapCalls < 2 ^ 64) (hunmap : os.unmapCalls < 2 ^ 64) :
    (runOs ps calls os).mapCalls = (os.mapCalls + countOs ps OsCall.maps calls os) % 2 ^ 64 ∧
    (runOs ps calls os).unmapCalls =
      (os.unmapCalls + (countOs ps OsCall.unmaps calls os + countOs ps OsCall.trims calls os)) %
        2 ^ 64 := by
  induction calls generalizing os with
  | nil => exact ⟨(Nat.mod_eq_of_lt hmap).symm, (Nat.mod_eq_of_lt hunmap).symm⟩
  | cons call calls ih =>
      obtain ⟨hm, hu⟩ := OsCall.exec_counts os (hok call List.mem_cons_self) hmap hunmap
      have hm64 : (call.exec ps os).mapCalls < 2 ^ 64 := by
        rw [hm]
        exact Nat.mod_lt _ (by decide)
      have hu64 : (call.exec ps os).unmapCalls < 2 ^ 64 := by
        rw [hu]
        exact Nat.mod_lt _ (by decide)
      obtain ⟨hm', hu'⟩ := ih _ (fun c hc => hok c (List.mem_cons_of_mem _ hc)) hm64 hu64
      simp only [runOs, countOs]
      rw [hm', hu', hm, hu, Nat.mod_add_mod, Nat.mod_add_mod]
      constructor <;> congr 1 <;> omega

/-- The call counters of `os_stats`, over every run of the OS layer: as 64-bit
counters, `map_calls` is the number of `os_alloc_aligned` calls that returned
non-null, and `unmap_calls` is the number of `os_free` calls with something to
free exactly if the number of mappings that were trimmed is zero, or wraps to
it. -/
theorem os_call_counters (ps : PageSize) (calls : List OsCall)
    (hok : ∀ call ∈ calls, call.Ok ps) :
    (runOs ps calls Os.init).mapCalls = countOs ps OsCall.maps calls Os.init % 2 ^ 64 ∧
    ((runOs ps calls Os.init).unmapCalls = countOs ps OsCall.unmaps calls Os.init % 2 ^ 64 ↔
      countOs ps OsCall.trims calls Os.init % 2 ^ 64 = 0) := by
  obtain ⟨hm, hu⟩ := runOs_counts Os.init hok (by decide) (by decide)
  rw [hm, hu]
  simp only [Os.init, Nat.zero_add]
  exact ⟨trivial, by omega⟩

/-- A page is mapped and freed, and a null pointer is freed. -/
theorem os_call_counters_page :
    (runOs page4k [.alloc 4096 4096 .table (some 8192), .free 8192 4096, .free 0 4096]
      Os.init).mapCalls = 1 ∧
    (runOs page4k [.alloc 4096 4096 .table (some 8192), .free 8192 4096, .free 0 4096]
      Os.init).unmapCalls = 1 := by
  have hcount := os_call_counters page4k
    [.alloc 4096 4096 .table (some 8192), .free 8192 4096, .free 0 4096] ?_
  · exact ⟨hcount.1, hcount.2.mpr (by decide +kernel)⟩
  · simp only [List.mem_cons, List.not_mem_nil, or_false, forall_eq_or_imp, forall_eq, OsCall.Ok]
    exact ⟨⟨by decide, by decide, fun base hbase => by cases hbase; decide⟩, by decide, by decide⟩

/-- One mapping aligned to 4 MiB: nothing has been freed, and `unmap_calls` is
one. -/
theorem trimmed_mapping_counts_unmap :
    (∀ call ∈ [OsCall.alloc 4194304 4194304 .small (some 8192)], call.Ok page4k) ∧
    countOs page4k OsCall.unmaps [.alloc 4194304 4194304 .small (some 8192)] Os.init = 0 ∧
    (runOs page4k [.alloc 4194304 4194304 .small (some 8192)] Os.init).unmapCalls = 1 := by
  refine ⟨?_, by decide +kernel, by decide +kernel⟩
  simp only [List.mem_singleton, forall_eq, OsCall.Ok]
  exact ⟨by decide, by decide, fun base hbase => by cases hbase; decide⟩

end Counters

end HMalloc
