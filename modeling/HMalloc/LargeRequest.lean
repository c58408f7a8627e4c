import HMalloc.Mapping
import HMalloc.System

/-!
The arithmetic of `alloc_large` and of the over-map it asks for. The code adds
three times and rounds twice in 64-bit words, and looks for a wrap afterwards;
a request gets as far as `mmap` exactly when the true numbers fit.
-/

namespace HMalloc

/-- `round_up` without a word size. -/
def ceilTo (n a : Nat) : Nat := (n + (a - 1)) / a * a

theorem ceilTo_spec (n : Nat) {a : Nat} (ha : 0 < a) :
    a ∣ ceilTo n a ∧ n ≤ ceilTo n a ∧ ceilTo n a < n + a := by
  have hdiv := Nat.div_add_mod (n + (a - 1)) a
  have hmod := Nat.mod_lt (n + (a - 1)) ha
  rw [Nat.mul_comm] at hdiv
  unfold ceilTo
  exact ⟨Nat.dvd_mul_left _ _, by omega, by omega⟩

theorem PageSize.roundUp_eq (ps : PageSize) {n : Nat} (h : n + (ps.bytes - 1) < 2 ^ 64) :
    Word.roundUp n ps.bytes = ceilTo n ps.bytes :=
  Word.roundUp_eq (Nat.le_of_lt ps.shift.isLt) h

theorem PageSize.roundUp_wrap (ps : PageSize) {n : Nat} (hn : n < 2 ^ 64)
    (h : 2 ^ 64 ≤ n + (ps.bytes - 1)) : Word.roundUp n ps.bytes = 0 :=
  Word.roundUp_wrap (Nat.le_of_lt ps.shift.isLt) hn h

/-- A page size below the segment size divides it. -/
theorem PageSize.dvd_segmentSize {ps : PageSize} (h : ps.bytes < segmentSize) :
    ps.bytes ∣ segmentSize := by
  rw [segmentSize_eq_pow] at h ⊢
  exact Nat.pow_dvd_pow 2 (Nat.le_of_lt ((Nat.pow_lt_pow_iff_right (by decide)).mp h))

/-- The alignments that `alloc_large` is called with. -/
structure LargeAlign (align : Nat) : Prop where
  pow : ∃ k, align = 2 ^ k
  low : allocAlign ≤ align
  high : align ≤ segmentSize / 2

theorem LargeAlign.least : LargeAlign allocAlign :=
  ⟨⟨4, rfl⟩, Nat.le_refl _, by decide⟩

section Arithmetic

variable {ps : PageSize} {q : Request} {align : Nat}

/-- The offset is rounded without a wrap. -/
theorem largeOffset_eq (h : LargeAlign align) :
    (if align > allocAlign then Word.roundUp largeOffset align else largeOffset) =
      ceilTo largeOffset align := by
  obtain ⟨k, hk⟩ := h.pow
  have hhigh := h.high
  have hoffset : largeOffset = 32 := by decide
  have hhalf : segmentSize / 2 = 2097152 := by decide
  split
  · have hk64 : k ≤ 64 := by
      by_contra hgt
      have : 2 ^ 64 < 2 ^ k := Nat.pow_lt_pow_right (by decide) (by omega)
      omega
    rw [hk]
    exact Word.roundUp_eq hk64 (by rw [← hk]; omega)
  · rename_i hle
    have heq : align = allocAlign := Nat.le_antisymm (Nat.le_of_not_lt hle) h.low
    rw [heq]
    decide

theorem largeOffset_bounds (h : LargeAlign align) :
    largeOffset ≤ ceilTo largeOffset align ∧ align ∣ ceilTo largeOffset align ∧
      ceilTo largeOffset align < segmentSize := by
  have hpos : 0 < align := Nat.lt_of_lt_of_le (by decide) h.low
  obtain ⟨hdvd, hle, hlt⟩ := ceilTo_spec largeOffset hpos
  have hhigh := h.high
  have hoffset : largeOffset = 32 := by decide
  have hhalf : segmentSize / 2 = 2097152 := by decide
  have hseg : segmentSize = 4194304 := by decide
  exact ⟨hle, hdvd, by omega⟩

/-- `alloc_large` up to the mapping: it gives up when one of the two sums of its
own wraps, and else asks for the true numbers. -/
theorem allocLarge_eq (h : LargeAlign align) (hpos : 0 < q.size) (hsize : q.size < 2 ^ 64) :
    allocLarge ps q align =
      if ceilTo largeOffset align + q.size + (ps.bytes - 1) < 2 ^ 64 then
        .goto (.large q (ceilTo largeOffset align)
          (ceilTo (ceilTo largeOffset align + q.size) ps.bytes))
      else .ret 0 := by
  obtain ⟨_, _, hlt⟩ := largeOffset_bounds h
  have hseg : segmentSize = 4194304 := by decide
  unfold allocLarge
  rw [largeOffset_eq h]
  generalize ceilTo largeOffset align = offset at hlt ⊢
  dsimp only
  by_cases hsum : offset + q.size < 2 ^ 64
  · rw [Word.add_eq hsum, if_neg (by omega)]
    by_cases hround : offset + q.size + (ps.bytes - 1) < 2 ^ 64
    · obtain ⟨_, hle, _⟩ := ceilTo_spec (offset + q.size) ps.bytes_pos
      rw [if_pos hround, ps.roundUp_eq hround, if_neg (by omega)]
    · rw [if_neg hround, ps.roundUp_wrap hsum (by omega), if_pos (by omega)]
  · rw [Word.add_wrap (by omega) hsize (by omega), if_pos (by omega), if_neg (by omega)]

/-- The call gets as far as `mmap`. -/
def ReachesMmap (ps : PageSize) (q : Request) (align offset mmapSize len : Nat) : Prop :=
  allocLarge ps q align = .goto (.large q offset mmapSize) ∧
    mmapLength ps.bytes mmapSize segmentSize = some len

/-- Which requests get there, and with which numbers. -/
theorem reachesMmap_iff (hps : ps.bytes < segmentSize) (h : LargeAlign align) (hpos : 0 < q.size)
    (hsize : q.size < 2 ^ 64) (offset mmapSize len : Nat) :
    ReachesMmap ps q align offset mmapSize len ↔
      offset = ceilTo largeOffset align ∧ mmapSize = ceilTo (offset + q.size) ps.bytes ∧
      len = mmapSize + segmentSize ∧ len < 2 ^ 64 := by
  have hps0 := ps.bytes_pos
  unfold ReachesMmap
  rw [allocLarge_eq h hpos hsize]
  obtain ⟨hdvd, hle, hlt⟩ :=
    ceilTo_spec (ceilTo largeOffset align + q.size) ps.bytes_pos
  by_cases hround : ceilTo largeOffset align + q.size + (ps.bytes - 1) < 2 ^ 64
  · have hmap : ceilTo (ceilTo largeOffset align + q.size) ps.bytes < 2 ^ 64 := by omega
    rw [if_pos hround, Entry.goto.injEq, Pc.large.injEq]
    constructor
    · rintro ⟨⟨_, rfl, rfl⟩, hlen⟩
      obtain ⟨hm, hlen⟩ := (mmapLength_eq hmap (by decide) len).mp hlen
      unfold mapLength at hlen
      rw [if_neg (by omega)] at hlen
      have := hm.fits hps
      exact ⟨rfl, rfl, hlen, by omega⟩
    · rintro ⟨rfl, rfl, rfl, hlen⟩
      refine ⟨⟨rfl, rfl, rfl⟩, (mmapLength_eq hmap (by decide) _).mpr ⟨⟨by omega, by decide, hdvd,
        PageSize.dvd_segmentSize hps, ⟨22, by decide⟩, fun _ => hlen⟩, ?_⟩⟩
      unfold mapLength
      rw [if_neg (by omega)]
  · rw [if_neg hround]
    refine ⟨(fun ⟨heq, _⟩ => by cases heq), ?_⟩
    rintro ⟨rfl, rfl, rfl, hlen⟩
    omega

/-- Large requests never wrap unnoticed. For every size, every alignment and
every page size: a request that gets as far as `mmap` has the true numbers for
its offset, its region and its over-map, and a request is refused before `mmap`
exactly when the over-map would not fit into a word. -/
theorem large_request_exact (ps : PageSize) (hps : ps.bytes < segmentSize) (q : Request)
    (align : Nat) (h : LargeAlign align) (hpos : 0 < q.size) (hsize : q.size < 2 ^ 64) :
    (∀ offset mmapSize len, ReachesMmap ps q align offset mmapSize len →
      largeOffset ≤ offset ∧ align ∣ offset ∧ offset < segmentSize ∧
      offset + q.size ≤ mmapSize ∧ mmapSize < offset + q.size + ps.bytes ∧ ps.bytes ∣ mmapSize ∧
      len = mmapSize + segmentSize ∧ len < 2 ^ 64) ∧
    ((∀ offset mmapSize len, ¬ ReachesMmap ps q align offset mmapSize len) ↔
      2 ^ 64 ≤ ceilTo (ceilTo largeOffset align + q.size) ps.bytes + segmentSize) ∧
    ((∀ offset mmapSize len, ¬ ReachesMmap ps q align offset mmapSize len) →
      allocLarge ps q align = .ret 0 ∨
      ∃ offset mmapSize, allocLarge ps q align = .goto (.large q offset mmapSize) ∧
        ∀ answer os, osAllocAligned ps answer os mmapSize segmentSize (.large offset) =
          (none, os)) := by
  refine ⟨?_, ?_, ?_⟩
  · intro offset mmapSize len hreach
    obtain ⟨rfl, rfl, rfl, hlen⟩ := (reachesMmap_iff hps h hpos hsize _ _ _).mp hreach
    obtain ⟨hlow, halign, hhigh⟩ := largeOffset_bounds h
    obtain ⟨hdvd, hle, hlt⟩ := ceilTo_spec (ceilTo largeOffset align + q.size) ps.bytes_pos
    exact ⟨hlow, halign, hhigh, hle, hlt, hdvd, rfl, hlen⟩
  · constructor
    · intro hnone
      by_contra hfits
      exact hnone _ _ _ ((reachesMmap_iff hps h hpos hsize _ _ _).mpr
        ⟨rfl, rfl, rfl, Nat.lt_of_not_le hfits⟩)
    · intro hbig offset mmapSize len hreach
      obtain ⟨rfl, rfl, rfl, hlen⟩ := (reachesMmap_iff hps h hpos hsize _ _ _).mp hreach
      omega
  · intro hnone
    have heq : allocLarge ps q align = _ := allocLarge_eq h hpos hsize
    split at heq
    · rename_i hround
      right
      obtain ⟨_, _, hlt⟩ := ceilTo_spec (ceilTo largeOffset align + q.size) ps.bytes_pos
      refine ⟨_, _, heq, fun answer os => osAllocAligned_rejects (by omega) (by decide) ?_ answer⟩
      intro hm
      exact hnone _ _ _ ⟨heq, (mmapLength_eq (by omega) (by decide) _).mpr ⟨hm, rfl⟩⟩
    · exact Or.inl heq

/-- A request of 100000 bytes with an alignment of 64 on pages of 4 KiB. -/
theorem large_request_exact_aligned :
    (∀ offset mmapSize len, ReachesMmap page4k ⟨100000, false, none⟩ 64 offset mmapSize len →
      offset + 100000 ≤ mmapSize ∧ len = mmapSize + segmentSize) ∧
    ReachesMmap page4k ⟨100000, false, none⟩ 64 64 102400 (102400 + segmentSize) := by
  have halign : LargeAlign 64 := ⟨⟨6, by decide⟩, by decide, by decide⟩
  refine ⟨fun offset mmapSize len hreach => ?_, by decide +kernel, by decide +kernel⟩
  have hexact := (large_request_exact page4k (by decide) ⟨100000, false, none⟩ 64 halign (by decide)
    (by decide)).1 offset mmapSize len hreach
  exact ⟨hexact.2.2.2.1, hexact.2.2.2.2.2.2.1⟩

end Arithmetic

end HMalloc
