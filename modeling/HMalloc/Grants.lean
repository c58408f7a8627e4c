import HMalloc.Blocks

/-!
The pointers that are handed out: their ranges are disjoint, lie in a mapped
region behind its metadata, and their page or region is recovered from the
address alone. Writes into them, and into another allocator's memory, leave
the invariant as it is.
-/

namespace HMalloc

open Bytes Linked

/-- Masking and shifting any address of a page's area recovers the page. -/
theorem RegionsOk.pageOf_area {mapped : Nat → Bool} {regions : Nat → Option Region}
    (hr : RegionsOk mapped regions) {pg : PageId} (hpg : IsPage (IsSegment regions) pg) {a : Nat}
    (hlo : pg.start ≤ a) (hhi : a < pg.start + pageSize) :
    regionBase a = pg.seg ∧ pageOf a = pg := by
  obtain ⟨_, hdvd, hbound⟩ := hr.segment hpg.1
  have hb := hpg.area_bounds
  have hlt := hpg.idx_lt
  obtain ⟨d, rfl⟩ : ∃ d, a = pg.seg + (pg.idx * pageSize + d) :=
    ⟨a - pg.start, by simp only [PageId.start] at *; omega⟩
  have hd : d < pageSize := by
    simp only [PageId.start] at *
    omega
  have hbase : regionBase (pg.seg + (pg.idx * pageSize + d)) = pg.seg := by
    apply regionBase_add hdvd
    · simp only [PageId.start] at *
      omega
    · omega
  have hidx : pageIndexOf (pg.seg + (pg.idx * pageSize + d)) = pg.idx :=
    pageIndexOf_add hdvd hlt hd
  exact ⟨hbase, by rw [pageOf, hbase, hidx]⟩

namespace Inv

variable {ps : PageSize} {s : Store} {G : Ghost}

theorem page_inService (h : Inv ps s G) {pg : PageId} (hpg : IsPage (IsSegment s.os.regions) pg)
    {a : Nat} (ha : a ∈ (G.page pg).free ∨ a ∈ (G.page pg).remote ∨ a ∈ (G.page pg).out) :
    InService s.os.mem (s.page.row pg) (G.page pg) :=
  (h.pages pg hpg).inService ((h.pages pg hpg).loc_of_mem ha)

/-- What is known of a block that is out. -/
structure SmallGrant (s : Store) (G : Ghost) (p : Nat) (g : Grant) (pg : PageId) (i : Nat) :
    Prop where
  page : IsPage (IsSegment s.os.regions) pg
  inService : InService s.os.mem (s.page.row pg) (G.page pg)
  out : p ∈ (G.page pg).out
  block : p = (s.page.row pg).block i
  lt : i < (s.page.row pg).capacity
  area : s.page.area pg = pg.start
  usable : g.usable = s.page.blockSize pg
  size : g.size ≤ g.usable

theorem smallGrant (h : Inv ps s G) {p : Nat} {g : Grant} {pg : PageId} {i : Nat}
    (hg : s.grants p = some g) (ho : g.origin = .small pg i) : SmallGrant s G p g pg i := by
  obtain ⟨hpg, hout, hblock, husable, hsize⟩ := h.grants.small p g pg i hg ho
  have hin := h.page_inService hpg (Or.inr (Or.inr hout))
  obtain ⟨j, hj, heq⟩ := hin.exists_slot (Or.inr (Or.inr hout))
  have hij : i = j := hin.block_injective (hblock.symm.trans heq)
  exact ⟨hpg, hin, hout, hblock, hij ▸ hj, (h.pages pg hpg).area, husable, hsize⟩

/-- A block has room for two words. -/
theorem SmallGrant.two_words {p : Nat} {g : Grant} {pg : PageId} {i : Nat}
    (h : SmallGrant s G p g pg i) : 16 ≤ g.usable := by
  rw [h.usable]
  exact h.inService.block_size.2.1

theorem SmallGrant.bounds {p : Nat} {g : Grant} {pg : PageId} {i : Nat}
    (h : SmallGrant s G p g pg i) : pg.start ≤ p ∧ p + g.usable ≤ pg.start + pageSize := by
  have hb := h.inService.slot_bounds h.lt
  have harea : (s.page.row pg).area = pg.start := h.area
  have hu : g.usable = (s.page.row pg).blockSize := h.usable
  rw [← h.block, harea] at hb
  rw [hu]
  exact hb

/-- A pointer that is handed out shares no byte with another slot of a page. -/
theorem grant_slot_disjoint (h : Inv ps s G) {p : Nat} {g : Grant} (hg : s.grants p = some g)
    {pg : PageId} (hpg : IsPage (IsSegment s.os.regions) pg)
    (hin : InService s.os.mem (s.page.row pg) (G.page pg)) {i : Nat}
    (hi : i < (s.page.row pg).capacity) (hne : (s.page.row pg).block i ≠ p) :
    p + g.usable ≤ (s.page.row pg).block i ∨
      (s.page.row pg).block i + (s.page.row pg).blockSize ≤ p := by
  have hb := hin.slot_bounds hi
  have harea : (s.page.row pg).area = pg.start := (h.pages pg hpg).area
  cases ho : g.origin with
  | small pg' j =>
      have hs := h.smallGrant hg ho
      by_cases hpp : pg' = pg
      · subst hpp
        have hu : g.usable = (s.page.row pg').blockSize := hs.usable
        have hd := hin.slots_disjoint (i := i) (j := j) (by rw [← hs.block]; exact hne)
        rw [← hs.block] at hd
        omega
      · have hd := h.regions.pages_disjoint hs.page hpg hpp
        have hb' := hs.bounds
        omega
  | large b =>
      obtain ⟨size, offset, hreg, rfl, husable, _⟩ := h.grants.large p g b hg ho
      have hd := h.regions.page_region_disjoint hpg hreg (by simp)
      have hlarge := h.regions.large b size offset hreg
      simp only at hd
      omega

/-- No two pointers that are handed out overlap. -/
theorem grants_disjoint (h : Inv ps s G) {p q : Nat} {g g' : Grant} (hp : s.grants p = some g)
    (hq : s.grants q = some g') (hne : p ≠ q) :
    p + g.usable ≤ q ∨ q + g'.usable ≤ p := by
  cases ho : g.origin with
  | small pg i =>
      have hs := h.smallGrant hp ho
      have hu : g.usable = (s.page.row pg).blockSize := hs.usable
      have hd := h.grant_slot_disjoint hq hs.page hs.inService hs.lt (by rw [← hs.block]; exact hne)
      rw [← hs.block] at hd
      omega
  | large b =>
      cases ho' : g'.origin with
      | small pg i =>
          have hs := h.smallGrant hq ho'
          have hu : g'.usable = (s.page.row pg).blockSize := hs.usable
          have hd := h.grant_slot_disjoint hp hs.page hs.inService hs.lt
            (by rw [← hs.block]; exact fun heq => hne heq.symm)
          rw [← hs.block] at hd
          omega
      | large b' =>
          obtain ⟨size, offset, hreg, rfl, husable, _⟩ := h.grants.large p g b hp ho
          obtain ⟨size', offset', hreg', rfl, husable', _⟩ := h.grants.large q g' b' hq ho'
          have hl := h.regions.large b size offset hreg
          have hl' := h.regions.large b' size' offset' hreg'
          have hbb : b ≠ b' := by
            rintro rfl
            rw [hreg] at hreg'
            cases hreg'
            exact hne rfl
          have hd := h.regions.disjoint _ _ _ _ hreg hreg' hbb
          simp only at hd
          omega

/-- A pointer that is handed out lies in one region, behind its metadata. -/
theorem grant_in_region (h : Inv ps s G) {p : Nat} {g : Grant} (hg : s.grants p = some g) :
    ∃ b r, s.os.regions b = some r ∧ p + g.usable ≤ b + r.size ∧ 0 < g.usable ∧
      ((r.purpose = .small ∧ b + pageSize ≤ p) ∨
        (∃ offset, r.purpose = .large offset ∧ p = b + offset ∧ largeOffset ≤ offset)) := by
  cases ho : g.origin with
  | small pg i =>
      have hs := h.smallGrant hg ho
      have hb := hs.bounds
      have hseg := hs.page.area_bounds
      have hpos := hs.inService.block_size.2.1
      have hu : g.usable = (s.page.row pg).blockSize := hs.usable
      exact ⟨pg.seg, _, hs.page.1, by simp only; omega, by omega, Or.inl ⟨rfl, by omega⟩⟩
  | large b =>
      obtain ⟨size, offset, hreg, rfl, husable, _⟩ := h.grants.large p g b hg ho
      have hl := h.regions.large b size offset hreg
      exact ⟨b, _, hreg, by simp only; omega, by omega,
        Or.inr ⟨offset, rfl, rfl, hl.2.1⟩⟩

theorem grant_within (h : Inv ps s G) {p : Nat} {g : Grant} (hg : s.grants p = some g) :
    ∃ b r, s.os.regions b = some r ∧ b ≤ p ∧ p + g.usable ≤ b + r.size := by
  obtain ⟨b, r, hb, hle, _, hcase⟩ := h.grant_in_region hg
  refine ⟨b, r, hb, ?_, hle⟩
  rcases hcase with ⟨_, hlow⟩ | ⟨offset, _, rfl, _⟩ <;> omega

theorem grant_ne_zero (h : Inv ps s G) {p : Nat} {g : Grant} (hg : s.grants p = some g) :
    p ≠ 0 := by
  obtain ⟨b, r, hreg, hle, _⟩ := h.grant_within hg
  have hpos := (h.regions.range b r hreg).1
  omega

/-- Every pointer that is handed out is 16-aligned. -/
theorem grant_aligned (h : Inv ps s G) {p : Nat} {g : Grant} (hg : s.grants p = some g) :
    allocAlign ∣ p := by
  cases ho : g.origin with
  | small pg i =>
      have hs := h.smallGrant hg ho
      have hseg := (h.regions.segment hs.page.1).2.1
      have harea : (s.page.row pg).area = pg.start := hs.area
      rw [hs.block, PageState.block, harea]
      apply Nat.dvd_add
      · exact Nat.dvd_add (Nat.dvd_trans (by decide) hseg)
          (Nat.dvd_mul_left_of_dvd (by decide) _)
      · exact Nat.dvd_mul_left_of_dvd hs.inService.block_size.1 _
  | large b =>
      obtain ⟨size, offset, hreg, rfl, _, _⟩ := h.grants.large p g b hg ho
      obtain ⟨hb, _, hoff, _, _⟩ := h.regions.large b size offset hreg
      exact Nat.dvd_add (Nat.dvd_trans (by decide) hb) hoff

/-- The mask and the shift recover the origin of a small block. -/
theorem decode_small (h : Inv ps s G) {p : Nat} {g : Grant} {pg : PageId} {i : Nat}
    (hg : s.grants p = some g) (ho : g.origin = .small pg i) :
    regionBase p = pg.seg ∧ isLarge s.os.mem p = false ∧ pageOf p = pg := by
  have hs := h.smallGrant hg ho
  have hb := hs.bounds
  have hpos := hs.inService.block_size.2.1
  have hu : g.usable = (s.page.row pg).blockSize := hs.usable
  obtain ⟨hbase, hpage⟩ := h.regions.pageOf_area hs.page hb.1 (by omega)
  refine ⟨hbase, ?_, hpage⟩
  simp [isLarge, hbase, h.tags.small pg.seg _ hs.page.1]

/-- The mask recovers the origin of a large block, however long its region. -/
theorem decode_large (h : Inv ps s G) {p : Nat} {g : Grant} {b : Nat}
    (hg : s.grants p = some g) (ho : g.origin = .large b) :
    regionBase p = b ∧ isLarge s.os.mem p = true := by
  obtain ⟨size, offset, hreg, rfl, _, _⟩ := h.grants.large p g b hg ho
  obtain ⟨hb, _, _, hlt, hsz⟩ := h.regions.large b size offset hreg
  have hrange := (h.regions.range b _ hreg).2.2
  have hbase : regionBase (b + offset) = b := regionBase_add hb hlt (by simp only at hrange; omega)
  exact ⟨hbase, by simp [isLarge, hbase, (h.tags.large b size offset hreg).1]⟩

/-- `hm_usable_size` answers the recorded usable size. -/
theorem usableSize_eq (h : Inv ps s G) {p : Nat} {g : Grant} (hg : s.grants p = some g) :
    usableSize s p = g.usable := by
  have hne := h.grant_ne_zero hg
  unfold usableSize
  rw [if_neg hne]
  cases ho : g.origin with
  | small pg i =>
      obtain ⟨_, htag, hpage⟩ := h.decode_small hg ho
      rw [htag, hpage, (h.smallGrant hg ho).usable]
      rfl
  | large b =>
      obtain ⟨hbase, htag⟩ := h.decode_large hg ho
      obtain ⟨size, offset, hreg, _, husable, _⟩ := h.grants.large p g b hg ho
      obtain ⟨_, hsize, hoffset⟩ := h.tags.large b size offset hreg
      obtain ⟨_, _, _, _, hlt⟩ := h.regions.large b size offset hreg
      have hrange := h.regions.range b _ hreg
      rw [htag, if_pos rfl, hbase, hsize, hoffset, husable]
      exact Word.sub_eq (by simp only at hrange; omega) (by omega)

/-- The headers are outside every pointer that is handed out. -/
theorem grant_header_disjoint (h : Inv ps s G) {p : Nat} {g : Grant} (hg : s.grants p = some g)
    {b : Nat} {r : Region} (hb : s.os.regions b = some r)
    (hp : r.purpose.Tagged) : p + g.usable ≤ b ∨ b + largeOffset ≤ p := by
  obtain ⟨b', r', hreg, hle, hpos, hcase⟩ := h.grant_in_region hg
  have hoff : largeOffset = 32 := by decide
  have hpage : pageSize = 65536 := rfl
  have hsize := h.regions.header_fits hb hp
  by_cases hbb : b = b'
  · subst hbb
    rcases hcase with ⟨_, hle'⟩ | ⟨offset, _, rfl, hle'⟩ <;> omega
  · have hd := h.regions.disjoint _ _ _ _ hb hreg hbb
    rcases hcase with ⟨_, hle'⟩ | ⟨offset, _, rfl, hle'⟩ <;> omega

/-- The invariant depends on the bytes of headers and link words only. -/
theorem setMem (h : Inv ps s G) {mem : Mem}
    (htags : ∀ b r, s.os.regions b = some r → r.purpose.Tagged →
      ∀ x, b ≤ x → x < b + largeOffset → mem x = s.os.mem x)
    (hlinks : ∀ pg, IsPage (IsSegment s.os.regions) pg → ∀ a,
      a ∈ (G.page pg).free ∨ a ∈ (G.page pg).remote →
        ∀ x, a ≤ x → x < a + 8 → mem x = s.os.mem x) :
    Inv ps { s with os := { s.os with mem := mem } } G :=
  { h with
    tags := h.tags.congr htags
    pages := fun pg hpg => (h.pages pg hpg).congr (hlinks pg hpg) }

/-- A free block is not the address of a pointer that is handed out. -/
theorem free_ne_grant (h : Inv ps s G) {pg : PageId}
    (hpg : IsPage (IsSegment s.os.regions) pg) {a : Nat}
    (ha : a ∈ (G.page pg).free ∨ a ∈ (G.page pg).remote) {p : Nat} {g : Grant}
    (hg : s.grants p = some g) : a ≠ p := by
  rintro rfl
  have hin := h.page_inService hpg (by tauto : a ∈ (G.page pg).free ∨ _)
  cases ho : g.origin with
  | small pg' j =>
      have hs := h.smallGrant hg ho
      by_cases hpp : pg' = pg
      · subst hpp
        have hnod := List.nodup_append.mp hin.nodup
        exact hnod.2.2 a (List.mem_append.mpr ha) a hs.out rfl
      · obtain ⟨i, hi, heq⟩ := hin.exists_slot (a := a) (by tauto)
        have hd := h.regions.pages_disjoint hs.page hpg hpp
        have hb := hs.bounds
        have hb' := hin.slot_bounds hi
        have harea : (s.page.row pg).area = pg.start := (h.pages pg hpg).area
        have hpos := hs.inService.block_size.2.1
        have hu : g.usable = (s.page.row pg').blockSize := hs.usable
        have hpos' := hin.block_size.2.1
        omega
  | large b =>
      obtain ⟨i, hi, heq⟩ := hin.exists_slot (a := a) (by tauto)
      obtain ⟨size, offset, hreg, hp, _, _⟩ := h.grants.large a g b hg ho
      have hl := h.regions.large b size offset hreg
      have hd := h.regions.page_region_disjoint hpg hreg (by simp)
      have hb' := hin.slot_bounds hi
      have harea : (s.page.row pg).area = pg.start := (h.pages pg hpg).area
      have hpos' := hin.block_size.2.1
      simp only at hd
      omega

/-- A free block shares no byte with a pointer that is handed out. -/
theorem free_grant_disjoint (h : Inv ps s G) {pg : PageId}
    (hpg : IsPage (IsSegment s.os.regions) pg) {a : Nat}
    (ha : a ∈ (G.page pg).free ∨ a ∈ (G.page pg).remote) {p : Nat} {g : Grant}
    (hg : s.grants p = some g) :
    p + g.usable ≤ a ∨ a + (s.page.row pg).blockSize ≤ p := by
  have hin := h.page_inService hpg (by tauto : a ∈ (G.page pg).free ∨ _)
  obtain ⟨i, hi, heq⟩ := hin.exists_slot (a := a) (by tauto)
  rw [heq]
  exact h.grant_slot_disjoint hg hpg hin hi (by rw [← heq]; exact h.free_ne_grant hpg ha hg)

/-- Writing into a pointer that is handed out keeps the invariant. -/
theorem write_grant (h : Inv ps s G) {p : Nat} {g : Grant} (hg : s.grants p = some g) {mem : Mem}
    (hsame : ∀ x, x < p ∨ p + g.usable ≤ x → mem x = s.os.mem x) :
    Inv ps { s with os := { s.os with mem := mem } } G := by
  apply h.setMem
  · intro b r hb hp x hlo hhi
    have hd := h.grant_header_disjoint hg hb hp
    exact hsame x (by omega)
  · intro pg hpg a ha x hlo hhi
    have hd := h.free_grant_disjoint hpg ha hg
    have hin := h.page_inService hpg (by tauto : a ∈ (G.page pg).free ∨ _)
    have hpos := hin.block_size.2.1
    exact hsame x (by omega)

/-- Another allocator writing into its own memory keeps the invariant. -/
theorem write_foreign (h : Inv ps s G) {b size : Nat}
    (hb : s.os.regions b = some ⟨size, .foreign⟩) {mem : Mem}
    (hsame : ∀ x, x < b ∨ b + size ≤ x → mem x = s.os.mem x) :
    Inv ps { s with os := { s.os with mem := mem } } G := by
  apply h.setMem
  · intro b' r hb' hp x hlo hhi
    have hbb : b' ≠ b := by
      rintro rfl
      rw [hb] at hb'
      cases hb'
      simp [Purpose.Tagged] at hp
    have hd := h.regions.disjoint _ _ _ _ hb' hb hbb
    have hsize := h.regions.header_fits hb' hp
    simp only at hd
    exact hsame x (by omega)
  · intro pg hpg a ha x hlo hhi
    have hin := h.page_inService hpg (by tauto : a ∈ (G.page pg).free ∨ _)
    obtain ⟨i, hi, heq⟩ := hin.exists_slot (a := a) (by tauto)
    have hslot := hin.slot_bounds hi
    have harea : (s.page.row pg).area = pg.start := (h.pages pg hpg).area
    have hpos := hin.block_size.2.1
    have hd := h.regions.page_region_disjoint hpg hb (by simp)
    simp only at hd
    exact hsame x (by omega)

end Inv

end HMalloc
