import HMalloc.Invariant

/-!
The geometry of the blocks: pages lie in their segments and apart from each
other, blocks lie in their pages and apart from each other, and a pointer that
is handed out shares no byte with any other slot of any page. From this, which
writes to memory leave the invariant alone.
-/

namespace HMalloc

open Bytes Linked

theorem IsPage.idx_pos {S : Nat → Prop} {pg : PageId} (h : IsPage S pg) : 1 ≤ pg.idx := h.2.1

theorem IsPage.idx_lt {S : Nat → Prop} {pg : PageId} (h : IsPage S pg) : pg.idx < 64 := h.2.2

theorem RegionsOk.segment {mapped : Nat → Bool} {regions : Nat → Option Region}
    (h : RegionsOk mapped regions) {b : Nat} (hb : IsSegment regions b) :
    b ≠ 0 ∧ segmentSize ∣ b ∧ b + segmentSize ≤ 2 ^ 64 :=
  ⟨(h.range b _ hb).1, (h.small b _ hb).1, (h.range b _ hb).2.2⟩

section Geometry

variable {mapped : Nat → Bool} {regions : Nat → Option Region}

/-- A page's area lies in its segment, behind the first page. -/
theorem IsPage.area_bounds {S : Nat → Prop} {pg : PageId} (h : IsPage S pg) :
    pg.seg + pageSize ≤ pg.start ∧ pg.start + pageSize ≤ pg.seg + segmentSize := by
  have h1 := h.idx_pos
  have h2 := h.idx_lt
  simp only [PageId.start, pageSize, segmentSize]
  omega

theorem IsPage.ne_emptyPage (hr : RegionsOk mapped regions) {pg : PageId}
    (h : IsPage (IsSegment regions) pg) : pg ≠ emptyPage := by
  rintro rfl
  exact (hr.segment h.1).1 rfl

/-- Two pages have disjoint areas. -/
theorem RegionsOk.pages_disjoint (hr : RegionsOk mapped regions) {pg pg' : PageId}
    (h : IsPage (IsSegment regions) pg) (h' : IsPage (IsSegment regions) pg')
    (hne : pg ≠ pg') : pg.start + pageSize ≤ pg'.start ∨ pg'.start + pageSize ≤ pg.start := by
  have hb := h.area_bounds
  have hb' := h'.area_bounds
  by_cases hseg : pg.seg = pg'.seg
  · have hidx : pg.idx ≠ pg'.idx := by
      intro heq
      apply hne
      cases pg
      cases pg'
      simp_all
    simp only [PageId.start, pageSize, hseg]
    omega
  · have hd := hr.disjoint _ _ _ _ h.1 h'.1 hseg
    simp only at hd
    omega

/-- A page's area is apart from every other region. -/
theorem RegionsOk.page_region_disjoint (hr : RegionsOk mapped regions) {pg : PageId}
    (h : IsPage (IsSegment regions) pg) {b : Nat} {r : Region} (hb : regions b = some r)
    (hne : r.purpose ≠ .small) : b + r.size ≤ pg.start ∨ pg.start + pageSize ≤ b := by
  have hbounds := h.area_bounds
  have hseg : pg.seg ≠ b := by
    rintro rfl
    have := h.1.symm.trans hb
    cases this
    exact hne rfl
  have hd := hr.disjoint _ _ _ _ h.1 hb hseg
  simp only at hd
  omega

/-- What the allocator's own regions are for. -/
def Purpose.Tagged (purpose : Purpose) : Prop := purpose = .small ∨ ∃ o, purpose = .large o

theorem RegionsOk.header_fits (hr : RegionsOk mapped regions) {b : Nat} {r : Region}
    (hb : regions b = some r) (hp : r.purpose.Tagged) : largeOffset ≤ r.size := by
  have hoff : largeOffset = 32 := by decide
  have hseg : segmentSize = 4194304 := rfl
  obtain ⟨size, purpose⟩ := r
  simp only at hp ⊢
  rcases hp with rfl | ⟨o, rfl⟩
  · have := (hr.small b size hb).2
    omega
  · have := hr.large b size o hb
    omega

/-- The header of every region of the allocator is outside every page. -/
theorem RegionsOk.page_header_disjoint (hr : RegionsOk mapped regions) {pg : PageId}
    (h : IsPage (IsSegment regions) pg) {b : Nat} {r : Region} (hb : regions b = some r)
    (hp : r.purpose.Tagged) : b + largeOffset ≤ pg.start ∨ pg.start + pageSize ≤ b := by
  have hbounds := h.area_bounds
  have hsize := hr.header_fits hb hp
  by_cases hseg : pg.seg = b
  · have : largeOffset ≤ pageSize := by decide
    omega
  · have hd := hr.disjoint _ _ _ _ h.1 hb hseg
    simp only at hd
    omega

end Geometry

/-- The tags depend on the headers only. -/
theorem TagsOk.congr {mem mem' : Mem} {regions : Nat → Option Region} (h : TagsOk mem regions)
    (hsame : ∀ b r, regions b = some r → r.purpose.Tagged →
      ∀ x, b ≤ x → x < b + largeOffset → mem' x = mem x) : TagsOk mem' regions := by
  have hoff : largeOffset = 32 := by decide
  constructor
  · intro b size hb
    rw [hsame b _ hb (Or.inl rfl) b (Nat.le_refl b) (by omega)]
    exact h.small b size hb
  · intro b size offset hb
    have hx := hsame b _ hb (Or.inr ⟨offset, rfl⟩)
    obtain ⟨htag, hsize, hoffset⟩ := h.large b size offset hb
    refine ⟨(hx b (Nat.le_refl b) (by omega)).trans htag, ?_, ?_⟩
    · rw [← hsize]
      exact readWord_congr (fun x hlo hhi => hx x (by omega) (by omega))
    · rw [← hoffset]
      exact readWord_congr (fun x hlo hhi => hx x (by omega) (by omega))

namespace InService

variable {mem mem' : Mem} {v : PageState} {g : PageGhost}

theorem block_size (h : InService mem v g) :
    16 ∣ v.blockSize ∧ 16 ≤ v.blockSize ∧ v.blockSize ≤ 16384 := by
  rw [h.blockSize]
  exact classToSize_spec h.cls

theorem capacity_le (h : InService mem v g) : v.capacity ≤ 4096 := by
  rw [h.capacity]
  exact (Nat.div_le_div_left h.block_size.2.1 (by decide)).trans (by decide)

/-- A slot of the page lies in the page. -/
theorem slot_bounds (h : InService mem v g) {i : Nat} (hi : i < v.capacity) :
    v.area ≤ v.block i ∧ v.block i + v.blockSize ≤ v.area + pageSize := by
  have hcap := h.capacity
  have hmul : (i + 1) * v.blockSize ≤ pageSize :=
    calc (i + 1) * v.blockSize ≤ v.capacity * v.blockSize := Nat.mul_le_mul_right _ hi
      _ = pageSize / v.blockSize * v.blockSize := by rw [hcap]
      _ ≤ pageSize := Nat.div_mul_le_self _ _
  rw [Nat.add_mul] at hmul
  simp only [PageState.block]
  omega

theorem slots_disjoint (_ : InService mem v g) {i j : Nat}
    (hne : v.block i ≠ v.block j) :
    v.block i + v.blockSize ≤ v.block j ∨ v.block j + v.blockSize ≤ v.block i := by
  have key : ∀ {i j : Nat}, i < j → v.block i + v.blockSize ≤ v.block j := by
    intro i j hij
    have hmul : (i + 1) * v.blockSize ≤ j * v.blockSize := Nat.mul_le_mul_right _ hij
    rw [Nat.add_mul] at hmul
    simp only [PageState.block]
    omega
  rcases Nat.lt_trichotomy i j with hlt | heq | hgt
  · exact Or.inl (key hlt)
  · exact absurd (by rw [heq]) hne
  · exact Or.inr (key hgt)

theorem block_injective (h : InService mem v g) {i j : Nat} (heq : v.block i = v.block j) :
    i = j := by
  have hpos := h.block_size.2.1
  simp only [PageState.block, Nat.add_left_cancel_iff] at heq
  exact Nat.eq_of_mul_eq_mul_right (by omega) heq

/-- The three lists together repeat no block. -/
theorem nodup (h : InService mem v g) : (g.free ++ g.remote ++ g.out).Nodup := by
  refine h.blocks.nodup_iff.mpr (List.Nodup.map_on ?_ List.nodup_range)
  intro i _ j _ heq
  exact h.block_injective heq

theorem mem_blocks (h : InService mem v g) {a : Nat} :
    (a ∈ g.free ∨ a ∈ g.remote ∨ a ∈ g.out) ↔ ∃ i, i < v.reserved ∧ a = v.block i := by
  have := h.blocks.mem_iff (a := a)
  simp only [List.mem_append, List.mem_map, List.mem_range, or_assoc] at this
  rw [this]
  constructor
  · rintro ⟨i, hi, rfl⟩
    exact ⟨i, hi, rfl⟩
  · rintro ⟨i, hi, rfl⟩
    exact ⟨i, hi, rfl⟩

/-- A block is a slot of its page. -/
theorem exists_slot (h : InService mem v g) {a : Nat}
    (ha : a ∈ g.free ∨ a ∈ g.remote ∨ a ∈ g.out) : ∃ i, i < v.capacity ∧ a = v.block i := by
  obtain ⟨i, hi, rfl⟩ := h.mem_blocks.mp ha
  exact ⟨i, Nat.lt_of_lt_of_le hi h.reserved, rfl⟩

theorem used_le (h : InService mem v g) : v.used + g.free.length = v.reserved := by
  have hlen := h.blocks.length_eq
  have hused := h.used
  simp only [List.length_append, List.length_map, List.length_range] at hlen
  omega

theorem used_lt (h : InService mem v g) : v.used ≤ 4096 := by
  have h1 := h.used_le
  have h2 := h.reserved
  have h3 := h.capacity_le
  omega

/-- A page in service depends on the link words of its free blocks only. -/
theorem congr (h : InService mem v g)
    (hsame : ∀ a, a ∈ g.free ∨ a ∈ g.remote → ∀ x, a ≤ x → x < a + 8 → mem' x = mem x) :
    InService mem' v g :=
  { h with
    free := h.free.congr (fun a ha => link_congr (hsame a (Or.inl ha)))
    remote := h.remote.congr (fun a ha => link_congr (hsame a (Or.inr ha))) }

end InService

theorem PageOk.inService {mem : Mem} {v : PageState} {g : PageGhost} {pg : PageId}
    (h : PageOk mem v g pg) (hloc : g.loc ≠ .pool ∧ g.loc ≠ .limbo) : InService mem v g := by
  have hl := h.loc
  unfold LocOk at hl
  split at hl
  · exact absurd ‹_› hloc.1
  · exact hl.2.2
  · exact hl.2
  · exact absurd ‹_› hloc.2

/-- A page with a block on one of its lists is in service. -/
theorem PageOk.loc_of_mem {mem : Mem} {v : PageState} {g : PageGhost} {pg : PageId}
    (h : PageOk mem v g pg) {a : Nat} (ha : a ∈ g.free ∨ a ∈ g.remote ∨ a ∈ g.out) :
    g.loc ≠ .pool ∧ g.loc ≠ .limbo := by
  have hl := h.loc
  unfold LocOk at hl
  constructor
  · intro heq
    rw [heq] at hl
    simp [hl.2.2.free, hl.2.2.remote, hl.2.2.out] at ha
  · intro heq
    rw [heq] at hl
    simp [hl.free, hl.remote, hl.out] at ha

theorem PageOk.congr {mem mem' : Mem} {v : PageState} {g : PageGhost} {pg : PageId}
    (h : PageOk mem v g pg)
    (hsame : ∀ a, a ∈ g.free ∨ a ∈ g.remote → ∀ x, a ≤ x → x < a + 8 → mem' x = mem x) :
    PageOk mem' v g pg := by
  refine ⟨h.area, ?_⟩
  have hl := h.loc
  unfold LocOk at hl ⊢
  split at hl
  · exact hl
  · exact ⟨hl.1, hl.2.1, hl.2.2.congr hsame⟩
  · exact ⟨hl.1, hl.2.congr hsame⟩
  · exact hl

/-- In particular a page does not depend on memory outside of it. -/
theorem PageOk.congr_outside {mem mem' : Mem} {v : PageState} {g : PageGhost} {pg : PageId}
    (h : PageOk mem v g pg)
    (hsame : ∀ x, pg.start ≤ x → x < pg.start + pageSize → mem' x = mem x) :
    PageOk mem' v g pg := by
  apply h.congr
  intro a ha
  have hmem : a ∈ g.free ∨ a ∈ g.remote ∨ a ∈ g.out := by tauto
  have hin := h.inService (h.loc_of_mem hmem)
  obtain ⟨i, hi, rfl⟩ := hin.exists_slot hmem
  have hb := hin.slot_bounds hi
  have hs := hin.block_size.2.1
  have harea := h.area
  intro x hlo hhi
  exact hsame x (by omega) (by omega)

end HMalloc
