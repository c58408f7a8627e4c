import HMalloc.Regions

/-!
Large regions (`alloc_large`, `free_large`): the header that `alloc_large`
writes is read back by every decoder, and mapping or unmapping a large region
moves exactly one pointer in or out of the set that is handed out.
-/

namespace HMalloc

open Bytes Linked

theorem largeHeader_outside (mem : Mem) (b mmapSize offset size : Nat) {x : Nat}
    (h : x < b ∨ b + largeOffset ≤ x) : largeHeader mem b mmapSize offset size x = mem x := by
  have hoff : largeOffset = 32 := by decide
  unfold largeHeader
  rw [writeWord_outside _ _ _ _ (by omega), writeWord_outside _ _ _ _ (by omega),
    writeWord_outside _ _ _ _ (by omega), writeWord_outside _ _ _ _ (by omega)]

theorem largeHeader_kind (mem : Mem) (b mmapSize offset size : Nat) :
    largeHeader mem b mmapSize offset size b = 1 := by
  unfold largeHeader
  rw [writeWord_outside _ _ _ _ (by omega), writeWord_outside _ _ _ _ (by omega),
    writeWord_outside _ _ _ _ (by omega), writeWord_low]
  rfl

theorem largeHeader_mmapSize (mem : Mem) (b mmapSize offset size : Nat) (h : mmapSize < 2 ^ 64) :
    largeMmapSize (largeHeader mem b mmapSize offset size) b = mmapSize := by
  unfold largeMmapSize largeHeader
  rw [readWord_writeWord_disjoint _ _ _ _ (by omega),
    readWord_writeWord_disjoint _ _ _ _ (by omega), readWord_writeWord _ _ _ h]

theorem largeHeader_offset (mem : Mem) (b mmapSize offset size : Nat) (h : offset < 2 ^ 64) :
    largeHeaderOffset (largeHeader mem b mmapSize offset size) b = offset := by
  unfold largeHeaderOffset largeHeader
  rw [readWord_writeWord_disjoint _ _ _ _ (by omega), readWord_writeWord _ _ _ h]

namespace Inv

variable {ps : PageSize} {s : Store} {G : Ghost}

theorem fresh_not_granted (h : Inv ps s G) {os : Os} {r size : Nat} {purpose : Purpose}
    (hm : s.os.Mapped os r size purpose) {p : Nat} (hlo : r ≤ p) (hhi : p < r + size) :
    s.grants p = none := by
  cases hg : s.grants p with
  | none => rfl
  | some g =>
      have hd := h.grant_outside_fresh hm hg
      obtain ⟨_, _, _, _, hpos, _⟩ := h.grant_in_region hg
      omega

/-- `alloc_large` maps a region, writes its header and has its pointer. -/
theorem mapLarge (h : Inv ps s G) {os : Os} {b size offset : Nat}
    (hm : s.os.Mapped os b size (.large offset)) (hb : segmentSize ∣ b)
    (hoff : largeOffset ≤ offset) (hdvd : allocAlign ∣ offset) (hlt : offset < segmentSize)
    (hfit : offset < size) (asked : Nat) {gr : Grant} (horigin : gr.origin = .large b)
    (husable : gr.usable = size - offset) (hsize : gr.size ≤ gr.usable) :
    Inv ps { s with
      os := { os with mem := largeHeader os.mem b size offset asked }
      grants := Function.update s.grants (b + offset) (some gr) } G := by
  have hr : RegionsOk os.mapped os.regions := by
    refine h.regions.map hm (by simp) ?_
    rintro _ ⟨rfl⟩
    exact ⟨hb, hoff, hdvd, hlt, hfit⟩
  have hnone := hm.unmapped_before h.regions
  have hkeep : ∀ b' r, s.os.regions b' = some r → os.regions b' = some r :=
    fun b' r => hm.regions_kept h.regions
  have hback : ∀ b' r, os.regions b' = some r → r.purpose ≠ .large offset →
      s.os.regions b' = some r := by
    exact fun b' r hb' hne => (hm.keeps h.regions b' r hne).mp hb'
  have hseg : IsSegment os.regions = IsSegment s.os.regions := by
    funext b'
    exact propext ⟨fun hb' => hback b' _ hb' (by simp), hkeep b' _⟩
  -- Bytes of older regions are neither in the new region nor in its header.
  have hmem : ∀ b' r, s.os.regions b' = some r → ∀ x, b' ≤ x → x < b' + r.size →
      largeHeader os.mem b size offset asked x = s.os.mem x := by
    intro b' r hb' x hlo hhi
    have hd := hm.disjoint h.regions hb'
    rw [largeHeader_outside _ _ _ _ _ (by omega)]
    exact hm.mem_old x (h.regions.mapped b' r hb' x hlo hhi)
  have hbound := hm.bound
  have hbase := hm.ne_zero
  refine ⟨hr, ?_, ?_, ?_, ?_, ?_, h.sentinel⟩
  · have htags : TagsOk (largeHeader os.mem b size offset asked) s.os.regions := by
      apply h.tags.congr
      intro b' r hb' hp x hlo hhi
      have := h.regions.header_fits hb' hp
      exact hmem b' r hb' x hlo (by omega)
    constructor
    · intro b' sz hb'
      exact htags.small b' sz (hback b' _ hb' (by simp))
    · intro b' sz o hb'
      change os.regions b' = _ at hb'
      rw [hm.regions] at hb'
      rcases PartialMap.insert_eq_some.mp hb' with ⟨rfl, heq⟩ | ⟨_, hb'⟩
      · cases heq
        exact ⟨largeHeader_kind _ _ _ _ _, largeHeader_mmapSize _ _ _ _ _ (by omega),
          largeHeader_offset _ _ _ _ _ (by omega)⟩
      · exact htags.large b' sz o hb'
  · intro pg hpg
    change IsPage (IsSegment os.regions) pg at hpg
    rw [hseg] at hpg
    apply (h.pages pg hpg).congr_outside
    intro x hlo hhi
    have hbounds := hpg.area_bounds
    exact hmem pg.seg _ hpg.1 x (by omega) (by simp only; omega)
  · change ListsOk (IsSegment os.regions) _ _ _ _
    rw [hseg]
    exact h.lists
  · have hnew : os.regions b = some ⟨size, .large offset⟩ := by
      rw [hm.regions, Function.update_self]
    refine GrantsOk.insertLarge ?_ hnew
      (h.fresh_not_granted hm (by omega) (by omega)) horigin husable hsize
    refine h.grants.mono (fun b' r hb' _ => hkeep b' r hb') ?_
    intro pg hpg _
    rwa [hseg] at hpg
  · intro hslots
    exact hkeep _ _ (h.table hslots)

/-- `free_large` unmaps the region of a pointer. -/
theorem unmapLarge (h : Inv ps s G) {p b size offset : Nat} {g : Grant} (hg : s.grants p = some g)
    (ho : g.origin = .large b) (hb : s.os.regions b = some ⟨size, .large offset⟩) :
    Inv ps { s with
      os := osFree s.os b size
      grants := Function.update s.grants p none } G := by
  obtain ⟨hmem, hregions, hr⟩ := osFree_region h.regions hb
  simp only at hmem hregions hr
  have hback : ∀ b' r, (osFree s.os b size).regions b' = some r →
      b' ≠ b ∧ s.os.regions b' = some r := by
    intro b' r hb'
    rw [hregions] at hb'
    exact PartialMap.erase_eq_some.mp hb'
  have hkeep : ∀ b' r, s.os.regions b' = some r → r.purpose ≠ .large offset →
      (osFree s.os b size).regions b' = some r := by
    intro b' r hb' hne
    rw [hregions, Function.update_of_ne ?_]
    · exact hb'
    · rintro rfl
      rw [hb] at hb'
      cases hb'
      exact hne rfl
  have hseg : IsSegment (osFree s.os b size).regions = IsSegment s.os.regions := by
    funext b'
    exact propext ⟨fun hb' => (hback b' _ hb').2, fun hb' => hkeep b' _ hb' (by simp)⟩
  obtain ⟨size', offset', hb', hp, _⟩ := h.grants.large p g b hg ho
  rw [hb] at hb'
  cases hb'
  refine ⟨hr, ?_, ?_, ?_, ?_, ?_, h.sentinel⟩
  · change TagsOk (osFree s.os b size).mem _
    rw [hmem]
    exact ⟨fun b' sz hb' => h.tags.small b' sz (hback b' _ hb').2,
      fun b' sz o hb' => h.tags.large b' sz o (hback b' _ hb').2⟩
  · intro pg hpg
    change IsPage (IsSegment (osFree s.os b size).regions) pg at hpg
    rw [hseg] at hpg
    change PageOk (osFree s.os b size).mem _ _ _
    rw [hmem]
    exact h.pages pg hpg
  · change ListsOk (IsSegment (osFree s.os b size).regions) _ _ _ _
    rw [hseg]
    exact h.lists
  · -- The pointer is the only one of its region, so nothing else refers to it.
    have hgone : ∀ q x, IsPage (IsSegment s.os.regions) q →
        (x ∈ (G.page q).out ↔ x ∈ (G.page q).out ∧ x ≠ p) := by
      intro q x hq
      refine ⟨fun hx => ⟨hx, ?_⟩, And.left⟩
      rintro rfl
      obtain ⟨g', i, hg', ho'⟩ := h.grants.out q x hq hx
      rw [hg] at hg'
      cases hg'
      rw [ho] at ho'
      cases ho'
    refine (h.grants.remove hgone).anti hregions ?_ ?_
    · intro x g' pg i hg' ho'
      rintro rfl
      have hpg := (h.grants.small x g' pg i (PartialMap.erase_eq_some.mp hg').2 ho').1.1
      unfold IsSegment at hpg
      rw [hb] at hpg
      cases hpg
    · intro x g' hg' ho'
      obtain ⟨hx, hg'⟩ := PartialMap.erase_eq_some.mp hg'
      obtain ⟨size', offset', hb', hx', _⟩ := h.grants.large x g' b hg' ho'
      rw [hb] at hb'
      cases hb'
      exact hx (hx'.trans hp.symm)
  · intro hslots
    exact hkeep _ _ (h.table hslots) (by simp)

end Inv

end HMalloc
