import HMalloc.Safety

/-!
Regions in transit. Between the mapping of a region and its entry in a registry,
and between its removal from the registry and the unmapping, only one thread
knows of the region (`SysInv.transit_unique`). `Booking` says what a step does
to the mapped regions, the registries and the counters, with the facts that the
invariant adds: which region it is, and that its recorded size is the one used.
-/

namespace HMalloc

open Bytes Linked

section Facts

variable {ps : PageSize} {s : Store} {G : Ghost} {t : Nat} {th : Thread}

/-- The one idle segment has all free pages there are. -/
theorem Inv.pool_of_onlyFree (hinv : Inv ps s G) {b : Nat} (hfree : s.central.OnlyFree b) :
    (G.pool b).length = usablePagesPerSegment := by
  have hmem : b ∈ G.avail := by
    have hchain := hinv.lists.chains.avail.toChain
    rw [hfree.avail] at hchain
    exact List.mem_of_head? hchain.head_eq.symm
  obtain ⟨hb, hpool⟩ := (hinv.lists.places.avail b).mp hmem
  have hidle : G.idleSegments = 1 := by rw [← hinv.lists.counters.freeSegments, hfree.idle]
  have hsum : G.freePages = usablePagesPerSegment := by
    rw [← hinv.lists.counters.freePages, hfree.pages]
  obtain ⟨a, ha, hlen⟩ := List.countP_pos_iff.mp
    (show 0 < G.segments.countP (fun b => (G.pool b).length == usablePagesPerSegment) by
      change 0 < G.idleSegments
      omega)
  rw [beq_iff_eq] at hlen
  by_cases hab : a = b
  · rw [← hab]
    exact hlen
  · -- Two segments with free pages have more than the free pages counted.
    have hperm := ((List.perm_cons_erase ha).map (fun b => (G.pool b).length)).sum_eq
    rw [List.map_cons, List.sum_cons] at hperm
    have hle : (G.pool b).length ≤ ((G.segments.erase a).map (fun b => (G.pool b).length)).sum :=
      List.single_le_sum (fun _ _ => Nat.zero_le _) _ (List.mem_map.mpr
        ⟨b, (List.mem_erase_of_ne (fun heq => hab heq.symm)).mpr hb, rfl⟩)
    have hpos := List.length_pos_iff.mpr hpool
    unfold Ghost.freePages at hsum
    omega

/-- A pointer that is handed out is not in a segment all of whose pages are in
the pool. -/
theorem Inv.grant_not_idle (hinv : Inv ps s G) {b : Nat} (hb : IsSegment s.os.regions b)
    (hlen : (G.pool b).length = usablePagesPerSegment) {p : Nat} {g : Grant} {pg : PageId}
    {i : Nat} (hg : s.grants p = some g) (ho : g.origin = .small pg i) : pg.seg ≠ b := by
  rintro rfl
  have hs := hinv.smallGrant hg ho
  have hpool := hinv.lists.places.mem_full_pool hb (hinv.pool_nodup hb) hlen hs.page rfl
  have hloc := ((hinv.lists.places.pool _ pg).mp hpool).2.2
  have hok := (hinv.pages pg hs.page).loc
  rw [LocOk, hloc] at hok
  have hout := hs.out
  rw [hok.2.2.out] at hout
  cases hout

/-- What is known of a region in transit. -/
inductive Holding (ps : PageSize) (s : Store) (G : Ghost) (t b : Nat) : Prop where
  | heap (h : s.os.regions b = some ⟨heapBytes ps, .heap t⟩)
  | segment (h : IsSegment s.os.regions b) (hm : s.central.mtx = some t)
      (hidle : (G.pool b).length = usablePagesPerSegment)
  | large {size offset : Nat} {g : Grant} (h : s.os.regions b = some ⟨size, .large offset⟩)
      (hg : s.grants (b + offset) = some g) (ho : g.origin = .large b)
      (hh : g.holder = .fresh t ∨ g.holder = .freeing t)

theorem ThreadOk.holding (hinv : Inv ps s G) (h : ThreadOk ps s G t th) {b : Nat}
    (hb : th.transit = some b) : Holding ps s G t b := by
  unfold Thread.transit at hb
  cases hpc : th.pc with
  | linkHeap q c a =>
      rw [hpc] at hb
      cases hb
      exact .heap ((h.home b _).mpr ⟨rfl, by unfold Thread.home; rw [hpc]; rfl⟩)
  | unmapHeap =>
      rw [hpc] at hb
      exact .heap (h.region (by rw [hpc]; rfl) hb)
  | registerSegment q c a =>
      rw [hpc] at hb
      cases hb
      have hlock := h.lock_at hpc
      exact .segment hlock.2.2 (h.mtx.mpr (by rw [hpc]; rfl)) (hinv.pool_of_onlyFree hlock.2.1)
  | unmapSegment a after =>
      rw [hpc] at hb
      cases hb
      have hlock := h.lock_at hpc
      obtain ⟨hseg, hlen⟩ := hinv.lists.places.dying b hlock.1
      exact .segment hseg (h.mtx.mpr (by rw [hpc]; rfl)) hlen
  | registerLarge q offset mmapSize a =>
      rw [hpc] at hb
      cases hb
      have hpointers := h.pointers_at hpc
      obtain ⟨hregion, g, hg, ho⟩ := hpointers
      obtain ⟨g', hg', hh⟩ := (h.holders (b + offset) (.fresh t) rfl).mpr (by rw [hpc]; rfl)
      rw [hg] at hg'
      cases hg'
      exact .large hregion hg ho (Or.inl hh)
  | unmapLarge p a size result =>
      rw [hpc] at hb
      cases hb
      have hpointers := h.pointers_at hpc
      obtain ⟨offset, hregion, g, hg, ho⟩ := hpointers
      obtain ⟨g', hg', hh⟩ := (h.holders p (.freeing t) rfl).mpr (by rw [hpc]; rfl)
      rw [hg] at hg'
      cases hg'
      obtain ⟨size', offset', hregion', rfl, _⟩ := hinv.grants.large p g b hg ho
      rw [hregion] at hregion'
      cases hregion'
      exact .large hregion hg ho (Or.inr hh)
  | idle | small | walk | acquire | sweep | mapSegment | unregisterSegment | large | free
  | remote | release | destroy | hand | unlinkHeap =>
      rw [hpc] at hb
      cases hb

theorem Holding.unique {u b : Nat} (h : Holding ps s G t b) (h' : Holding ps s G u b) : t = u := by
  cases h with
  | heap h =>
      cases h' with
      | heap h' =>
          rw [h] at h'
          cases h'
          rfl
      | segment h' => rw [IsSegment, h] at h'; simp at h'
      | large h' => rw [h] at h'; cases h'
  | segment h hm =>
      cases h' with
      | heap h' => rw [IsSegment, h'] at h; simp at h
      | segment _ hm' => exact Option.some.inj (hm.symm.trans hm')
      | large h' => rw [IsSegment, h'] at h; cases h
  | large h hg _ hh =>
      cases h' with
      | heap h' => rw [h] at h'; cases h'
      | segment h' => rw [IsSegment, h] at h'; cases h'
      | large h' hg' _ hh' =>
          rw [h] at h'
          cases h'
          rw [hg] at hg'
          cases hg'
          rcases hh with hh | hh <;> rcases hh' with hh' | hh' <;> rw [hh] at hh' <;> cases hh' <;>
            rfl

end Facts

section Booking

theorem Pc.freeing_of_registers {pc : Pc} {b : Nat} (h : pc.registers = some b) :
    pc.freeing = none := by
  unfold Pc.registers at h
  split at h
  · rfl
  · rfl
  · cases h

def Purpose.isLarge : Purpose → Bool
  | .large _ => true
  | _ => false

/-- What thread `t` maps, other than tables. -/
def Purpose.Made (t : Nat) (purpose : Purpose) : Prop := purpose = .heap t ∨ purpose.Tagged

/-- A step of thread `t` as the books see it. -/
inductive Booking (ps : PageSize) (o : Oracle) (s : Store) (t : Nat) (th : Thread) :
    Store → Thread → Prop where
  | rest {s' : Store} {th' : Thread} (plain : Plain s th) (hq : Quiet s s')
      (ht' : th'.transit = none) : Booking ps o s t th s' th'
  | create {b size alignment : Nat} {purpose : Purpose} {os : Os} {s' : Store} {th' : Thread}
      (ht : th.transit = none) (ht' : th'.transit = some b) (hd' : th'.dropping = none)
      (hfree : th.pc.freeing = none)
      (hmap : osAllocAligned ps o.mapping s.os size alignment purpose = (some b, os))
      (hk : KernelOk ps o.mapping s.os size alignment) (halign : alignment < 2 ^ 64)
      (hm : s.os.Mapped os b size purpose) (hmade : purpose.Made t)
      (hq : Quiet { s with
        os := os
        largeCount := if purpose.isLarge then Word.add 64 s.largeCount 1 else s.largeCount
        largeBytes := if purpose.isLarge then Word.add 64 s.largeBytes size else s.largeBytes }
        s') :
      Booking ps o s t th s' th'
  | enterRegion {b : Nat} {r : Region} {w : TableWorld} {registry : Registry} {s' : Store}
      {th' : Thread} (ht : th.transit = some b) (ht' : th'.transit = none)
      (hd : th.dropping = none) (hpc : th.pc.registers = some b)
      (hb : s.os.regions b = some r) (htag : r.purpose.Tagged)
      (hreg : storeRegister ps o s b = some (w, registry)) (hok : w.ok)
      (hq : Quiet { s with os := w.os, registry := registry } s') : Booking ps o s t th s' th'
  | enterHeap {h : Nat} {th' : Thread} (ht : th.transit = some h) (ht' : th'.transit = none)
      (hd : th.dropping = none) (hh : s.os.regions h = some ⟨heapBytes ps, .heap t⟩) :
      Booking ps o s t th { s with heapRegistry := h :: s.heapRegistry } th'
  | strikeSegment {b : Nat} {registry : Registry} {th' : Thread} (ht : th.transit = none)
      (ht' : th'.transit = some b) (hd' : th'.dropping = none) (hb : IsSegment s.os.regions b)
      (hunreg : regionUnregister s.registry b = some registry) :
      Booking ps o s t th { s with registry := registry } th'
  | strikeLarge {b size offset : Nat} {registry : Registry} {th' : Thread}
      (ht : th.transit = none) (ht' : th'.transit = some b) (hd' : th'.dropping = some b)
      (hb : s.os.regions b = some ⟨size, .large offset⟩)
      (hunreg : regionUnregister s.registry b = some registry) :
      Booking ps o s t th
        { s with
          registry := registry
          largeCount := Word.sub 64 s.largeCount 1
          largeBytes := Word.sub 64 s.largeBytes size
          largeWrapped := s.largeWrapped || decide (s.largeCount < 1) ||
            decide (s.largeBytes < size) } th'
  | strikeHeap {h : Nat} {th' : Thread} (ht : th.transit = none) (ht' : th'.transit = some h)
      (hd' : th'.dropping = none) (hh : s.os.regions h = some ⟨heapBytes ps, .heap t⟩) :
      Booking ps o s t th { s with heapRegistry := s.heapRegistry.erase h } th'
  | destroy {b size : Nat} {purpose : Purpose} {s' : Store} {th' : Thread}
      (ht : th.transit = some b) (ht' : th'.transit = none)
      (hd : th.dropping = if purpose.isLarge then some b else none)
      (hb : s.os.regions b = some ⟨size, purpose⟩) (hmade : purpose.Made t)
      (hfree : ∀ p, th.pc.freeing = some p → ∃ g, s.grants p = some g ∧ g.origin = .large b)
      (hq : Quiet { s with os := osFree s.os b size } s') : Booking ps o s t th s' th'

variable {ps : PageSize} {o : Oracle} {s s' : Store} {G : Ghost} {t : Nat} {th th' : Thread}

theorem Effect.booking (hc : Consistent ps s G) (h : ThreadOk ps s G t th)
    (hok : StepOk ps o s th) (heff : Effect ps o s t th s' th') : Booking ps o s t th s' th' := by
  unfold StepOk at hok
  have htransit : ∀ {pc : Pc} {b : Option Nat}, th.pc = pc →
      ({ th with pc := pc } : Thread).transit = b → th.transit = b := by
    intro pc b hpc hb
    rwa [show ({ th with pc := pc } : Thread) = th by rw [← hpc]] at hb
  have hdropping : ∀ {pc : Pc} {b : Option Nat}, th.pc = pc →
      ({ th with pc := pc } : Thread).dropping = b → th.dropping = b := by
    intro pc b hpc hb
    rwa [show ({ th with pc := pc } : Thread) = th by rw [← hpc]] at hb
  have hnone : ∀ {b : Nat}, th.pc.freeing = none → ∀ p, th.pc.freeing = some p →
      ∃ g, s.grants p = some g ∧ g.origin = .large b := by
    intro b hfree p hp
    rw [hfree] at hp
    cases hp
  cases heff with
  | quiet hplain hq hs => exact .rest hplain hq hs.transit
  | mapHeap hpc hheap hmap hq =>
      rw [hpc] at hok
      have hk := hok hheap
      exact .create (htransit hpc rfl) rfl rfl (by rw [hpc]; rfl) hmap hk ps.bytes_lt
        (osAllocAligned_mapped hk (heapBytes_lt ps) ps.bytes_lt hmap) (Or.inl rfl) hq
  | linkHeap hpc =>
      exact .enterHeap (htransit hpc rfl) rfl (hdropping hpc rfl)
        ((h.home _ _).mpr ⟨rfl, by unfold Thread.home; rw [hpc]; rfl⟩)
  | mapSegment hpc hmap hq =>
      rw [hpc] at hok
      exact .create (htransit hpc rfl) rfl rfl (by rw [hpc]; rfl) hmap hok (by decide)
        (osAllocAligned_mapped hok (by decide) (by decide) hmap) (Or.inr (Or.inl rfl)) hq
  | registerSegment hpc hreg hq hs =>
      rw [hpc] at hok
      have hlock := h.lock_at hpc
      exact .enterRegion (htransit hpc rfl) hs.transit (hdropping hpc rfl) (by rw [hpc]; rfl)
        hlock.2.2 (Or.inl rfl) hreg (hok _ _ hreg) hq
  | unregisterSegment hpc hunreg =>
      have hlock := h.lock_at hpc
      exact .strikeSegment (htransit hpc rfl) rfl rfl
        (hc.inv.lists.places.dying _ hlock.1).1 hunreg
  | unmapSegment hpc hq hs =>
      have hlock := h.lock_at hpc
      obtain ⟨hseg, _⟩ := hc.inv.lists.places.dying _ hlock.1
      rw [hc.inv.lists.chains.mmapSize _ hseg] at hq
      exact .destroy (htransit hpc rfl) hs.transit (hdropping hpc rfl) hseg (Or.inr (Or.inl rfl))
        (hnone (by rw [hpc]; rfl)) hq
  | mapLarge hpc hmap hq =>
      rw [hpc] at hok
      have hargs := h.args_at hpc
      exact .create (htransit hpc rfl) rfl rfl (by rw [hpc]; rfl) hmap hok (by decide)
        (osAllocAligned_mapped hok hargs.bound (by decide) hmap) (Or.inr (Or.inr ⟨_, rfl⟩)) hq
  | registerLarge hpc hreg hq hs =>
      rw [hpc] at hok
      have hpointers := h.pointers_at hpc
      exact .enterRegion (htransit hpc rfl) hs.transit (hdropping hpc rfl) (by rw [hpc]; rfl)
        hpointers.1 (Or.inr ⟨_, rfl⟩) hreg (hok _ _ hreg) hq
  | @dropLarge p result r hpc hlarge hunreg =>
      obtain ⟨g, hg, _⟩ := (h.holders p (.freeing t) rfl).mpr (by rw [hpc]; rfl)
      cases ho : g.origin with
      | small pg i =>
          rw [(hc.inv.decode_small hg ho).2.1] at hlarge
          cases hlarge
      | large b =>
          obtain ⟨hbase, _⟩ := hc.inv.decode_large hg ho
          obtain ⟨size, offset, hb, _⟩ := hc.inv.grants.large p g b hg ho
          rw [hbase] at hunreg ⊢
          rw [(hc.inv.tags.large b size offset hb).2.1]
          exact .strikeLarge (htransit hpc rfl) rfl rfl hb hunreg
  | unmapLarge hpc hq hs =>
      have hpointers := h.pointers_at hpc
      obtain ⟨offset, hb, g, hg, ho⟩ := hpointers
      refine .destroy (htransit hpc rfl) hs.transit (hdropping hpc rfl) hb
        (Or.inr (Or.inr ⟨_, rfl⟩)) (fun p hp => ?_) hq
      rw [hpc] at hp
      cases hp
      exact ⟨g, hg, ho⟩
  | unlinkHeap hpc hheap =>
      exact .strikeHeap (htransit hpc rfl) hheap rfl (h.region (by rw [hpc]; rfl) hheap)
  | unmapHeap hpc hheap =>
      exact .destroy (htransit hpc hheap) rfl (hdropping hpc rfl)
        (h.region (by rw [hpc]; rfl) hheap) (Or.inl rfl) (hnone (by rw [hpc]; rfl)) (Quiet.refl _)

end Booking

/-- A thread registers a segment or large region that it has in transit. -/
theorem ThreadOk.registering {ps : PageSize} {s : Store} {G : Ghost} {t b : Nat} {th : Thread}
    (h : ThreadOk ps s G t th) (hb : th.pc.registers = some b) :
    th.transit = some b ∧ ∃ r, s.os.regions b = some r ∧ r.purpose.Tagged := by
  unfold Pc.registers at hb
  unfold Thread.transit
  split at hb
  · rename_i q c a hpc
    cases hb
    have hlock := h.lock
    rw [hpc] at hlock ⊢
    exact ⟨rfl, _, hlock.2.2, Or.inl rfl⟩
  · rename_i q offset mmapSize a hpc
    cases hb
    have hpointers := h.pointers
    rw [hpc] at hpointers ⊢
    exact ⟨rfl, _, hpointers.1, Or.inr ⟨_, rfl⟩⟩
  · cases hb

/-- A region is in transit with one thread only. -/
theorem SysInv.transit_unique {ps : PageSize} {sys : System} {G : Ghost} (h : SysInv ps sys G)
    {t u b : Nat} (ht : (sys.threads t).transit = some b) (hu : (sys.threads u).transit = some b) :
    t = u :=
  ((h.threads t).holding h.data.inv ht).unique ((h.threads u).holding h.data.inv hu)

end HMalloc
