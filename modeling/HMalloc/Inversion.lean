import HMalloc.Thread

/-!
What each operation on pages and segments writes, and the ways a step of a thread
can go (`ThreadStep`), read off the code once. None of it needs an invariant. The
later modules ask different questions about a step (which mappings it makes, whose
pages it takes, which pages it writes, what it returns) and answer them from the
statements here.
-/

namespace HMalloc

open Bytes Linked

section Operations

variable {s s' : Store} {pg : PageId}

theorem pageCollect_shape (h : pageCollect s pg = some s') : ∃ mem free used, s' = { s with
    os := { s.os with mem := mem }
    page := { s.page with
      free := Function.update s.page.free pg free
      used := Function.update s.page.used pg used
      threadFree := Function.update s.page.threadFree pg 0 } } := by
  unfold pageCollect at h
  dsimp only at h
  split at h
  · cases h
    exact ⟨s.os.mem, s.page.free pg, s.page.used pg, by simp⟩
  · simp only [Option.bind_eq_bind, Option.bind_eq_some_iff] at h
    obtain ⟨⟨tail, n⟩, _, h⟩ := h
    cases h
    exact ⟨_, _, _, rfl⟩

theorem pageExtend_shape (s : Store) (pg : PageId) : ∃ mem free reserved,
    pageExtend s pg = { s with
      os := { s.os with mem := mem }
      page := { s.page with
        free := Function.update s.page.free pg free
        reserved := Function.update s.page.reserved pg reserved } } := by
  unfold pageExtend
  dsimp only
  split
  · exact ⟨s.os.mem, s.page.free pg, s.page.reserved pg, by simp⟩
  · exact ⟨_, _, _, rfl⟩

theorem pageMakeAvailable_shape {available : Bool}
    (h : pageMakeAvailable s pg = some (available, s')) :
    ∃ mem free used reserved threadFree, s' = { s with
      os := { s.os with mem := mem }
      page := { s.page with
        free := Function.update s.page.free pg free
        used := Function.update s.page.used pg used
        reserved := Function.update s.page.reserved pg reserved
        threadFree := Function.update s.page.threadFree pg threadFree } } := by
  unfold pageMakeAvailable at h
  split at h
  · cases h
    exact ⟨s.os.mem, s.page.free pg, s.page.used pg, s.page.reserved pg, s.page.threadFree pg,
      by simp⟩
  · simp only [Option.bind_eq_bind, Option.bind_eq_some_iff] at h
    obtain ⟨s₁, hcollect, h⟩ := h
    obtain ⟨mem, free, used, rfl⟩ := pageCollect_shape hcollect
    split at h
    · cases h
      exact ⟨mem, free, used, s.page.reserved pg, 0, by simp⟩
    · split at h
      · cases h
        obtain ⟨mem', free', reserved, heq⟩ := pageExtend_shape _ pg
        exact ⟨mem', free', used, reserved, 0, by rw [heq]; simp⟩
      · cases h
        exact ⟨mem, free, used, s.page.reserved pg, 0, by simp⟩

theorem pagePop_shape {b : Nat} (h : pagePop s pg = some (b, s')) :
    b = s.page.free pg ∧ b ≠ 0 ∧ s' = { s with
      page := { s.page with
        free := Function.update s.page.free pg (readWord s.os.mem b)
        used := Function.update s.page.used pg (Word.add 32 (s.page.used pg) 1) } } := by
  unfold pagePop at h
  dsimp only at h
  split at h
  · cases h
  · rename_i hne
    cases h
    exact ⟨rfl, hne, rfl⟩

theorem heapRotateToFront_shape (s : Store) (k c : Nat) (p : PageId) : ∃ next prev slot,
    heapRotateToFront s k c p = { s with
      page := { s.page with next := next, prev := prev }
      slot := slot } ∧ slot k c = p := by
  unfold heapRotateToFront
  dsimp only
  split
  · rename_i hhead
    exact ⟨_, _, _, rfl, hhead.symm⟩
  · exact ⟨_, _, _, rfl, by simp⟩

theorem unlinkEmpty_shape (h : unlinkEmpty s pg = some s') :
    s.page.prev pg ≠ none ∧ s' = { s with page := unlinkNeighbours s.page pg } := by
  unfold unlinkEmpty at h
  split at h
  · cases h
  · rename_i hprev
    cases h
    exact ⟨by simp [hprev], rfl⟩

theorem allRemove_shape {b : Nat} (h : allRemove s b = some s') : ∃ next segments, s' = { s with
    seg := { s.seg with next := next }
    central := { s.central with segments := segments } } := by
  unfold allRemove at h
  split at h
  · cases h
    exact ⟨_, _, rfl⟩
  · simp only [Option.bind_eq_bind, Option.bind_eq_some_iff] at h
    obtain ⟨next, _, h⟩ := h
    cases h
    exact ⟨_, _, rfl⟩

/-- The page is written as by `poolPush`; the segment stays or is dropped. -/
theorem poolReturn_shape {dead : Option Nat} (h : poolReturn s pg = some (s', dead)) :
    ∃ seg central, s' = { s with
      page := (poolPush s pg (regionBase (s.page.area pg))).page
      seg := seg
      central := central } := by
  have hinsert : ∀ b, ∃ seg central, poolInsert s pg b = { s with
      page := (poolPush s pg b).page
      seg := seg
      central := central } := by
    intro b
    unfold poolInsert
    split <;> exact ⟨_, _, rfl⟩
  obtain ⟨seg, central, hins⟩ := hinsert (regionBase (s.page.area pg))
  unfold poolReturn at h
  dsimp only at h
  rw [hins] at h
  split at h
  · split at h
    · simp only [dropSegment, Option.bind_eq_bind, Option.bind_eq_some_iff] at h
      obtain ⟨s₂, ⟨s₃, hremove, hs₂⟩, h⟩ := h
      obtain ⟨next, segments, rfl⟩ := allRemove_shape hremove
      cases hs₂
      cases h
      exact ⟨_, _, rfl⟩
    · cases h
      exact ⟨_, _, rfl⟩
  · cases h
    exact ⟨_, _, rfl⟩

theorem takePage_shape {owner cls blockSize : Nat}
    (h : takePage s owner cls blockSize = some (pg, s')) :
    ∃ b seg central, s.central.avail = some b ∧ s.seg.freeList b = some pg ∧
      s' = setUpPage { s with seg := seg, central := central } pg owner cls blockSize := by
  simp only [takePage, Option.bind_eq_bind, Option.bind_eq_some_iff] at h
  obtain ⟨b, havail, pg', hfree, h⟩ := h
  cases h
  have htake : ∃ seg central, takeFree s b pg = { s with seg := seg, central := central } := by
    unfold takeFree
    dsimp only
    split <;> exact ⟨_, _, rfl⟩
  obtain ⟨seg, central, heq⟩ := htake
  exact ⟨b, seg, central, havail, hfree, by rw [heq]⟩

/-- A round of the sweep gives the page back when nothing is left of it. -/
theorem sweepVisit_cases {cur : Option PageId} {next : SweepNext}
    (h : sweepVisit s cur pg = some (s', next)) : ∃ s₁, pageCollect s pg = some s₁ ∧
      ((s₁.page.used pg = 0 ∧ ∃ dead, next = ⟨cur, dead⟩ ∧
          poolReturn { cursorWrite s₁ cur (s₁.page.next pg) with
            central := { (cursorWrite s₁ cur (s₁.page.next pg)).central with
              abandonedCount := Word.sub 64 s₁.central.abandonedCount 1 } } pg =
            some (s', dead)) ∨
        s₁.page.used pg ≠ 0 ∧ s' = s₁ ∧ next = ⟨some pg, none⟩) := by
  simp only [sweepVisit, collectLocked, Option.bind_eq_bind, Option.bind_eq_some_iff] at h
  obtain ⟨s₁, hcollect, h⟩ := h
  refine ⟨s₁, hcollect, ?_⟩
  split at h
  · rename_i hused
    simp only [Option.bind_eq_some_iff] at h
    obtain ⟨⟨s₂, dead⟩, hpool, h⟩ := h
    cases h
    exact Or.inl ⟨hused, dead, rfl, hpool⟩
  · rename_i hused
    cases h
    exact Or.inr ⟨hused, rfl, rfl⟩

end Operations

section Returns

variable (s : Store) (t : Nat) (th : Thread) (q : Request) (b usable : Nat) (origin : Origin)

theorem deliver_of_new (ho : q.old = none) : deliver s t th q b usable origin =
    ({ s with
        os := { s.os with mem := if q.clear then fill s.os.mem b q.size 0 else s.os.mem }
        grants := Function.update s.grants b (some ⟨q.size, usable, .client, origin⟩) },
      th.ret b) := by
  unfold deliver
  rw [ho]

theorem deliver_of_old {old u : Nat} (ho : q.old = some (old, u)) :
    deliver s t th q b usable origin =
      ({ s with
          os := { s.os with
            mem := copy (if q.clear then fill s.os.mem b q.size 0 else s.os.mem) b old
              (if q.size < u then q.size else u) }
          grants := setHolder (Function.update s.grants b (some ⟨q.size, usable, .fresh t, origin⟩))
            old (.freeing t) },
        { th with pc := .free old b }) := by
  unfold deliver
  rw [ho]

/-- What `deliver` leaves alone. -/
theorem deliver_rest : (deliver s t th q b usable origin).1 = { s with
    os := { s.os with mem := (deliver s t th q b usable origin).1.os.mem }
    grants := (deliver s t th q b usable origin).1.grants } := by
  unfold deliver
  cases q.old <;> rfl

theorem failAlloc_eq : (failAlloc s th q).1 = { s with grants := (failAlloc s th q).1.grants } ∧
    (failAlloc s th q).2 = th.ret 0 := by
  unfold failAlloc
  cases q.old <;> exact ⟨rfl, rfl⟩

/-- `heap_destroy` goes on to a page, or has none left. -/
theorem scanClasses_cases (h n c : Nat) :
    scanClasses s h n c = .unlinkHeap ∨ ∃ c' p, scanClasses s h n c = .destroy c' p := by
  induction n generalizing c with
  | zero => exact Or.inl rfl
  | succ n ih =>
      unfold scanClasses
      split
      · exact ih (c + 1)
      · exact Or.inr ⟨_, _, rfl⟩

theorem destroyNext_shape (h c : Nat) (next : Option PageId) : ∃ slot pc,
    destroyNext s th h c next = ({ s with slot := slot }, { th with pc := pc }) ∧
      (pc = .unlinkHeap ∨ ∃ c' p, pc = .destroy c' p) := by
  have hend : ∃ slot pc,
      destroyNext.endClass s th h c = ({ s with slot := slot }, { th with pc := pc }) ∧
        (pc = .unlinkHeap ∨ ∃ c' p, pc = .destroy c' p) :=
    ⟨_, _, rfl, scanClasses_cases ..⟩
  unfold destroyNext
  cases next with
  | none => exact hend
  | some p =>
      dsimp only
      split
      · exact ⟨_, _, rfl, Or.inr ⟨_, _, rfl⟩⟩
      · exact hend

end Returns

/-- `central_acquire_page` has a page, which serves the block or has none. -/
inductive AcquireEnd (s : Store) (t : Nat) (th : Thread) (q : Request) (c : Nat) :
    Store → Thread → Prop where
  | served {k b : Nat} {np : PageId} {s₁ s₂ s₃ : Store} (hheap : th.heap = some k)
      (htake : takePage s k c (classToSize c) = some (np, s₁))
      (hmake : pageMakeAvailable
        (linkFresh { s₁ with central := { s₁.central with mtx := none } } k c np) np =
          some (true, s₂))
      (hpop : pagePop s₂ np = some (b, s₃)) :
      AcquireEnd s t th q c (deliverBlock s₃ t th q np b).1 (deliverBlock s₃ t th q np b).2
  | failed {k : Nat} {np : PageId} {s₁ s₂ : Store} (hheap : th.heap = some k)
      (htake : takePage s k c (classToSize c) = some (np, s₁))
      (hmake : pageMakeAvailable
        (linkFresh { s₁ with central := { s₁.central with mtx := none } } k c np) np =
          some (false, s₂)) :
      AcquireEnd s t th q c (failAlloc s₂ th q).1 (failAlloc s₂ th q).2

/-- The ways a step of thread `t` can go. -/
inductive ThreadStep (ps : PageSize) (o : Oracle) (s : Store) (t : Nat) (th : Thread) :
    Store → Thread → Prop where
  | idle (hpc : th.pc = .idle) : ThreadStep ps o s t th s th
  | createHeap {q : Request} {c k : Nat} {os : Os} (hpc : th.pc = .small q c)
      (hheap : th.heap = none)
      (hmap : osAllocAligned ps o.mapping s.os (heapBytes ps) ps.bytes (.heap t) = (some k, os)) :
      ThreadStep ps o s t th
        { s with os := os, slot := Function.update s.slot k (fun _ => emptyPage) }
        { th with pc := .linkHeap q c k }
  | serve {q : Request} {c k b : Nat} {s₁ : Store} (hpc : th.pc = .small q c)
      (hheap : th.heap = some k) (hfree : s.page.free (s.slot k c) ≠ 0)
      (hpop : pagePop s (s.slot k c) = some (b, s₁)) :
      ThreadStep ps o s t th (deliverBlock s₁ t th q (s.slot k c) b).1
        (deliverBlock s₁ t th q (s.slot k c) b).2
  | enterWalk {q : Request} {c k : Nat} (hpc : th.pc = .small q c) (hheap : th.heap = some k)
      (hfree : s.page.free (s.slot k c) = 0) (hslot : s.slot k c ≠ emptyPage) :
      ThreadStep ps o s t th s { th with pc := .walk q c (s.slot k c) }
  | enterAcquire {q : Request} {c k : Nat} (hpc : th.pc = .small q c) (hheap : th.heap = some k)
      (hfree : s.page.free (s.slot k c) = 0) (hslot : s.slot k c = emptyPage) :
      ThreadStep ps o s t th s { th with pc := .acquire q c }
  | linkHeap {q : Request} {c k : Nat} (hpc : th.pc = .linkHeap q c k) :
      ThreadStep ps o s t th { s with heapRegistry := k :: s.heapRegistry }
        { th with heap := some k, guardMade := true, pc := .small q c }
  | walkServe {q : Request} {c k b : Nat} {p : PageId} {s₁ s₂ : Store}
      (hpc : th.pc = .walk q c p) (hheap : th.heap = some k)
      (hmake : pageMakeAvailable s p = some (true, s₁))
      (hpop : pagePop (heapRotateToFront s₁ k c p) p = some (b, s₂)) :
      ThreadStep ps o s t th (deliverBlock s₂ t th q p b).1 (deliverBlock s₂ t th q p b).2
  | walkNext {q : Request} {c : Nat} {p p' : PageId} {s₁ : Store} (hpc : th.pc = .walk q c p)
      (hmake : pageMakeAvailable s p = some (false, s₁)) (hnext : s₁.page.next p = some p') :
      ThreadStep ps o s t th s₁ { th with pc := .walk q c p' }
  | walkEnd {q : Request} {c : Nat} {p : PageId} {s₁ : Store} (hpc : th.pc = .walk q c p)
      (hmake : pageMakeAvailable s p = some (false, s₁)) (hnext : s₁.page.next p = none) :
      ThreadStep ps o s t th s₁ { th with pc := .acquire q c }
  | lock {q : Request} {c : Nat} (hpc : th.pc = .acquire q c) (havail : s.central.avail = none) :
      ThreadStep ps o s t th { s with central := { s.central with mtx := some t } }
        { th with pc := .sweep q c none }
  | acquire {q : Request} {c : Nat} {s' : Store} {th' : Thread} (hpc : th.pc = .acquire q c)
      (havail : s.central.avail ≠ none) (hend : AcquireEnd s t th q c s' th') :
      ThreadStep ps o s t th s' th'
  | sweepOn {q : Request} {c : Nat} {cur : Option PageId} {pg : PageId} {s' : Store}
      {next : SweepNext} (hpc : th.pc = .sweep q c cur) (hread : cursorRead s cur = some pg)
      (hvisit : sweepVisit s cur pg = some (s', next)) (hkeep : next.unmap = none) :
      ThreadStep ps o s t th s' { th with pc := .sweep q c next.cursor }
  | sweepDrop {q : Request} {c b : Nat} {cur : Option PageId} {pg : PageId} {s' : Store}
      {next : SweepNext} (hpc : th.pc = .sweep q c cur) (hread : cursorRead s cur = some pg)
      (hvisit : sweepVisit s cur pg = some (s', next)) (hdrop : next.unmap = some b) :
      ThreadStep ps o s t th s'
        { th with pc := .unregisterSegment b (.sweeping q c next.cursor) }
  | sweepMap {q : Request} {c : Nat} {cur : Option PageId} (hpc : th.pc = .sweep q c cur)
      (hread : cursorRead s cur = none) (havail : s.central.avail = none) :
      ThreadStep ps o s t th s { th with pc := .mapSegment q c }
  | sweepAcquire {q : Request} {c : Nat} {cur : Option PageId} {s' : Store} {th' : Thread}
      (hpc : th.pc = .sweep q c cur) (hread : cursorRead s cur = none)
      (havail : s.central.avail ≠ none) (hend : AcquireEnd s t th q c s' th') :
      ThreadStep ps o s t th s' th'
  | segmentRefused {q : Request} {c : Nat} {os : Os} (hpc : th.pc = .mapSegment q c)
      (hmap : osAllocAligned ps o.mapping s.os segmentSize segmentSize .small = (none, os)) :
      ThreadStep ps o s t th
        (failAlloc { s with central := { s.central with mtx := none } } th q).1
        (failAlloc { s with central := { s.central with mtx := none } } th q).2
  | mapSegment {q : Request} {c b : Nat} {os : Os} (hpc : th.pc = .mapSegment q c)
      (hmap : osAllocAligned ps o.mapping s.os segmentSize segmentSize .small = (some b, os)) :
      ThreadStep ps o s t th (initSegment { s with os := os } b)
        { th with pc := .registerSegment q c b }
  | registerSegment {q : Request} {c b : Nat} {w : TableWorld} {r : Registry} {s' : Store}
      {th' : Thread} (hpc : th.pc = .registerSegment q c b)
      (hreg : storeRegister ps o s b = some (w, r))
      (hend : AcquireEnd { s with os := w.os, registry := r } t th q c s' th') :
      ThreadStep ps o s t th s' th'
  | unregisterSegment {b : Nat} {after : After} {r : Registry}
      (hpc : th.pc = .unregisterSegment b after) (hunreg : regionUnregister s.registry b = some r) :
      ThreadStep ps o s t th { s with registry := r } { th with pc := .unmapSegment b after }
  | unmapSegment {b : Nat} {after : After} {s' : Store} {th' : Thread}
      (hpc : th.pc = .unmapSegment b after)
      (hafter : stepAfter { s with os := osFree s.os b (s.seg.mmapSize b) } th after =
        some (s', th')) : ThreadStep ps o s t th s' th'
  | largeRefused {q : Request} {offset mmapSize : Nat} {os : Os}
      (hpc : th.pc = .large q offset mmapSize)
      (hmap : osAllocAligned ps o.mapping s.os mmapSize segmentSize (.large offset) = (none, os)) :
      ThreadStep ps o s t th (failAlloc s th q).1 (failAlloc s th q).2
  | mapLarge {q : Request} {offset mmapSize b : Nat} {os : Os}
      (hpc : th.pc = .large q offset mmapSize)
      (hmap : osAllocAligned ps o.mapping s.os mmapSize segmentSize (.large offset) =
        (some b, os)) :
      ThreadStep ps o s t th
        { s with
          os := { os with
            mem := writeWord (writeWord (writeWord (writeWord os.mem b 1) (b + 8) mmapSize)
              (b + 16) offset) (b + 24) q.size }
          largeCount := Word.add 64 s.largeCount 1
          largeBytes := Word.add 64 s.largeBytes mmapSize
          grants := Function.update s.grants (b + offset)
            (some ⟨q.size, mmapSize - offset, .fresh t, .large b⟩) }
        { th with pc := .registerLarge q offset mmapSize b }
  | registerLarge {q : Request} {offset mmapSize b : Nat} {w : TableWorld} {r : Registry}
      (hpc : th.pc = .registerLarge q offset mmapSize b)
      (hreg : storeRegister ps o s b = some (w, r)) :
      ThreadStep ps o s t th
        (deliver { s with os := w.os, registry := r } t th q (b + offset) (mmapSize - offset)
          (.large b)).1
        (deliver { s with os := w.os, registry := r } t th q (b + offset) (mmapSize - offset)
          (.large b)).2
  | dropLarge {p result : Nat} {r : Registry} (hpc : th.pc = .free p result)
      (hlarge : isLarge s.os.mem p = true)
      (hunreg : regionUnregister s.registry (regionBase p) = some r) :
      ThreadStep ps o s t th
        { s with
          registry := r
          largeCount := Word.sub 64 s.largeCount 1
          largeBytes := Word.sub 64 s.largeBytes (largeMmapSize s.os.mem (regionBase p))
          largeWrapped := s.largeWrapped || decide (s.largeCount < 1) ||
            decide (s.largeBytes < largeMmapSize s.os.mem (regionBase p)) }
        { th with
          pc := .unmapLarge p (regionBase p) (largeMmapSize s.os.mem (regionBase p)) result }
  | freeLocal {p result : Nat} (hpc : th.pc = .free p result)
      (hsmall : isLarge s.os.mem p = false)
      (howner : s.page.owner (pageOf p) = Owner.ofHeap th.heap)
      (hkeep : (pushLocal s (pageOf p) p).page.used (pageOf p) = 0 →
        ∃ k, s.page.owner (pageOf p) = .heap k ∧
          s.slot k (s.page.sizeClass (pageOf p)) = pageOf p) :
      ThreadStep ps o s t th
        (finishFree { pushLocal s (pageOf p) p with
          grants := Function.update s.grants p none } th result).1
        (finishFree { pushLocal s (pageOf p) p with
          grants := Function.update s.grants p none } th result).2
  | freeDrained {p result k : Nat} (hpc : th.pc = .free p result)
      (hsmall : isLarge s.os.mem p = false)
      (howner : s.page.owner (pageOf p) = Owner.ofHeap th.heap)
      (hused : (pushLocal s (pageOf p) p).page.used (pageOf p) = 0)
      (hheap : s.page.owner (pageOf p) = .heap k)
      (hslot : s.slot k (s.page.sizeClass (pageOf p)) ≠ pageOf p) :
      ThreadStep ps o s t th
        { pushLocal s (pageOf p) p with grants := Function.update s.grants p none }
        { th with pc := .release (pageOf p) result }
  | freeRemote {p result : Nat} (hpc : th.pc = .free p result)
      (hsmall : isLarge s.os.mem p = false)
      (howner : s.page.owner (pageOf p) ≠ Owner.ofHeap th.heap) :
      ThreadStep ps o s t th
        { s with os := { s.os with
          mem := writeWord s.os.mem p (s.page.threadFree (pageOf p)) } }
        { th with pc := .remote p (s.page.threadFree (pageOf p)) result }
  | exchange {p head result : Nat} (hpc : th.pc = .remote p head result)
      (hnow : s.page.threadFree (pageOf p) = head) (hstrong : o.spurious = false) :
      ThreadStep ps o s t th
        (finishFree { s with
          page := { s.page with threadFree := Function.update s.page.threadFree (pageOf p) p }
          grants := Function.update s.grants p none } th result).1
        (finishFree { s with
          page := { s.page with threadFree := Function.update s.page.threadFree (pageOf p) p }
          grants := Function.update s.grants p none } th result).2
  | retry {p head result : Nat} (hpc : th.pc = .remote p head result)
      (hfail : ¬ (s.page.threadFree (pageOf p) = head ∧ o.spurious = false)) :
      ThreadStep ps o s t th
        { s with os := { s.os with
          mem := writeWord s.os.mem p (s.page.threadFree (pageOf p)) } }
        { th with pc := .remote p (s.page.threadFree (pageOf p)) result }
  | release {pg : PageId} {result : Nat} {dead : Option Nat} {s₁ s₂ s' : Store} {th' : Thread}
      (hpc : th.pc = .release pg result) (hunlink : unlinkEmpty s pg = some s₁)
      (hpool : centralReleasePage s₁ pg = some (s₂, dead))
      (hafter : afterPool s₂ t th dead (.freed result) = some (s', th')) :
      ThreadStep ps o s t th s' th'
  | unmapLarge {p base size result : Nat} (hpc : th.pc = .unmapLarge p base size result) :
      ThreadStep ps o s t th
        (finishFree { s with
          os := osFree s.os base size
          grants := Function.update s.grants p none } th result).1
        (finishFree { s with
          os := osFree s.os base size
          grants := Function.update s.grants p none } th result).2
  | destroy {c : Nat} {p : PageId} {s₁ : Store} (hpc : th.pc = .destroy c p)
      (hcollect : pageCollect s p = some s₁) :
      ThreadStep ps o s t th s₁ { th with pc := .hand c p (s.page.next p) }
  | handRelease {c : Nat} {p : PageId} {next : Option PageId} {dead : Option Nat} {s₁ s' : Store}
      {th' : Thread} (hpc : th.pc = .hand c p next) (hused : s.page.used p = 0)
      (hpool : centralReleasePage s p = some (s₁, dead))
      (hafter : afterPool s₁ t th dead (.destroying c next) = some (s', th')) :
      ThreadStep ps o s t th s' th'
  | handAbandon {c : Nat} {p : PageId} {next : Option PageId} {s' : Store} {th' : Thread}
      (hpc : th.pc = .hand c p next) (hused : s.page.used p ≠ 0)
      (hafter : stepAfter (centralAbandonPage s p) th (.destroying c next) = some (s', th')) :
      ThreadStep ps o s t th s' th'
  | unlinkHeap {k : Nat} (hpc : th.pc = .unlinkHeap) (hheap : th.heap = some k) :
      ThreadStep ps o s t th { s with heapRegistry := s.heapRegistry.erase k }
        { th with pc := .unmapHeap }
  | unmapHeap {k : Nat} (hpc : th.pc = .unmapHeap) (hheap : th.heap = some k) :
      ThreadStep ps o s t th { s with os := osFree s.os k (heapBytes ps) }
        { th with heap := none, guardDone := true, pc := .idle }

section Inversion

variable {ps : PageSize} {o : Oracle} {s s' : Store} {t : Nat} {th th' : Thread} {q : Request}
  {c : Nat}

theorem finishAcquire_cases (h : finishAcquire s t th q c = some (s', th')) :
    AcquireEnd s t th q c s' th' := by
  simp only [finishAcquire, Option.bind_eq_bind, Option.bind_eq_some_iff] at h
  obtain ⟨k, hheap, ⟨np, s₁⟩, htake, ⟨available, s₂⟩, hmake, h⟩ := h
  cases available with
  | true =>
      simp only [if_true, Option.bind_eq_some_iff] at h
      obtain ⟨⟨b, s₃⟩, hpop, h⟩ := h
      have hserved : AcquireEnd s t th q c _ _ := .served hheap htake hmake hpop
      rw [Option.some.inj h] at hserved
      exact hserved
  | false =>
      have hfailed : AcquireEnd s t th q c _ _ := .failed hheap htake hmake
      rw [Option.some.inj (show some (failAlloc s₂ th q) = _ from h)] at hfailed
      exact hfailed

theorem stepSmall_cases (hpc : th.pc = .small q c)
    (h : stepSmall ps o s t th q c = some (s', th')) : ThreadStep ps o s t th s' th' := by
  unfold stepSmall at h
  split at h
  · rename_i hheap
    split at h
    · cases h
    · rename_i k os hmap
      cases h
      exact .createHeap hpc hheap hmap
  · rename_i k hheap
    dsimp only at h
    split at h
    · rename_i hfree
      simp only [Option.bind_eq_bind, Option.bind_eq_some_iff] at h
      obtain ⟨⟨b, s₁⟩, hpop, h⟩ := h
      have hserve : ThreadStep ps o s t th _ _ := .serve hpc hheap hfree hpop
      rw [Option.some.inj h] at hserve
      exact hserve
    · rename_i hfree
      split at h
      · rename_i hslot
        cases h
        exact .enterWalk hpc hheap (not_not.mp hfree) hslot
      · rename_i hslot
        cases h
        exact .enterAcquire hpc hheap (not_not.mp hfree) (not_not.mp hslot)

theorem stepWalk_cases {p : PageId} (hpc : th.pc = .walk q c p)
    (h : stepWalk s t th q c p = some (s', th')) : ThreadStep ps o s t th s' th' := by
  simp only [stepWalk, Option.bind_eq_bind, Option.bind_eq_some_iff] at h
  obtain ⟨k, hheap, ⟨available, s₁⟩, hmake, h⟩ := h
  cases available with
  | true =>
      simp only [if_true, Option.bind_eq_some_iff] at h
      obtain ⟨⟨b, s₂⟩, hpop, h⟩ := h
      have hserve : ThreadStep ps o s t th _ _ := .walkServe hpc hheap hmake hpop
      rw [Option.some.inj h] at hserve
      exact hserve
  | false =>
      simp only [Bool.false_eq_true, if_false] at h
      split at h
      · rename_i p' hnext
        cases h
        exact .walkNext hpc hmake hnext
      · rename_i hnext
        cases h
        exact .walkEnd hpc hmake hnext

theorem stepSweep_cases {cur : Option PageId} (hpc : th.pc = .sweep q c cur)
    (h : stepSweep s t th q c cur = some (s', th')) : ThreadStep ps o s t th s' th' := by
  unfold stepSweep at h
  split at h
  · rename_i pg hread
    simp only [Option.bind_eq_bind, Option.bind_eq_some_iff] at h
    obtain ⟨⟨s₁, next⟩, hvisit, h⟩ := h
    dsimp only at h
    split at h
    · rename_i hkeep
      cases h
      exact .sweepOn hpc hread hvisit hkeep
    · rename_i b hdrop
      cases h
      exact .sweepDrop hpc hread hvisit hdrop
  · rename_i hread
    split at h
    · rename_i havail
      cases h
      exact .sweepMap hpc hread havail
    · rename_i havail
      exact .sweepAcquire hpc hread havail (finishAcquire_cases h)

theorem stepFree_cases {p result : Nat} (hpc : th.pc = .free p result)
    (h : stepFree s th p result = some (s', th')) : ThreadStep ps o s t th s' th' := by
  unfold stepFree at h
  split at h
  · rename_i hlarge
    simp only [Option.bind_eq_bind, Option.bind_eq_some_iff] at h
    obtain ⟨r, hunreg, h⟩ := h
    cases h
    exact .dropLarge hpc hlarge hunreg
  · rename_i hlarge
    have hsmall : isLarge s.os.mem p = false := Bool.not_eq_true _ ▸ hlarge
    dsimp only at h
    split at h
    · rename_i howner
      have hlocal : ∀ hkeep, ThreadStep ps o s t th _ _ := .freeLocal hpc hsmall howner
      split at h
      · rename_i hused
        split at h
        · rename_i k hheap
          split at h
          · rename_i hslot
            have hstep := hlocal fun _ => ⟨k, hheap, hslot⟩
            rw [Option.some.inj h] at hstep
            exact hstep
          · rename_i hslot
            cases h
            exact .freeDrained hpc hsmall howner hused hheap hslot
        · cases h
      · rename_i hused
        have hstep := hlocal fun hdrained => absurd hdrained hused
        rw [Option.some.inj h] at hstep
        exact hstep
    · rename_i howner
      cases h
      exact .freeRemote hpc hsmall howner

/-- Every step is of one of these kinds. -/
theorem stepThread_cases (h : stepThread ps o s t th = some (s', th')) :
    ThreadStep ps o s t th s' th' := by
  unfold stepThread at h
  cases hpc : th.pc with
  | idle =>
      rw [hpc] at h
      cases h
      exact .idle hpc
  | small q c =>
      rw [hpc] at h
      exact stepSmall_cases hpc h
  | linkHeap q c k =>
      rw [hpc] at h
      cases h
      exact .linkHeap hpc
  | walk q c p =>
      rw [hpc] at h
      exact stepWalk_cases hpc h
  | acquire q c =>
      rw [hpc] at h
      simp only [stepAcquire] at h
      split at h
      · rename_i havail
        cases h
        exact .lock hpc havail
      · rename_i havail
        exact .acquire hpc havail (finishAcquire_cases h)
  | sweep q c cur =>
      rw [hpc] at h
      exact stepSweep_cases hpc h
  | mapSegment q c =>
      rw [hpc] at h
      simp only [stepMapSegment] at h
      split at h
      · rename_i os hmap
        have hrefused : ThreadStep ps o s t th _ _ := .segmentRefused hpc hmap
        rw [Option.some.inj h] at hrefused
        exact hrefused
      · rename_i b os hmap
        cases h
        exact .mapSegment hpc hmap
  | registerSegment q c b =>
      rw [hpc] at h
      simp only [stepRegisterSegment, Option.bind_eq_bind, Option.bind_eq_some_iff] at h
      obtain ⟨⟨w, r⟩, hreg, h⟩ := h
      exact .registerSegment hpc hreg (finishAcquire_cases h)
  | unregisterSegment b after =>
      rw [hpc] at h
      simp only [stepUnregisterSegment, Option.bind_eq_bind, Option.bind_eq_some_iff] at h
      obtain ⟨r, hunreg, h⟩ := h
      cases h
      exact .unregisterSegment hpc hunreg
  | unmapSegment b after =>
      rw [hpc] at h
      exact .unmapSegment hpc h
  | large q offset mmapSize =>
      rw [hpc] at h
      simp only [stepLarge] at h
      split at h
      · rename_i os hmap
        have hrefused : ThreadStep ps o s t th _ _ := .largeRefused hpc hmap
        rw [Option.some.inj h] at hrefused
        exact hrefused
      · rename_i b os hmap
        cases h
        exact .mapLarge hpc hmap
  | registerLarge q offset mmapSize b =>
      rw [hpc] at h
      simp only [stepRegisterLarge, Option.bind_eq_bind, Option.bind_eq_some_iff] at h
      obtain ⟨⟨w, r⟩, hreg, h⟩ := h
      have hstep : ThreadStep ps o s t th _ _ := .registerLarge hpc hreg
      rw [Option.some.inj h] at hstep
      exact hstep
  | free p result =>
      rw [hpc] at h
      exact stepFree_cases hpc h
  | remote p head result =>
      rw [hpc] at h
      simp only [stepRemote] at h
      split at h
      · rename_i hnow
        cases h
        exact .exchange hpc hnow.1 hnow.2
      · rename_i hfail
        cases h
        exact .retry hpc hfail
  | release pg result =>
      rw [hpc] at h
      simp only [stepRelease, Option.bind_eq_bind, Option.bind_eq_some_iff] at h
      obtain ⟨s₁, hunlink, ⟨s₂, dead⟩, hpool, h⟩ := h
      exact .release hpc hunlink hpool h
  | unmapLarge p base size result =>
      rw [hpc] at h
      cases h
      exact .unmapLarge hpc
  | destroy c p =>
      rw [hpc] at h
      simp only [stepDestroy, Option.bind_eq_bind, Option.bind_eq_some_iff] at h
      obtain ⟨s₁, hcollect, h⟩ := h
      cases h
      exact .destroy hpc hcollect
  | hand c p next =>
      rw [hpc] at h
      simp only [stepHand] at h
      split at h
      · rename_i hused
        simp only [Option.bind_eq_bind, Option.bind_eq_some_iff] at h
        obtain ⟨⟨s₁, dead⟩, hpool, h⟩ := h
        exact .handRelease hpc hused hpool h
      · rename_i hused
        exact .handAbandon hpc hused h
  | unlinkHeap =>
      rw [hpc] at h
      simp only [stepUnlinkHeap, Option.bind_eq_bind, Option.bind_eq_some_iff] at h
      obtain ⟨k, hheap, h⟩ := h
      cases h
      exact .unlinkHeap hpc hheap
  | unmapHeap =>
      rw [hpc] at h
      simp only [stepUnmapHeap, Option.bind_eq_bind, Option.bind_eq_some_iff] at h
      obtain ⟨k, hheap, h⟩ := h
      cases h
      exact .unmapHeap hpc hheap

end Inversion

end HMalloc
