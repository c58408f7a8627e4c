import HMalloc.Inversion
import HMalloc.System

/-!
What a step of a thread does to the mapped memory, the two registries and the
large counters (`Effect`). Most steps are quiet: they work on pages, blocks and
lists. The others map or unmap one region, or enter it in or take it out of the
registry that records it; between the two the region is in transit, and only
the thread that has it knows of it.

The inversion (`stepThread_effect`) needs no invariant.
-/

namespace HMalloc

open Bytes Linked

/-- The step concerns no mapping, no registry and no counter of large regions. -/
structure Quiet (s s' : Store) : Prop where
  os : s'.os = { s.os with mem := s'.os.mem }
  registry : s'.registry = s.registry
  heaps : s'.heapRegistry = s.heapRegistry
  largeCount : s'.largeCount = s.largeCount
  largeBytes : s'.largeBytes = s.largeBytes
  largeWrapped : s'.largeWrapped = s.largeWrapped

theorem Quiet.refl (s : Store) : Quiet s s := ⟨rfl, rfl, rfl, rfl, rfl, rfl⟩

theorem Quiet.trans {s s' s'' : Store} (h : Quiet s s') (h' : Quiet s' s'') : Quiet s s'' where
  os := by
    rw [h'.os, h.os]
  registry := h'.registry.trans h.registry
  heaps := h'.heaps.trans h.heaps
  largeCount := h'.largeCount.trans h.largeCount
  largeBytes := h'.largeBytes.trans h.largeBytes
  largeWrapped := h'.largeWrapped.trans h.largeWrapped

theorem Quiet.regions {s s' : Store} (h : Quiet s s') : s'.os.regions = s.os.regions := by
  rw [h.os]

theorem Quiet.mapped {s s' : Store} (h : Quiet s s') : s'.os.mapped = s.os.mapped := by
  rw [h.os]

theorem Quiet.bytesMapped {s s' : Store} (h : Quiet s s') :
    s'.os.bytesMapped = s.os.bytesMapped := by
  rw [h.os]

/-- Nor does it concern a pointer. -/
structure Inner (s s' : Store) : Prop extends Quiet s s' where
  grants : s'.grants = s.grants

theorem Inner.refl (s : Store) : Inner s s := ⟨Quiet.refl s, rfl⟩

theorem Inner.trans {s s' s'' : Store} (h : Inner s s') (h' : Inner s' s'') : Inner s s'' :=
  ⟨h.toQuiet.trans h'.toQuiet, h'.grants.trans h.grants⟩

section Operations

variable {s s' : Store}

theorem pageCollect_inner {pg : PageId} (h : pageCollect s pg = some s') : Inner s s' := by
  obtain ⟨mem, free, used, rfl⟩ := pageCollect_shape h
  exact ⟨⟨rfl, rfl, rfl, rfl, rfl, rfl⟩, rfl⟩

theorem pageMakeAvailable_inner {pg : PageId} {available : Bool}
    (h : pageMakeAvailable s pg = some (available, s')) : Inner s s' := by
  obtain ⟨mem, free, used, reserved, threadFree, rfl⟩ := pageMakeAvailable_shape h
  exact ⟨⟨rfl, rfl, rfl, rfl, rfl, rfl⟩, rfl⟩

theorem pagePop_inner {pg : PageId} {b : Nat} (h : pagePop s pg = some (b, s')) : Inner s s' := by
  obtain ⟨_, _, rfl⟩ := pagePop_shape h
  exact ⟨⟨rfl, rfl, rfl, rfl, rfl, rfl⟩, rfl⟩

theorem heapRotateToFront_inner (s : Store) (h c : Nat) (p : PageId) :
    Inner s (heapRotateToFront s h c p) := by
  obtain ⟨next, prev, slot, heq, _⟩ := heapRotateToFront_shape s h c p
  rw [heq]
  exact ⟨⟨rfl, rfl, rfl, rfl, rfl, rfl⟩, rfl⟩

theorem unlinkEmpty_inner {pg : PageId} (h : unlinkEmpty s pg = some s') : Inner s s' := by
  obtain ⟨_, rfl⟩ := unlinkEmpty_shape h
  exact ⟨⟨rfl, rfl, rfl, rfl, rfl, rfl⟩, rfl⟩

theorem poolReturn_inner {pg : PageId} {dead : Option Nat}
    (h : poolReturn s pg = some (s', dead)) : Inner s s' := by
  obtain ⟨seg, central, rfl⟩ := poolReturn_shape h
  exact ⟨⟨rfl, rfl, rfl, rfl, rfl, rfl⟩, rfl⟩

theorem centralReleasePage_inner {pg : PageId} {dead : Option Nat}
    (h : centralReleasePage s pg = some (s', dead)) : Inner s s' := by
  refine Inner.trans ?_ (poolReturn_inner (show poolReturn _ pg = _ from h))
  exact ⟨⟨rfl, rfl, rfl, rfl, rfl, rfl⟩, rfl⟩

theorem centralAbandonPage_inner (s : Store) (pg : PageId) : Inner s (centralAbandonPage s pg) :=
  ⟨⟨rfl, rfl, rfl, rfl, rfl, rfl⟩, rfl⟩

theorem sweepVisit_inner {cur : Option PageId} {pg : PageId} {next : SweepNext}
    (h : sweepVisit s cur pg = some (s', next)) : Inner s s' := by
  obtain ⟨s₁, hcollect, ⟨_, dead, _, hpool⟩ | ⟨_, rfl, _⟩⟩ := sweepVisit_cases h
  · refine (pageCollect_inner hcollect).trans (Inner.trans ?_ (poolReturn_inner hpool))
    exact ⟨⟨rfl, rfl, rfl, rfl, rfl, rfl⟩, rfl⟩
  · exact pageCollect_inner hcollect

theorem takePage_inner {owner cls blockSize : Nat} {pg : PageId}
    (h : takePage s owner cls blockSize = some (pg, s')) : Inner s s' := by
  obtain ⟨b, seg, central, _, _, rfl⟩ := takePage_shape h
  exact ⟨⟨rfl, rfl, rfl, rfl, rfl, rfl⟩, rfl⟩

theorem initPages_inner (b n i : Nat) (s : Store) : Inner s (initPages b n i s) := by
  induction n generalizing i s with
  | zero => exact Inner.refl s
  | succ n ih =>
      unfold initPages
      refine Inner.trans ?_ (ih (i + 1) _)
      exact ⟨⟨rfl, rfl, rfl, rfl, rfl, rfl⟩, rfl⟩

theorem initSegment_inner (s : Store) (b : Nat) : Inner s (initSegment s b) := by
  have hzero : Inner s (zeroSegment s b) := ⟨⟨rfl, rfl, rfl, rfl, rfl, rfl⟩, rfl⟩
  exact (hzero.trans (initPages_inner b usablePagesPerSegment firstUsablePage _)).trans
    ⟨⟨rfl, rfl, rfl, rfl, rfl, rfl⟩, rfl⟩

end Operations

/-- The region a thread has mapped and not yet recorded, or has taken out of
its registry and not yet unmapped. -/
def Thread.transit (th : Thread) : Option Nat :=
  match th.pc with
  | .linkHeap _ _ h => some h
  | .unmapHeap => th.heap
  | .registerSegment _ _ b | .unmapSegment b _ => some b
  | .registerLarge _ _ _ b | .unmapLarge _ b _ _ => some b
  | _ => none

/-- The large region a thread has given up and not yet unmapped. -/
def Thread.dropping (th : Thread) : Option Nat :=
  match th.pc with
  | .unmapLarge _ b _ _ => some b
  | _ => none

theorem Thread.dropping_of_transit {th : Thread} (h : th.transit = none) : th.dropping = none := by
  unfold Thread.transit at h
  unfold Thread.dropping
  split at h <;> simp_all

/-- The region a thread is about to enter in the region registry. -/
def Pc.registers : Pc → Option Nat
  | .registerSegment _ _ b | .registerLarge _ _ _ b => some b
  | _ => none

/-- The thread goes on with no region in transit, as the same thread. -/
structure Settles (th th' : Thread) : Prop where
  transit : th'.transit = none
  same : th' = { th with pc := th'.pc, result := th'.result }

theorem Settles.heap {th th' : Thread} (h : Settles th th') : th'.heap = th.heap := by
  rw [h.same]

section Settles

variable (s : Store) (t : Nat) (th : Thread) (q : Request)

theorem deliver_effect (p usable : Nat) (origin : Origin) :
    Quiet s (deliver s t th q p usable origin).1 ∧
      Settles th (deliver s t th q p usable origin).2 := by
  unfold deliver
  cases q.old <;> exact ⟨⟨rfl, rfl, rfl, rfl, rfl, rfl⟩, rfl, rfl⟩

theorem failAlloc_effect : Quiet s (failAlloc s th q).1 ∧ Settles th (failAlloc s th q).2 := by
  unfold failAlloc
  cases q.old <;> exact ⟨⟨rfl, rfl, rfl, rfl, rfl, rfl⟩, rfl, rfl⟩

theorem scanClasses_transit (h n c : Nat) :
    ({ th with pc := scanClasses s h n c } : Thread).transit = none := by
  rcases scanClasses_cases s h n c with heq | ⟨c', p, heq⟩ <;> rw [heq] <;> rfl

theorem destroyNext_effect (h c : Nat) (next : Option PageId) :
    Quiet s (destroyNext s th h c next).1 ∧ Settles th (destroyNext s th h c next).2 := by
  obtain ⟨slot, pc, heq, hpc⟩ := destroyNext_shape s th h c next
  rw [heq]
  refine ⟨⟨rfl, rfl, rfl, rfl, rfl, rfl⟩, ?_, rfl⟩
  rcases hpc with rfl | ⟨c', p, rfl⟩ <;> rfl

variable {s t th q} {s' : Store} {th' : Thread}

theorem stepAfter_effect {after : After} (h : stepAfter s th after = some (s', th')) :
    Quiet s s' ∧ Settles th th' := by
  cases after with
  | freed result =>
      cases h
      exact ⟨⟨rfl, rfl, rfl, rfl, rfl, rfl⟩, rfl, rfl⟩
  | destroying c next =>
      simp only [stepAfter, Option.bind_eq_bind, Option.bind_eq_some_iff] at h
      obtain ⟨k, _, h⟩ := h
      obtain ⟨hq, hs⟩ := destroyNext_effect { s with central := { s.central with mtx := none } }
        th k c next
      have h' := Option.some.inj h
      rw [h'] at hq hs
      refine ⟨Quiet.trans ?_ hq, hs⟩
      exact ⟨rfl, rfl, rfl, rfl, rfl, rfl⟩
  | sweeping q c cur =>
      cases h
      exact ⟨Quiet.refl s, rfl, rfl⟩

theorem afterPool_effect {dead : Option Nat} {after : After}
    (h : afterPool s t th dead after = some (s', th')) : Quiet s s' ∧ Settles th th' := by
  cases dead with
  | none => exact stepAfter_effect h
  | some b =>
      cases h
      exact ⟨⟨rfl, rfl, rfl, rfl, rfl, rfl⟩, rfl, rfl⟩

theorem AcquireEnd.effect {c : Nat} (h : AcquireEnd s t th q c s' th') :
    Quiet s s' ∧ Settles th th' := by
  have hmade : ∀ {k np available s₁ s₂}, takePage s k c (classToSize c) = some (np, s₁) →
      pageMakeAvailable
        (linkFresh { s₁ with central := { s₁.central with mtx := none } } k c np) np =
          some (available, s₂) → Quiet s s₂ := by
    intro k np available s₁ s₂ htake hmake
    refine (takePage_inner htake).toQuiet.trans
      (Quiet.trans ?_ (pageMakeAvailable_inner hmake).toQuiet)
    exact ⟨rfl, rfl, rfl, rfl, rfl, rfl⟩
  cases h with
  | served hheap htake hmake hpop =>
      obtain ⟨hq, hs⟩ := deliver_effect _ t th q _ _ _
      exact ⟨((hmade htake hmake).trans (pagePop_inner hpop).toQuiet).trans hq, hs⟩
  | failed hheap htake hmake =>
      obtain ⟨hq, hs⟩ := failAlloc_effect _ th q
      exact ⟨(hmade htake hmake).trans hq, hs⟩

end Settles

/-- The thread has no region in transit and is not about to give up a large
one. -/
structure Plain (s : Store) (th : Thread) : Prop where
  transit : th.transit = none
  small : ∀ p result, th.pc = .free p result → isLarge s.os.mem p = false

/-- What a step of thread `t` does beyond pages, blocks and lists. -/
inductive Effect (ps : PageSize) (o : Oracle) (s : Store) (t : Nat) (th : Thread) :
    Store → Thread → Prop where
  | quiet {s' : Store} {th' : Thread} (plain : Plain s th) (hq : Quiet s s')
      (hs : Settles th th') : Effect ps o s t th s' th'
  | mapHeap {q : Request} {c h : Nat} {os : Os} {s' : Store} (hpc : th.pc = .small q c)
      (heap : th.heap = none)
      (hmap : osAllocAligned ps o.mapping s.os (heapBytes ps) ps.bytes (.heap t) = (some h, os))
      (hq : Quiet { s with os := os } s') : Effect ps o s t th s' { th with pc := .linkHeap q c h }
  | linkHeap {q : Request} {c h : Nat} (hpc : th.pc = .linkHeap q c h) :
      Effect ps o s t th { s with heapRegistry := h :: s.heapRegistry }
        { th with heap := some h, guardMade := true, pc := .small q c }
  | mapSegment {q : Request} {c b : Nat} {os : Os} {s' : Store} (hpc : th.pc = .mapSegment q c)
      (hmap : osAllocAligned ps o.mapping s.os segmentSize segmentSize .small = (some b, os))
      (hq : Quiet { s with os := os } s') :
      Effect ps o s t th s' { th with pc := .registerSegment q c b }
  | registerSegment {q : Request} {c b : Nat} {w : TableWorld} {r : Registry} {s' : Store}
      {th' : Thread} (hpc : th.pc = .registerSegment q c b)
      (hreg : storeRegister ps o s b = some (w, r))
      (hq : Quiet { s with os := w.os, registry := r } s') (hs : Settles th th') :
      Effect ps o s t th s' th'
  | unregisterSegment {b : Nat} {after : After} {r : Registry}
      (hpc : th.pc = .unregisterSegment b after) (hunreg : regionUnregister s.registry b = some r) :
      Effect ps o s t th { s with registry := r } { th with pc := .unmapSegment b after }
  | unmapSegment {b : Nat} {after : After} {s' : Store} {th' : Thread}
      (hpc : th.pc = .unmapSegment b after)
      (hq : Quiet { s with os := osFree s.os b (s.seg.mmapSize b) } s') (hs : Settles th th') :
      Effect ps o s t th s' th'
  | mapLarge {q : Request} {offset mmapSize b : Nat} {os : Os} {s' : Store}
      (hpc : th.pc = .large q offset mmapSize)
      (hmap : osAllocAligned ps o.mapping s.os mmapSize segmentSize (.large offset) = (some b, os))
      (hq : Quiet { s with
        os := os
        largeCount := Word.add 64 s.largeCount 1
        largeBytes := Word.add 64 s.largeBytes mmapSize } s') :
      Effect ps o s t th s' { th with pc := .registerLarge q offset mmapSize b }
  | registerLarge {q : Request} {offset mmapSize b : Nat} {w : TableWorld} {r : Registry}
      {s' : Store} {th' : Thread} (hpc : th.pc = .registerLarge q offset mmapSize b)
      (hreg : storeRegister ps o s b = some (w, r))
      (hq : Quiet { s with os := w.os, registry := r } s') (hs : Settles th th') :
      Effect ps o s t th s' th'
  | dropLarge {p result : Nat} {r : Registry} (hpc : th.pc = .free p result)
      (large : isLarge s.os.mem p = true)
      (hunreg : regionUnregister s.registry (regionBase p) = some r) :
      Effect ps o s t th
        { s with
          registry := r
          largeCount := Word.sub 64 s.largeCount 1
          largeBytes := Word.sub 64 s.largeBytes (largeMmapSize s.os.mem (regionBase p))
          largeWrapped := s.largeWrapped || decide (s.largeCount < 1) ||
            decide (s.largeBytes < largeMmapSize s.os.mem (regionBase p)) }
        { th with
          pc := .unmapLarge p (regionBase p) (largeMmapSize s.os.mem (regionBase p)) result }
  | unmapLarge {p base size result : Nat} {s' : Store} {th' : Thread}
      (hpc : th.pc = .unmapLarge p base size result)
      (hq : Quiet { s with os := osFree s.os base size } s') (hs : Settles th th') :
      Effect ps o s t th s' th'
  | unlinkHeap {h : Nat} (hpc : th.pc = .unlinkHeap) (heap : th.heap = some h) :
      Effect ps o s t th { s with heapRegistry := s.heapRegistry.erase h }
        { th with pc := .unmapHeap }
  | unmapHeap {h : Nat} (hpc : th.pc = .unmapHeap) (heap : th.heap = some h) :
      Effect ps o s t th { s with os := osFree s.os h (heapBytes ps) }
        { th with heap := none, guardDone := true, pc := .idle }

section Kinds

variable {ps : PageSize} {o : Oracle} {s s' : Store} {t : Nat} {th th' : Thread}

theorem transit_of_pc {pc : Pc} (hpc : th.pc = pc)
    (h : ({ th with pc := pc } : Thread).transit = none) : th.transit = none := by
  rwa [show ({ th with pc := pc } : Thread) = th by rw [← hpc]] at h

theorem plain_of_pc {pc : Pc} (hpc : th.pc = pc)
    (h : ({ th with pc := pc } : Thread).transit = none) (hfree : ∀ p r, pc ≠ .free p r) :
    Plain s th :=
  ⟨transit_of_pc hpc h, fun p r hp => absurd (hpc.symm.trans hp) (hfree p r)⟩

theorem plain_of_small {p result : Nat} (hpc : th.pc = .free p result)
    (hsmall : isLarge s.os.mem p = false) : Plain s th := by
  refine ⟨transit_of_pc hpc rfl, fun p' r hp => ?_⟩
  rw [hpc] at hp
  cases hp
  exact hsmall

theorem ThreadStep.effect (hidle : th.pc ≠ .idle) (h : ThreadStep ps o s t th s' th') :
    Effect ps o s t th s' th' := by
  cases h with
  | idle hpc => exact absurd hpc hidle
  | createHeap hpc hheap hmap => exact .mapHeap hpc hheap hmap ⟨rfl, rfl, rfl, rfl, rfl, rfl⟩
  | serve hpc _ _ hpop =>
      obtain ⟨hq, hs⟩ := deliver_effect _ t th _ _ _ _
      exact .quiet (plain_of_pc hpc rfl (by simp)) ((pagePop_inner hpop).toQuiet.trans hq) hs
  | enterWalk hpc | enterAcquire hpc | sweepMap hpc =>
      exact .quiet (plain_of_pc hpc rfl (by simp)) (Quiet.refl s) ⟨rfl, rfl⟩
  | linkHeap hpc => exact .linkHeap hpc
  | walkServe hpc _ hmake hpop =>
      obtain ⟨hq, hs⟩ := deliver_effect _ t th _ _ _ _
      have hpopped := (heapRotateToFront_inner ..).trans (pagePop_inner hpop)
      exact .quiet (plain_of_pc hpc rfl (by simp))
        (((pageMakeAvailable_inner hmake).trans hpopped).toQuiet.trans hq) hs
  | walkNext hpc hmake | walkEnd hpc hmake =>
      exact .quiet (plain_of_pc hpc rfl (by simp)) (pageMakeAvailable_inner hmake).toQuiet
        ⟨rfl, rfl⟩
  | lock hpc | retry hpc | exchange hpc =>
      exact .quiet (plain_of_pc hpc rfl (by simp)) ⟨rfl, rfl, rfl, rfl, rfl, rfl⟩ ⟨rfl, rfl⟩
  | acquire hpc _ hend | sweepAcquire hpc _ _ hend =>
      obtain ⟨hq, hs⟩ := hend.effect
      exact .quiet (plain_of_pc hpc rfl (by simp)) hq hs
  | sweepOn hpc _ hvisit | sweepDrop hpc _ hvisit =>
      exact .quiet (plain_of_pc hpc rfl (by simp)) (sweepVisit_inner hvisit).toQuiet ⟨rfl, rfl⟩
  | segmentRefused hpc =>
      obtain ⟨hq, hs⟩ := failAlloc_effect { s with central := { s.central with mtx := none } } th _
      refine .quiet (plain_of_pc hpc rfl (by simp)) (Quiet.trans ?_ hq) hs
      exact ⟨rfl, rfl, rfl, rfl, rfl, rfl⟩
  | mapSegment hpc hmap => exact .mapSegment hpc hmap (initSegment_inner _ _).toQuiet
  | registerSegment hpc hreg hend =>
      obtain ⟨hq, hs⟩ := hend.effect
      exact .registerSegment hpc hreg hq hs
  | unregisterSegment hpc hunreg => exact .unregisterSegment hpc hunreg
  | unmapSegment hpc hafter =>
      obtain ⟨hq, hs⟩ := stepAfter_effect hafter
      exact .unmapSegment hpc hq hs
  | largeRefused hpc =>
      obtain ⟨hq, hs⟩ := failAlloc_effect s th _
      exact .quiet (plain_of_pc hpc rfl (by simp)) hq hs
  | mapLarge hpc hmap => exact .mapLarge hpc hmap ⟨rfl, rfl, rfl, rfl, rfl, rfl⟩
  | registerLarge hpc hreg =>
      obtain ⟨hq, hs⟩ := deliver_effect _ t th _ _ _ _
      exact .registerLarge hpc hreg hq hs
  | dropLarge hpc hlarge hunreg => exact .dropLarge hpc hlarge hunreg
  | freeLocal hpc hsmall | freeDrained hpc hsmall | freeRemote hpc hsmall =>
      exact .quiet (plain_of_small hpc hsmall) ⟨rfl, rfl, rfl, rfl, rfl, rfl⟩ ⟨rfl, rfl⟩
  | release hpc hunlink hpool hafter =>
      obtain ⟨hq, hs⟩ := afterPool_effect hafter
      have hback := (unlinkEmpty_inner hunlink).trans (centralReleasePage_inner hpool)
      exact .quiet (plain_of_pc hpc rfl (by simp)) (hback.toQuiet.trans hq) hs
  | unmapLarge hpc =>
      exact .unmapLarge hpc ⟨rfl, rfl, rfl, rfl, rfl, rfl⟩ ⟨rfl, rfl⟩
  | destroy hpc hcollect =>
      exact .quiet (plain_of_pc hpc rfl (by simp)) (pageCollect_inner hcollect).toQuiet ⟨rfl, rfl⟩
  | handRelease hpc _ hpool hafter =>
      obtain ⟨hq, hs⟩ := afterPool_effect hafter
      exact .quiet (plain_of_pc hpc rfl (by simp))
        ((centralReleasePage_inner hpool).toQuiet.trans hq) hs
  | handAbandon hpc _ hafter =>
      obtain ⟨hq, hs⟩ := stepAfter_effect hafter
      exact .quiet (plain_of_pc hpc rfl (by simp)) ((centralAbandonPage_inner s _).toQuiet.trans hq)
        hs
  | unlinkHeap hpc hheap => exact .unlinkHeap hpc hheap
  | unmapHeap hpc hheap => exact .unmapHeap hpc hheap

/-- Every step is of one of these kinds. -/
theorem stepThread_effect (hidle : th.pc ≠ .idle) (h : stepThread ps o s t th = some (s', th')) :
    Effect ps o s t th s' th' :=
  (stepThread_cases h).effect hidle

end Kinds

section Entry

/-- Where a call starts. -/
def Entry.Starts : Entry → Prop
  | .ret _ => True
  | .goto pc => (∃ q c, pc = .small q c) ∨ (∃ q offset size, pc = .large q offset size) ∨
      ∃ p, pc = .free p 0

theorem Entry.Starts.ite {P : Prop} [Decidable P] {a b : Entry} (ha : a.Starts) (hb : b.Starts) :
    (if P then a else b).Starts := by
  split
  · exact ha
  · exact hb

theorem allocLarge_starts (ps : PageSize) (q : Request) (align : Nat) :
    (allocLarge ps q align).Starts :=
  .ite trivial (.ite trivial (Or.inr (Or.inl ⟨_, _, _, rfl⟩)))

theorem hmMalloc_starts (ps : PageSize) (q : Request) : (hmMalloc ps q).Starts :=
  .ite trivial (.ite (Or.inl ⟨_, _, rfl⟩) (allocLarge_starts ps q allocAlign))

theorem enter_starts (ps : PageSize) (s : Store) (call : Call) : (enter ps s call).Starts := by
  cases call with
  | malloc size => exact hmMalloc_starts ps _
  | calloc nmemb size =>
      exact .ite trivial (.ite trivial (.ite (Or.inl ⟨_, _, rfl⟩) (allocLarge_starts ps _ _)))
  | realloc ptr size =>
      exact .ite (hmMalloc_starts ps _)
        (.ite (Or.inr (Or.inr ⟨ptr, rfl⟩)) (.ite trivial (hmMalloc_starts ps _)))
  | alignedAlloc alignment size =>
      exact .ite trivial (.ite trivial (.ite (hmMalloc_starts ps _)
        (.ite (Or.inl ⟨_, _, rfl⟩) (.ite trivial (allocLarge_starts ps _ alignment)))))
  | free ptr => exact .ite trivial (Or.inr (Or.inr ⟨ptr, rfl⟩))

/-- A call starts with no region in transit. -/
theorem enter_transit {ps : PageSize} {s : Store} {call : Call} {pc : Pc}
    (h : enter ps s call = .goto pc) (th : Thread) :
    ({ th with pc := pc } : Thread).transit = none := by
  have hstarts := enter_starts ps s call
  rw [h] at hstarts
  rcases hstarts with ⟨q, c, rfl⟩ | ⟨q, offset, size, rfl⟩ | ⟨p, rfl⟩ <;> rfl

end Entry

end HMalloc
