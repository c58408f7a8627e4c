import HMalloc.Central

/-!
Threads and their program counters (`heap.h`, `heap.cpp`, `hmalloc.cpp`). A
program counter stands between two accesses to data that another thread may
touch at the same time: a page's `thread_free`, the central heap under its
lock, the region registry and the heap registry under theirs, and the kernel's
mappings. The rest of a step works on data that only its own thread can reach.
The exception are the atomic counters of `os.cpp` and `hmalloc.cpp`, which all
threads update with relaxed operations: no step reads them, and each is updated
in the step of the mapping or unmapping it counts.

The steps are functions: they take the store, the thread and the answers of the
world (`Oracle`) to the next store and thread. A result `none` is a read
through a null pointer, or a probe of the region registry that does not end.
-/

namespace HMalloc

open Bytes

/-- A public call. -/
inductive Call where
  | malloc (size : Nat)
  | calloc (nmemb size : Nat)
  | realloc (ptr size : Nat)
  | alignedAlloc (alignment size : Nat)
  | free (ptr : Nat)
  deriving DecidableEq

/-- What an allocation call asks for: the size, whether `hm_calloc` clears the
block it gets from a page, and, for `hm_realloc`, the block to move with its
usable size. -/
structure Request where
  size : Nat
  clear : Bool
  old : Option (Nat × Nat)
  deriving DecidableEq

/-- What follows the release of a page: the end of `hm_free`, the next page of
`heap_destroy`, or the next round of `sweep_abandoned`. -/
inductive After where
  | freed (result : Nat)
  | destroying (c : Nat) (next : Option PageId)
  | sweeping (q : Request) (c : Nat) (cursor : Option PageId)
  deriving DecidableEq

inductive Pc where
  | idle
  /-- `heap_malloc`: get the heap, try the active page. -/
  | small (q : Request) (c : Nat)
  /-- `heap_create`: mapped at `h`, not yet linked. -/
  | linkHeap (q : Request) (c h : Nat)
  /-- `heap_malloc_slow`: about to visit page `p` of the class list. -/
  | walk (q : Request) (c : Nat) (p : PageId)
  /-- `central_acquire_page`: about to take the lock. -/
  | acquire (q : Request) (c : Nat)
  /-- `sweep_abandoned`: about to read `*pp`, lock held. -/
  | sweep (q : Request) (c : Nat) (cursor : Option PageId)
  /-- `map_segment`: about to map, lock held. -/
  | mapSegment (q : Request) (c : Nat)
  /-- `map_segment`: about to register, lock held. -/
  | registerSegment (q : Request) (c seg : Nat)
  /-- `pool_return`: about to unregister an idle segment, lock held. -/
  | unregisterSegment (seg : Nat) (after : After)
  /-- `pool_return`: about to unmap an idle segment, lock held. -/
  | unmapSegment (seg : Nat) (after : After)
  /-- `alloc_large`: about to map. -/
  | large (q : Request) (offset mmapSize : Nat)
  /-- `alloc_large`: about to register the region at `base`. -/
  | registerLarge (q : Request) (offset mmapSize base : Nat)
  /-- `hm_free` of `p`; `result` is what `hm_realloc` will return. -/
  | free (p result : Nat)
  /-- `heap_free_remote`: `head` read and stored in `p`, about to exchange. -/
  | remote (p head result : Nat)
  /-- `heap_on_page_empty`: about to hand back a page that is not the head. -/
  | release (pg : PageId) (result : Nat)
  /-- `free_large` of `p`: about to unmap. -/
  | unmapLarge (p base size result : Nat)
  /-- `heap_destroy`: about to collect page `p`. -/
  | destroy (c : Nat) (p : PageId)
  /-- `heap_destroy`: page `p` collected, about to hand it over. -/
  | hand (c : Nat) (p : PageId) (next : Option PageId)
  /-- `heap_destroy`: about to unlink the heap from the heap registry. -/
  | unlinkHeap
  /-- `heap_destroy`: about to unmap the heap. -/
  | unmapHeap
  deriving DecidableEq

inductive Status where
  | unborn
  | running
  | ended
  deriving DecidableEq

/-- A thread: `t_heap`, the call it is in or made last, whether its `HeapGuard`
has been constructed and destroyed, and the value its last call returned. -/
structure Thread where
  status : Status
  heap : Option Nat
  pc : Pc
  call : Option Call
  guardMade : Bool
  guardDone : Bool
  result : Nat

def Thread.init : Thread where
  status := .unborn
  heap := none
  pc := .idle
  call := none
  guardMade := false
  guardDone := false
  result := 0

/-- The answers of the world in one step: the kernel's to the mapping the step
makes, the kernel's to the registry's table allocations, and whether a weak
compare-exchange fails spuriously. -/
structure Oracle where
  mapping : Option Nat
  tables : List (Option Nat)
  spurious : Bool

/-- The registry's table memory comes from the OS layer. `ok` records whether
the kernel's answers were as assumed. -/
structure TableWorld where
  os : Os
  answers : List (Option Nat)
  ok : Prop

def osTables (ps : PageSize) : TableSource TableWorld where
  alloc w cap :=
    let answer := w.answers.headD none
    let (r, os) := osAllocAligned ps answer w.os (slotsBytes ps cap) ps.bytes .table
    (r.getD 0, ⟨os, w.answers.tail,
      w.ok ∧ KernelOk ps answer w.os (slotsBytes ps cap) ps.bytes⟩)
  free w slots cap := { w with os := osFree w.os slots (slotsBytes ps cap) }

/-- `region_register(base)` on the store. -/
def storeRegister (ps : PageSize) (o : Oracle) (s : Store) (base : Nat) :
    Option (TableWorld × Registry) :=
  regionRegister (osTables ps) ⟨s.os, o.tables, True⟩ s.registry base

section Steps

variable (ps : PageSize) (o : Oracle) (s : Store) (t : Nat) (th : Thread)

/-- The thread returns `result` to its client. -/
def Thread.ret (th : Thread) (result : Nat) : Thread :=
  { th with pc := .idle, result := result }

/-- Ghost: a pointer changes hands. -/
def setHolder (grants : Nat → Option Grant) (p : Nat) (holder : Holder) : Nat → Option Grant :=
  Function.update grants p ((grants p).map (fun g => { g with holder := holder }))

/-- An allocation call fails: null is returned, and a block that was to be
moved stays with the client. -/
def failAlloc (q : Request) : Store × Thread :=
  match q.old with
  | none => (s, th.ret 0)
  | some (old, _) => ({ s with grants := setHolder s.grants old .client }, th.ret 0)

/-- An allocation call has its block `p`. `hm_calloc` clears it, `hm_realloc`
copies the old contents and goes on to free the old block. -/
def deliver (q : Request) (p usable : Nat) (origin : Origin) : Store × Thread :=
  let mem := if q.clear then fill s.os.mem p q.size 0 else s.os.mem
  match q.old with
  | none =>
      ({ s with
          os := { s.os with mem := mem }
          grants := Function.update s.grants p (some ⟨q.size, usable, .client, origin⟩) },
        th.ret p)
  | some (old, oldUsable) =>
      let n := if q.size < oldUsable then q.size else oldUsable
      ({ s with
          os := { s.os with mem := copy mem p old n }
          grants := setHolder
            (Function.update s.grants p (some ⟨q.size, usable, .fresh t, origin⟩))
            old (.freeing t) },
        { th with pc := .free old p })

/-- A block popped from page `pg` is delivered. -/
def deliverBlock (q : Request) (pg : PageId) (b : Nat) : Store × Thread :=
  deliver s t th q b (s.page.blockSize pg)
    (.small pg ((b - s.page.area pg) / s.page.blockSize pg))

/-- `heap_malloc` and `heap_create`. A failed `heap_create` returns null, and
`heap_malloc` reads `pages` through it. -/
def stepSmall (q : Request) (c : Nat) : Option (Store × Thread) :=
  match th.heap with
  | none =>
      match osAllocAligned ps o.mapping s.os (heapBytes ps) ps.bytes (.heap t) with
      | (none, _) => none
      | (some h, os) =>
          some ({ s with os := os, slot := Function.update s.slot h (fun _ => emptyPage) },
            { th with pc := .linkHeap q c h })
  | some h =>
      let p := s.slot h c
      if s.page.free p ≠ 0 then do
        let (b, s) ← pagePop s p
        return deliverBlock s t th q p b
      else if p ≠ emptyPage then some (s, { th with pc := .walk q c p })
      else some (s, { th with pc := .acquire q c })

/-- The end of `heap_create`: the heap is linked and becomes `t_heap`. -/
def stepLinkHeap (q : Request) (c h : Nat) : Store × Thread :=
  ({ s with heapRegistry := h :: s.heapRegistry },
    { th with heap := some h, guardMade := true, pc := .small q c })

/-- One round of the walk of `heap_malloc_slow`. -/
def stepWalk (q : Request) (c : Nat) (p : PageId) : Option (Store × Thread) := do
  let h ← th.heap
  let (available, s) ← pageMakeAvailable s p
  if available then
    let s := heapRotateToFront s h c p
    let (b, s) ← pagePop s p
    return deliverBlock s t th q p b
  else
    match s.page.next p with
    | some p' => return (s, { th with pc := .walk q c p' })
    | none => return (s, { th with pc := .acquire q c })

/-- The end of `central_acquire_page`, which unlocks, and of
`heap_malloc_slow`. -/
def finishAcquire (q : Request) (c : Nat) : Option (Store × Thread) := do
  let h ← th.heap
  let (np, s) ← takePage s h c (classToSize c)
  let s := linkFresh { s with central := { s.central with mtx := none } } h c np
  let (available, s) ← pageMakeAvailable s np
  if available then
    let (b, s) ← pagePop s np
    return deliverBlock s t th q np b
  else return failAlloc s th q

/-- `central_acquire_page` takes the lock. -/
def stepAcquire (q : Request) (c : Nat) : Option (Store × Thread) :=
  if s.central.avail = none then
    some ({ s with central := { s.central with mtx := some t } },
      { th with pc := .sweep q c none })
  else finishAcquire s t th q c

/-- One round of `sweep_abandoned`, and what follows its last round. -/
def stepSweep (q : Request) (c : Nat) (cur : Option PageId) : Option (Store × Thread) :=
  match cursorRead s cur with
  | some pg => do
      let (s, next) ← sweepVisit s cur pg
      match next.unmap with
      | none => return (s, { th with pc := .sweep q c next.cursor })
      | some b =>
          return (s, { th with pc := .unregisterSegment b (.sweeping q c next.cursor) })
  | none =>
      if s.central.avail = none then some (s, { th with pc := .mapSegment q c })
      else finishAcquire s t th q c

/-- `map_segment` up to `region_register`. -/
def stepMapSegment (q : Request) (c : Nat) : Store × Thread :=
  match osAllocAligned ps o.mapping s.os segmentSize segmentSize .small with
  | (none, _) => failAlloc { s with central := { s.central with mtx := none } } th q
  | (some b, os) =>
      (initSegment { s with os := os } b, { th with pc := .registerSegment q c b })

def stepRegisterSegment (q : Request) (c b : Nat) : Option (Store × Thread) := do
  let (w, r) ← storeRegister ps o s b
  finishAcquire { s with os := w.os, registry := r } t th q c

/-- The next thing `heap_destroy` does from class `c` on. -/
def scanClasses (h : Nat) : Nat → Nat → Pc
  | 0, _ => .unlinkHeap
  | n + 1, c =>
      if s.slot h c = emptyPage then scanClasses h n (c + 1) else .destroy c (s.slot h c)

/-- `heap_destroy` goes on with page `next` of class `c`. -/
def destroyNext (h c : Nat) (next : Option PageId) : Store × Thread :=
  match next with
  | some p => if p ≠ emptyPage then (s, { th with pc := .destroy c p }) else endClass
  | none => endClass
where
  /-- The class is done: `h->pages[c] = &g_empty_page`. -/
  endClass : Store × Thread :=
    let s := { s with
      slot := Function.update s.slot h (Function.update (s.slot h) c emptyPage) }
    (s, { th with pc := scanClasses s h (numSizeClasses - (c + 1)) (c + 1) })

/-- `hm_free` or `hm_realloc` returns. -/
def finishFree (result : Nat) : Store × Thread :=
  ({ s with grants := if result = 0 then s.grants else setHolder s.grants result .client },
    th.ret result)

/-- What follows the release of a page; the sweep keeps the lock. -/
def stepAfter (after : After) : Option (Store × Thread) :=
  match after with
  | .freed result =>
      some (finishFree { s with central := { s.central with mtx := none } } th result)
  | .destroying c next => do
      let h ← th.heap
      return destroyNext { s with central := { s.central with mtx := none } } th h c next
  | .sweeping q c cur => some (s, { th with pc := .sweep q c cur })

/-- A page has been returned to the pool; its segment may have to go. -/
def afterPool (dead : Option Nat) (after : After) : Option (Store × Thread) :=
  match dead with
  | none => stepAfter s th after
  | some b =>
      some ({ s with central := { s.central with mtx := some t } },
        { th with pc := .unregisterSegment b after })

def stepUnregisterSegment (b : Nat) (after : After) : Option (Store × Thread) := do
  let r ← regionUnregister s.registry b
  return ({ s with registry := r }, { th with pc := .unmapSegment b after })

def stepUnmapSegment (b : Nat) (after : After) : Option (Store × Thread) :=
  stepAfter { s with os := osFree s.os b (s.seg.mmapSize b) } th after

/-- `alloc_large` up to `region_register`. -/
def stepLarge (q : Request) (offset mmapSize : Nat) : Store × Thread :=
  match osAllocAligned ps o.mapping s.os mmapSize segmentSize (.large offset) with
  | (none, _) => failAlloc s th q
  | (some b, os) =>
      ({ s with
          os := { os with mem := largeHeader os.mem b mmapSize offset q.size }
          largeCount := Word.add 64 s.largeCount 1
          largeBytes := Word.add 64 s.largeBytes mmapSize
          grants := Function.update s.grants (b + offset)
            (some ⟨q.size, mmapSize - offset, .fresh t, .large b⟩) },
        { th with pc := .registerLarge q offset mmapSize b })

def stepRegisterLarge (q : Request) (offset mmapSize b : Nat) : Option (Store × Thread) := do
  let (w, r) ← storeRegister ps o s b
  return deliver { s with os := w.os, registry := r } t th q (b + offset)
    (mmapSize - offset) (.large b)

/-- `hm_free`: `free_large` up to the unmapping, a local `heap_free`, or the
first load and store of `heap_free_remote`. -/
def stepFree (p result : Nat) : Option (Store × Thread) :=
  if isLarge s.os.mem p then do
    let b := regionBase p
    let size := largeMmapSize s.os.mem b
    let r ← regionUnregister s.registry b
    return ({ s with
        registry := r
        largeCount := Word.sub 64 s.largeCount 1
        largeBytes := Word.sub 64 s.largeBytes size
        largeWrapped := s.largeWrapped || decide (s.largeCount < 1) ||
          decide (s.largeBytes < size) },
      { th with pc := .unmapLarge p b size result })
  else
    let pg := pageOf p
    if s.page.owner pg = Owner.ofHeap th.heap then
      let s : Store := { pushLocal s pg p with grants := Function.update s.grants p none }
      if s.page.used pg = 0 then
        match s.page.owner pg with
        | .heap h =>
            if s.slot h (s.page.sizeClass pg) = pg then some (finishFree s th result)
            else some (s, { th with pc := .release pg result })
        | _ => none
      else some (finishFree s th result)
    else
      let head := s.page.threadFree pg
      some ({ s with os := { s.os with mem := writeWord s.os.mem p head } },
        { th with pc := .remote p head result })

/-- The compare-exchange of `heap_free_remote`. -/
def stepRemote (p head result : Nat) : Store × Thread :=
  let pg := pageOf p
  let now := s.page.threadFree pg
  if now = head ∧ o.spurious = false then
    finishFree { s with
      page := { s.page with threadFree := Function.update s.page.threadFree pg p }
      grants := Function.update s.grants p none } th result
  else
    ({ s with os := { s.os with mem := writeWord s.os.mem p now } },
      { th with pc := .remote p now result })

/-- `heap_on_page_empty` for a page that is not the head. -/
def stepRelease (pg : PageId) (result : Nat) : Option (Store × Thread) := do
  let s ← unlinkEmpty s pg
  let (s, dead) ← centralReleasePage s pg
  afterPool s t th dead (.freed result)

def stepUnmapLarge (p base size result : Nat) : Store × Thread :=
  finishFree { s with
    os := osFree s.os base size
    grants := Function.update s.grants p none } th result

/-- `heap_destroy` reads `p->next` and collects the page. -/
def stepDestroy (c : Nat) (p : PageId) : Option (Store × Thread) := do
  let next := s.page.next p
  let s ← pageCollect s p
  return (s, { th with pc := .hand c p next })

/-- `heap_destroy` hands a page over to the central heap. -/
def stepHand (c : Nat) (p : PageId) (next : Option PageId) : Option (Store × Thread) :=
  if s.page.used p = 0 then do
    let (s, dead) ← centralReleasePage s p
    afterPool s t th dead (.destroying c next)
  else stepAfter (centralAbandonPage s p) th (.destroying c next)

def stepUnlinkHeap : Option (Store × Thread) := do
  let h ← th.heap
  return ({ s with heapRegistry := s.heapRegistry.erase h }, { th with pc := .unmapHeap })

/-- The end of `~HeapGuard`. -/
def stepUnmapHeap : Option (Store × Thread) := do
  let h ← th.heap
  return ({ s with os := osFree s.os h (heapBytes ps) },
    { th with heap := none, guardDone := true, pc := .idle })

/-- The next step of a thread that is inside a call. -/
def stepThread : Option (Store × Thread) :=
  match th.pc with
  | .idle => some (s, th)
  | .small q c => stepSmall ps o s t th q c
  | .linkHeap q c h => some (stepLinkHeap s th q c h)
  | .walk q c p => stepWalk s t th q c p
  | .acquire q c => stepAcquire s t th q c
  | .sweep q c cur => stepSweep s t th q c cur
  | .mapSegment q c => some (stepMapSegment ps o s th q c)
  | .registerSegment q c b => stepRegisterSegment ps o s t th q c b
  | .unregisterSegment b after => stepUnregisterSegment s th b after
  | .unmapSegment b after => stepUnmapSegment s th b after
  | .large q offset mmapSize => some (stepLarge ps o s t th q offset mmapSize)
  | .registerLarge q offset mmapSize b => stepRegisterLarge ps o s t th q offset mmapSize b
  | .free p result => stepFree s th p result
  | .remote p head result => some (stepRemote o s th p head result)
  | .release pg result => stepRelease s t th pg result
  | .unmapLarge p base size result => some (stepUnmapLarge s th p base size result)
  | .destroy c p => stepDestroy s th c p
  | .hand c p next => stepHand s t th c p next
  | .unlinkHeap => stepUnlinkHeap s th
  | .unmapHeap => stepUnmapHeap ps s th

end Steps

end HMalloc
