import HMalloc.Page

/-!
The central heap (`central.cpp`). The pieces between two shared accesses are
separate functions, so that the concurrent system can run them one at a time;
`centralAcquirePage` and its siblings put them together again. A result `none`
is a read through a null pointer or a loop that does not end.
-/

namespace HMalloc

open Bytes Linked

/-- `SEGMENT_CACHE`. -/
def segmentCache : Nat := 1

/-- `avail_push`. -/
def availPush (s : Store) (b : Nat) : Store :=
  { s with
    seg := { s.seg with
      availPrev := assign (Function.update s.seg.availPrev b none) s.central.avail (some b)
      availNext := Function.update s.seg.availNext b s.central.avail
      inAvail := Function.update s.seg.inAvail b true }
    central := { s.central with avail := some b } }

/-- `avail_remove`. -/
def availRemove (s : Store) (b : Nat) : Store :=
  let prev := s.seg.availPrev b
  let next := s.seg.availNext b
  { s with
    seg := { s.seg with
      availNext := Function.update (assign s.seg.availNext prev next) b none
      availPrev := Function.update (assign s.seg.availPrev next prev) b none
      inAvail := Function.update s.seg.inAvail b false }
    central := { s.central with avail := if prev = none then next else s.central.avail } }

/-- The loop of `all_remove`. -/
def allRemoveLoop (next : Nat → Option Nat) (b : Nat) :
    Nat → Option Nat → Option (Nat → Option Nat)
  | _, none => some next
  | 0, some _ => none
  | fuel + 1, some p =>
      if next p = some b then some (Function.update next p (next b))
      else allRemoveLoop next b fuel (next p)

/-- `all_remove`. The list has `num_segments` members. -/
def allRemove (s : Store) (b : Nat) : Option Store :=
  if s.central.segments = some b then
    some { s with central := { s.central with segments := s.seg.next b } }
  else do
    let next ← allRemoveLoop s.seg.next b s.central.numSegments s.central.segments
    return { s with seg := { s.seg with next := next } }

/-- The assignments of `pool_return` that put the page on its segment's free
list. -/
def poolPush (s : Store) (pg : PageId) (b : Nat) : Store :=
  { s with
    page := { s.page with
      inUse := Function.update s.page.inUse pg false
      owner := Function.update s.page.owner pg .null
      free := Function.update s.page.free pg 0
      blockSize := Function.update s.page.blockSize pg 0
      prev := Function.update s.page.prev pg none
      next := Function.update s.page.next pg (s.seg.freeList b) }
    seg := { s.seg with
      freeList := Function.update s.seg.freeList b (some pg)
      freeCount := Function.update s.seg.freeCount b (Word.add 32 (s.seg.freeCount b) 1) }
    central := { s.central with
      freePageCount := Word.add 64 s.central.freePageCount 1 } }

/-- `pool_return` up to the check for an idle segment. -/
def poolInsert (s : Store) (pg : PageId) (b : Nat) : Store :=
  if s.seg.freeCount b = 0 then availPush (poolPush s pg b) b else poolPush s pg b

/-- The bookkeeping of `pool_return` that drops an idle segment, up to the
calls that unregister and unmap it. -/
def dropSegment (s : Store) (b : Nat) : Option Store := do
  let s ← allRemove (availRemove s b) b
  return { s with central := { s.central with
    numSegments := Word.sub 64 s.central.numSegments 1
    freeSegments := Word.sub 64 s.central.freeSegments 1
    freePageCount := Word.sub 64 s.central.freePageCount usablePagesPerSegment } }

/-- `pool_return` up to the unmapping: the second component is the segment
that is to be unregistered and unmapped, if there is one. -/
def poolReturn (s : Store) (pg : PageId) : Option (Store × Option Nat) :=
  let b := regionBase (s.page.area pg)
  let s := poolInsert s pg b
  if s.seg.freeCount b = usablePagesPerSegment then
    let s := { s with central := { s.central with
      freeSegments := Word.add 64 s.central.freeSegments 1 } }
    if s.central.freeSegments > segmentCache then do
      let s ← dropSegment s b
      return (s, some b)
    else some (s, none)
  else some (s, none)

/-- `collect_locked` has the body of `page_collect`. -/
def collectLocked (s : Store) (pg : PageId) : Option Store := pageCollect s pg

/-- `*pp` of `sweep_abandoned`: the cursor is `&g.abandoned` or the address of
a page's `next`. -/
def cursorRead (s : Store) : Option PageId → Option PageId
  | none => s.central.abandoned
  | some q => s.page.next q

/-- `*pp = v`. -/
def cursorWrite (s : Store) (cur : Option PageId) (v : Option PageId) : Store :=
  { s with
    page := { s.page with next := assign s.page.next cur v }
    central := { s.central with abandoned := if cur = none then v else s.central.abandoned } }

/-- What one round of `sweep_abandoned` leaves to do: go on from a cursor, or
first unmap a segment. -/
structure SweepNext where
  cursor : Option PageId
  unmap : Option Nat

/-- One round of `sweep_abandoned` on the page the cursor leads to. -/
def sweepVisit (s : Store) (cur : Option PageId) (pg : PageId) : Option (Store × SweepNext) := do
  let s ← collectLocked s pg
  if s.page.used pg = 0 then
    let s := cursorWrite s cur (s.page.next pg)
    let s := { s with central := { s.central with
      abandonedCount := Word.sub 64 s.central.abandonedCount 1 } }
    let (s, dead) ← poolReturn s pg
    return (s, ⟨cur, dead⟩)
  else return (s, ⟨some pg, none⟩)

/-- The columns of a value-initialised `Segment` at `b`. -/
def zeroSegment (s : Store) (b : Nat) : Store :=
  { s with
    os := { s.os with mem := fill s.os.mem b sizeofSegment 0 }
    page :=
      { free := fun pg => if pg.seg = b then 0 else s.page.free pg
        used := fun pg => if pg.seg = b then 0 else s.page.used pg
        capacity := fun pg => if pg.seg = b then 0 else s.page.capacity pg
        reserved := fun pg => if pg.seg = b then 0 else s.page.reserved pg
        blockSize := fun pg => if pg.seg = b then 0 else s.page.blockSize pg
        sizeClass := fun pg => if pg.seg = b then 0 else s.page.sizeClass pg
        inUse := fun pg => if pg.seg = b then false else s.page.inUse pg
        owner := fun pg => if pg.seg = b then .null else s.page.owner pg
        next := fun pg => if pg.seg = b then none else s.page.next pg
        prev := fun pg => if pg.seg = b then none else s.page.prev pg
        area := fun pg => if pg.seg = b then 0 else s.page.area pg
        threadFree := fun pg => if pg.seg = b then 0 else s.page.threadFree pg }
    seg := { s.seg with
      pageCount := Function.update s.seg.pageCount b pagesPerSegment
      mmapSize := Function.update s.seg.mmapSize b segmentSize
      next := Function.update s.seg.next b none
      freeList := Function.update s.seg.freeList b none
      freeCount := Function.update s.seg.freeCount b 0
      availPrev := Function.update s.seg.availPrev b none
      availNext := Function.update s.seg.availNext b none
      inAvail := Function.update s.seg.inAvail b false } }

/-- The loop of `map_segment` from page `i` on, for `n` pages. -/
def initPages (b : Nat) : Nat → Nat → Store → Store
  | 0, _, s => s
  | n + 1, i, s =>
      initPages b n (i + 1) { s with
        page := { s.page with
          area := Function.update s.page.area ⟨b, i⟩ (b + i * pageSize)
          inUse := Function.update s.page.inUse ⟨b, i⟩ false
          next := Function.update s.page.next ⟨b, i⟩ (s.seg.freeList b) }
        seg := { s.seg with
          freeList := Function.update s.seg.freeList b (some ⟨b, i⟩)
          freeCount := Function.update s.seg.freeCount b (Word.add 32 (s.seg.freeCount b) 1) } }

/-- `map_segment` after a successful mapping at `b`, up to `region_register`. -/
def initSegment (s : Store) (b : Nat) : Store :=
  let s := initPages b usablePagesPerSegment firstUsablePage (zeroSegment s b)
  let s := { s with
    seg := { s.seg with next := Function.update s.seg.next b s.central.segments }
    central := { s.central with
      freePageCount := Word.add 64 s.central.freePageCount (s.seg.freeCount b)
      segments := some b
      numSegments := Word.add 64 s.central.numSegments 1
      freeSegments := Word.add 64 s.central.freeSegments 1 } }
  availPush s b

/-- The part of `central_acquire_page` that takes page `pg` off the free list
of segment `b`. -/
def unlinkFree (s : Store) (b : Nat) (pg : PageId) : Store :=
  { s with
    seg := { s.seg with
      freeList := Function.update s.seg.freeList b (s.page.next pg)
      freeCount := Function.update s.seg.freeCount b (Word.sub 32 (s.seg.freeCount b) 1) }
    central := { s.central with
      freeSegments :=
        if s.seg.freeCount b = usablePagesPerSegment then Word.sub 64 s.central.freeSegments 1
        else s.central.freeSegments
      freePageCount := Word.sub 64 s.central.freePageCount 1
      pagesInUse := Word.add 64 s.central.pagesInUse 1 } }

/-- The same with `if (s->free_count == 0) avail_remove(g, s)`. -/
def takeFree (s : Store) (b : Nat) (pg : PageId) : Store :=
  let s := unlinkFree s b pg
  if s.seg.freeCount b = 0 then availRemove s b else s

/-- The part of `central_acquire_page` that sets up the page. -/
def setUpPage (s : Store) (pg : PageId) (owner cls blockSize : Nat) : Store :=
  { s with
    page := { s.page with
      free := Function.update s.page.free pg 0
      used := Function.update s.page.used pg 0
      capacity := Function.update s.page.capacity pg (pageSize / blockSize)
      reserved := Function.update s.page.reserved pg 0
      blockSize := Function.update s.page.blockSize pg blockSize
      sizeClass := Function.update s.page.sizeClass pg cls
      inUse := Function.update s.page.inUse pg true
      owner := Function.update s.page.owner pg (.heap owner)
      next := Function.update s.page.next pg none
      prev := Function.update s.page.prev pg none
      threadFree := Function.update s.page.threadFree pg 0 } }

/-- `central_acquire_page` once there is an available segment. -/
def takePage (s : Store) (owner cls blockSize : Nat) : Option (PageId × Store) := do
  let b ← s.central.avail
  let pg ← s.seg.freeList b
  return (pg, setUpPage (takeFree s b pg) pg owner cls blockSize)

/-- `central_release_page`, with the segment it leaves to be unmapped. -/
def centralReleasePage (s : Store) (pg : PageId) : Option (Store × Option Nat) :=
  poolReturn { s with central := { s.central with
    pagesInUse := Word.sub 64 s.central.pagesInUse 1 } } pg

/-- `central_abandon_page`. -/
def centralAbandonPage (s : Store) (pg : PageId) : Store :=
  { s with
    page := { s.page with
      owner := Function.update s.page.owner pg .abandoned
      prev := Function.update s.page.prev pg none
      next := Function.update s.page.next pg s.central.abandoned }
    central := { s.central with
      abandoned := some pg
      abandonedCount := Word.add 64 s.central.abandonedCount 1
      pagesInUse := Word.sub 64 s.central.pagesInUse 1 } }

end HMalloc
