import HMalloc.Store
import HMalloc.Lib.Linked

/-!
The page and class-list operations of `heap.cpp`. A result `none` is a read
through a null pointer; for the walk along a collected chain it also stands for
a walk that does not end within the page's capacity.
-/

namespace HMalloc

open Bytes Linked

/-- The loop of `page_collect`: `while (tail->next != nullptr)`, counting. -/
def walkTail (mem : Mem) : Nat → Nat → Nat → Option (Nat × Nat)
  | 0, _, _ => none
  | fuel + 1, tail, n =>
      if readWord mem tail = 0 then some (tail, n)
      else walkTail mem fuel (readWord mem tail) (Word.add 32 n 1)

/-- `page_collect`. The chain taken by the exchange is walked to its tail and
spliced in front of the local list. -/
def pageCollect (s : Store) (pg : PageId) : Option Store :=
  let list := s.page.threadFree pg
  let page := { s.page with threadFree := Function.update s.page.threadFree pg 0 }
  if list = 0 then some { s with page := page }
  else do
    let (tail, n) ← walkTail s.os.mem (s.page.capacity pg) list 1
    return { s with
      os := { s.os with mem := writeWord s.os.mem tail (s.page.free pg) }
      page := { page with
        free := Function.update page.free pg list
        used := Function.update page.used pg (Word.sub 32 (page.used pg) n) } }

/-- The loop of `page_extend`: blocks `i - 1, …, 0` of the batch are linked in
front of `head`. -/
def extendLoop (start blockSize : Nat) : Nat → Mem → Nat → Mem × Nat
  | 0, mem, head => (mem, head)
  | i + 1, mem, head =>
      let blk := start + i * blockSize
      extendLoop start blockSize i (writeWord mem blk head) blk

/-- The batch size of `page_extend`. It is irreducible because reducing a
quotient of a literal by a variable does not end. -/
@[irreducible] def extendBatch (blockSize remaining : Nat) : Nat :=
  let batch := 8192 / blockSize
  let batch := if batch = 0 then 1 else batch
  if batch > remaining then remaining else batch

/-- `page_extend`. -/
def pageExtend (s : Store) (pg : PageId) : Store :=
  let remaining := Word.sub 32 (s.page.capacity pg) (s.page.reserved pg)
  if remaining = 0 then s
  else
    let batch := extendBatch (s.page.blockSize pg) remaining
    let start := s.page.area pg + s.page.reserved pg * s.page.blockSize pg
    let (mem, head) :=
      extendLoop start (s.page.blockSize pg) batch s.os.mem (s.page.free pg)
    { s with
      os := { s.os with mem := mem }
      page := { s.page with
        free := Function.update s.page.free pg head
        reserved := Function.update s.page.reserved pg
          (Word.add 32 (s.page.reserved pg) batch) } }

/-- `page_make_available`. -/
def pageMakeAvailable (s : Store) (pg : PageId) : Option (Bool × Store) :=
  if s.page.free pg ≠ 0 then some (true, s)
  else do
    let s ← pageCollect s pg
    if s.page.free pg ≠ 0 then return (true, s)
    else if s.page.reserved pg < s.page.capacity pg then
      let s := pageExtend s pg
      return (s.page.free pg ≠ 0, s)
    else return (false, s)

/-- `page_pop`, and the fast path of `heap_malloc`. -/
def pagePop (s : Store) (pg : PageId) : Option (Nat × Store) :=
  let b := s.page.free pg
  if b = 0 then none
  else some (b, { s with
    page := { s.page with
      free := Function.update s.page.free pg (readWord s.os.mem b)
      used := Function.update s.page.used pg (Word.add 32 (s.page.used pg) 1) } })

/-- The relinking of a page's neighbours. In `heap_on_page_empty` the
predecessor is dereferenced without a check, see `unlinkEmpty`. -/
def unlinkNeighbours (page : Pages) (p : PageId) : Pages :=
  { page with
    next := assign page.next (page.prev p) (page.next p)
    prev := assign page.prev (page.next p) (page.prev p) }

/-- The assignments that put `p` in front of `head`. -/
def linkFront (page : Pages) (p : PageId) (head : Option PageId) : Pages :=
  { page with
    next := Function.update page.next p head
    prev := assign (Function.update page.prev p none) head (some p) }

/-- `heap_rotate_to_front`. -/
def heapRotateToFront (s : Store) (h c : Nat) (p : PageId) : Store :=
  let head := s.slot h c
  if p = head then s
  else
    { s with
      page := linkFront (unlinkNeighbours s.page p) p (some head)
      slot := Function.update s.slot h (Function.update (s.slot h) c p) }

/-- The part of `heap_malloc_slow` that makes a fresh page the active head. -/
def linkFresh (s : Store) (h c : Nat) (np : PageId) : Store :=
  let head := s.slot h c
  { s with
    page := linkFront s.page np (if head ≠ emptyPage then some head else none)
    slot := Function.update s.slot h (Function.update (s.slot h) c np) }

/-- The part of `heap_on_page_empty` before the page is released. -/
def unlinkEmpty (s : Store) (pg : PageId) : Option Store :=
  match s.page.prev pg with
  | none => none
  | some _ => some { s with page := unlinkNeighbours s.page pg }

/-- The assignments of a local `heap_free`, up to `--pg->used`. -/
def pushLocal (s : Store) (pg : PageId) (p : Nat) : Store :=
  { s with
    os := { s.os with mem := writeWord s.os.mem p (s.page.free pg) }
    page := { s.page with
      free := Function.update s.page.free pg p
      used := Function.update s.page.used pg (Word.sub 32 (s.page.used pg) 1) } }

end HMalloc
