import HMalloc.Os
import HMalloc.Registry
import HMalloc.SizeClass

/-!
The allocator's data (`segment.h`, `heap.h`, `central.cpp`). Metadata structures
are stored by column: a field of `Page`, `Segment` or `Heap` is a function from
the address of the structure to the field's value, so that an assignment to one
field visibly leaves the others alone. A page pointer `&s->pages[i]` is the pair
of the segment base and the index. Free-list links are not a field: they are
stored in the bytes of the free blocks, and the header of a large region is
stored in the first bytes of the region.

Ghost state: `grants` records which pointers the allocator has handed out and
who holds them. No function of the program reads it.
-/

namespace HMalloc

open Bytes

structure PageId where
  seg : Nat
  idx : Nat
  deriving DecidableEq

/-- `&g_empty_page`, the shared sentinel. No segment starts at address zero. -/
def emptyPage : PageId := ⟨0, 0⟩

/-- A value of `Page::owner`. `abandoned` is the address of `g_abandon_tag`, a
static object and therefore never the address of a heap. -/
inductive Owner where
  | null
  | abandoned
  | heap (addr : Nat)
  deriving DecidableEq

/-- The owner value that equals a given `t_heap`. -/
def Owner.ofHeap : Option Nat → Owner
  | none => .null
  | some h => .heap h

/-- The fields of `Page`. -/
structure Pages where
  free : PageId → Nat
  used : PageId → Nat
  capacity : PageId → Nat
  reserved : PageId → Nat
  blockSize : PageId → Nat
  sizeClass : PageId → Nat
  inUse : PageId → Bool
  owner : PageId → Owner
  next : PageId → Option PageId
  prev : PageId → Option PageId
  area : PageId → Nat
  threadFree : PageId → Nat

/-- The fields of `Segment` after `kind`, which is the byte at its base. -/
structure Segments where
  pageCount : Nat → Nat
  mmapSize : Nat → Nat
  next : Nat → Option Nat
  freeList : Nat → Option PageId
  freeCount : Nat → Nat
  availPrev : Nat → Option Nat
  availNext : Nat → Option Nat
  inAvail : Nat → Bool

/-- `CentralState`; `mtx` is the thread that holds the lock. -/
structure Central where
  mtx : Option Nat
  segments : Option Nat
  avail : Option Nat
  abandoned : Option PageId
  numSegments : Nat
  freeSegments : Nat
  freePageCount : Nat
  pagesInUse : Nat
  abandonedCount : Nat

/-- Who holds a pointer. A thread that is inside `hm_realloc` is `moving` the
old block until it has a new one, inside `hm_free` it is `freeing` the block,
and a block it has not returned yet is `fresh`. -/
inductive Holder where
  | client
  | moving (thread : Nat)
  | freeing (thread : Nat)
  | fresh (thread : Nat)
  deriving DecidableEq

/-- Where a pointer was carved from. -/
inductive Origin where
  | small (pg : PageId) (index : Nat)
  | large (base : Nat)
  deriving DecidableEq

/-- A pointer that has been handed out: the size asked for, the usable size at
that time, its holder and its origin. -/
structure Grant where
  size : Nat
  usable : Nat
  holder : Holder
  origin : Origin
  deriving DecidableEq

structure Store where
  os : Os
  page : Pages
  seg : Segments
  central : Central
  /-- `Heap::pages`, by heap address and class. -/
  slot : Nat → Nat → PageId
  registry : Registry
  /-- `g_registry`, the list of live heaps. -/
  heapRegistry : List Nat
  largeCount : Nat
  largeBytes : Nat
  /-- Ghost: one of the large counters has wrapped below zero. -/
  largeWrapped : Bool
  grants : Nat → Option Grant

def Store.init : Store where
  os := Os.init
  page :=
    { free := fun _ => 0, used := fun _ => 0, capacity := fun _ => 0,
      reserved := fun _ => 0, blockSize := fun _ => 0, sizeClass := fun _ => 0,
      inUse := fun _ => false, owner := fun _ => .null, next := fun _ => none,
      prev := fun _ => none, area := fun _ => 0, threadFree := fun _ => 0 }
  seg :=
    { pageCount := fun _ => 0, mmapSize := fun _ => 0, next := fun _ => none,
      freeList := fun _ => none, freeCount := fun _ => 0,
      availPrev := fun _ => none, availNext := fun _ => none,
      inAvail := fun _ => false }
  central :=
    { mtx := none, segments := none, avail := none, abandoned := none,
      numSegments := 0, freeSegments := 0, freePageCount := 0, pagesInUse := 0,
      abandonedCount := 0 }
  slot := fun _ _ => emptyPage
  registry := Registry.init
  heapRegistry := []
  largeCount := 0
  largeBytes := 0
  largeWrapped := false
  grants := fun _ => none

/-- `sizeof(Segment)`: 64 bytes before `pages`, 128 bytes for each page. -/
def sizeofSegment : Nat := 64 + pagesPerSegment * 128

/-- `sizeof(LargeHeader)`. -/
def sizeofLargeHeader : Nat := 32

/-- `sizeof(Heap)`: the class slots, three counters and `reg_next`. -/
def sizeofHeap : Nat := 8 * numSizeClasses + 8 * 3 + 8

/-- `LARGE_OFFSET`. -/
def largeOffset : Nat :=
  (sizeofLargeHeader + (allocAlign - 1)) &&& Word.compl (allocAlign - 1)

/-- `heap_bytes`. -/
def heapBytes (ps : PageSize) : Nat := Word.roundUp sizeofHeap ps.bytes

/-- `slots_bytes`. -/
def slotsBytes (ps : PageSize) (cap : Nat) : Nat :=
  Word.roundUp (Word.mul 64 cap 8) ps.bytes

/-- `page_of(segment_of(p), p)`. -/
def pageOf (p : Nat) : PageId := ⟨regionBase p, pageIndexOf p⟩

/-- `kind_of(p) == SegmentKind::Large`: the tag byte at the region base. -/
def isLarge (mem : Mem) (p : Nat) : Bool := mem (regionBase p) == 1

/-- `LargeHeader::mmap_size` and `LargeHeader::offset` of the region at `b`. -/
def largeMmapSize (mem : Mem) (b : Nat) : Nat := readWord mem (b + 8)

def largeHeaderOffset (mem : Mem) (b : Nat) : Nat := readWord mem (b + 16)

/-- The assignments of `alloc_large` to the header of the region at `b`. -/
def largeHeader (mem : Mem) (b mmapSize offset size : Nat) : Mem :=
  writeWord (writeWord (writeWord (writeWord mem b 1) (b + 8) mmapSize) (b + 16) offset)
    (b + 24) size

/-- `hm_usable_size`. -/
def usableSize (s : Store) (p : Nat) : Nat :=
  if p = 0 then 0
  else if isLarge s.os.mem p then
    Word.sub 64 (largeMmapSize s.os.mem (regionBase p))
      (largeHeaderOffset s.os.mem (regionBase p))
  else s.page.blockSize (pageOf p)

/-- The address of block `i` of a page. -/
def Pages.block (page : Pages) (pg : PageId) (i : Nat) : Nat :=
  page.area pg + i * page.blockSize pg

end HMalloc
