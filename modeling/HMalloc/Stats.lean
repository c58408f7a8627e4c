import HMalloc.Store

/-!
`hm_stats` (`hmalloc.cpp`) and the sum of the heaps' call counters
(`heap_global_counts`, `heap.cpp`). The call counters of a heap are kept beside
the store: they move only in a build with `HMALLOC_STATS` and are zero in every
other one, and nothing but `hm_stats` reads them.
-/

namespace HMalloc

/-- `n_malloc`, `n_fast` and `n_slow` of a heap. -/
structure HeapCounts where
  nMalloc : Nat
  nFast : Nat
  nSlow : Nat
  deriving DecidableEq

/-- `Heap()`. -/
def HeapCounts.zero : HeapCounts := ⟨0, 0, 0⟩

def HeapCounts.add (a b : HeapCounts) : HeapCounts where
  nMalloc := Word.add 64 a.nMalloc b.nMalloc
  nFast := Word.add 64 a.nFast b.nFast
  nSlow := Word.add 64 a.nSlow b.nSlow

/-- `heap_global_counts`, over the heap registry. -/
def heapGlobalCounts (heapRegistry : List Nat) (counts : Nat → HeapCounts) : HeapCounts :=
  heapRegistry.foldl (fun sum h => sum.add (counts h)) HeapCounts.zero

/-- `hm_stats_t`. -/
structure HmStats where
  bytesReserved : Nat
  peakBytesReserved : Nat
  segmentsMapped : Nat
  pagesInUse : Nat
  pagesFree : Nat
  largeAllocations : Nat
  largeBytes : Nat
  mallocCount : Nat
  fastPathCount : Nat
  slowPathCount : Nat

/-- `hm_stats`. -/
def hmStats (s : Store) (counts : Nat → HeapCounts) : HmStats :=
  let sum := heapGlobalCounts s.heapRegistry counts
  { bytesReserved := s.os.bytesMapped
    peakBytesReserved := s.os.peakMapped
    segmentsMapped := s.central.numSegments
    pagesInUse := s.central.pagesInUse
    pagesFree := s.central.freePageCount
    largeAllocations := s.largeCount
    largeBytes := s.largeBytes
    mallocCount := sum.nMalloc
    fastPathCount := sum.nFast
    slowPathCount := sum.nSlow }

end HMalloc
