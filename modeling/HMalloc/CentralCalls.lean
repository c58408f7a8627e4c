import HMalloc.Thread

/-!
The calls of the central heap as a whole (`central.cpp`), put together from the
pieces the concurrent system runs one at a time. The lock keeps other threads
out of the central heap during a call, but not out of the pages: between two
rounds of a sweep they go on freeing blocks remotely. Those frees are an
argument here, one list of pointers for each round.

A result `none` is a read through a null pointer or a loop that does not end.
-/

namespace HMalloc

open Bytes

/-- A whole `heap_free_remote` by another thread. Clients free only what is
live, so a pointer that is not a live block of a page is left alone. -/
def remoteFree (s : Store) (p : Nat) : Store :=
  match s.grants p with
  | some ⟨_, _, _, .small _ _⟩ =>
      { s with
        os := { s.os with mem := writeWord s.os.mem p (s.page.threadFree (pageOf p)) }
        page := { s.page with threadFree := Function.update s.page.threadFree (pageOf p) p }
        grants := Function.update s.grants p none }
  | _ => s

def remoteFrees (s : Store) (frees : List Nat) : Store := frees.foldl remoteFree s

/-- The end of `pool_return`, for a segment that is to be unmapped. -/
def unmapDead (s : Store) : Option Nat → Option Store
  | none => some s
  | some b => do
      let r ← regionUnregister s.registry b
      return { s with registry := r, os := osFree s.os b (s.seg.mmapSize b) }

/-- Ghost: a round of `sweep_abandoned`, with the store it starts from. -/
structure SweepEntry where
  cursor : Option PageId
  page : PageId
  before : Store

/-- The loop of `sweep_abandoned` from round `k` on. Other threads free the
pointers `frees k` before round `k`. -/
def sweepLoop (frees : Nat → List Nat) :
    Nat → Nat → Store → Option PageId → Option (Store × List SweepEntry)
  | 0, _, _, _ => none
  | fuel + 1, k, s, cur =>
      let s := remoteFrees s (frees k)
      match cursorRead s cur with
      | none => some (s, [])
      | some pg => do
          let (s₁, next) ← sweepVisit s cur pg
          let s₂ ← unmapDead s₁ next.unmap
          let (s₃, log) ← sweepLoop frees fuel (k + 1) s₂ next.cursor
          return (s₃, ⟨cur, pg, s⟩ :: log)

/-- `sweep_abandoned`, with the log of its rounds. It visits every abandoned
page once. -/
def sweepAbandoned (frees : Nat → List Nat) (s : Store) : Option (Store × List SweepEntry) :=
  sweepLoop frees (s.central.abandonedCount + 1) 0 s none

/-- `map_segment`: the new segment, or `none` when the mapping failed. -/
def mapSegment (ps : PageSize) (o : Oracle) (s : Store) : Option (Option Nat × Store) :=
  match osAllocAligned ps o.mapping s.os segmentSize segmentSize .small with
  | (none, _) => some (none, s)
  | (some b, os) => do
      let s := initSegment { s with os := os } b
      let (w, r) ← storeRegister ps o s b
      return (some b, { s with os := w.os, registry := r })

/-- What `central_acquire_page` did: the page it returns, the rounds of its
sweep and the store after it, and what `map_segment` answered, each when it got
there. -/
structure Acquired where
  page : Option PageId
  swept : Option (Store × List SweepEntry)
  mapped : Option (Option Nat)

/-- `central_acquire_page`. -/
def centralAcquirePage (ps : PageSize) (o : Oracle) (frees : Nat → List Nat) (s : Store)
    (owner cls blockSize : Nat) : Option (Acquired × Store) :=
  if s.central.avail ≠ none then do
    let (pg, s) ← takePage s owner cls blockSize
    return (⟨some pg, none, none⟩, s)
  else do
    let (s₁, log) ← sweepAbandoned frees s
    if s₁.central.avail ≠ none then
      let (pg, s) ← takePage s₁ owner cls blockSize
      return (⟨some pg, some (s₁, log), none⟩, s)
    else
      match ← mapSegment ps o s₁ with
      | (none, s) => return (⟨none, some (s₁, log), some none⟩, s)
      | (some b, s) =>
          let (pg, s) ← takePage s owner cls blockSize
          return (⟨some pg, some (s₁, log), some (some b)⟩, s)

/-- `central_release_page`. -/
def centralRelease (s : Store) (pg : PageId) : Option Store := do
  let (s, dead) ← centralReleasePage s pg
  unmapDead s dead

end HMalloc
