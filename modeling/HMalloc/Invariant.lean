import HMalloc.Central
import HMalloc.Lib.Count
import HMalloc.Lib.Linked
import HMalloc.Lib.PartialMap

/-!
The invariant of the allocator's data. A ghost state gives every intrusive list
as a sequence and says where every page is; the invariant ties it to the
columns of the store. Its parts mention only the columns they constrain, so
that an operation which leaves a column alone keeps the part as it is:

* `RegionsOk`, `TagsOk`: the mapped regions and the tags in their headers;
* `PageOk`: one page, with the conservation of its blocks (`InService`);
* `ListsOk`: the central heap's lists and counters;
* `GrantsOk`: the pointers that are handed out.

The class lists of a heap belong to its thread and are not part of it.
-/

namespace HMalloc

open Bytes Linked

/-- The pointer a word stands for. -/
def ptr (v : Nat) : Option Nat := if v = 0 then none else some v

/-- `b->next` of a free block. -/
def link (mem : Mem) (a : Nat) : Option Nat := ptr (readWord mem a)

@[simp] theorem ptr_eq_none {v : Nat} : ptr v = none ↔ v = 0 := by
  simp [ptr]

@[simp] theorem ptr_eq_some {v a : Nat} : ptr v = some a ↔ v = a ∧ a ≠ 0 := by
  unfold ptr
  split
  · simp only [reduceCtorEq, false_iff]
    omega
  · simp only [Option.some.injEq]
    omega

theorem ptr_zero : ptr 0 = none := rfl

theorem ptr_of_ne {v : Nat} (h : v ≠ 0) : ptr v = some v := if_neg h

theorem link_congr {mem mem' : Mem} {a : Nat}
    (h : ∀ x, a ≤ x → x < a + 8 → mem' x = mem x) : link mem' a = link mem a := by
  unfold link
  rw [readWord_congr h]

theorem link_writeWord (mem : Mem) (a v : Nat) (hv : v < 2 ^ 64) :
    link (writeWord mem a v) a = ptr v := by
  unfold link
  rw [readWord_writeWord mem a v hv]

theorem link_writeWord_disjoint (mem : Mem) (a b v : Nat) (h : b + 8 ≤ a ∨ a + 8 ≤ b) :
    link (writeWord mem a v) b = link mem b := by
  unfold link
  rw [readWord_writeWord_disjoint mem a b v h]

/-- Where a page is: in its segment's pool, in a class list of a heap, on the
abandoned list, or between two lists inside a critical section. -/
inductive Loc where
  | pool
  | held (heap cls : Nat)
  | abandoned
  | limbo
  deriving DecidableEq

/-- The blocks of a page, by address: on the local free list, on the
`thread_free` list, and handed out. -/
structure PageGhost where
  free : List Nat
  remote : List Nat
  out : List Nat
  loc : Loc

structure Ghost where
  page : PageId → PageGhost
  cls : Nat → Nat → List PageId
  pool : Nat → List PageId
  abandoned : List PageId
  segments : List Nat
  avail : List Nat
  /-- A segment that has left the lists and is still mapped. -/
  dying : Option Nat
  limbo : Option PageId

/-- The fields of one page that describe its blocks. -/
structure PageState where
  free : Nat
  used : Nat
  capacity : Nat
  reserved : Nat
  blockSize : Nat
  sizeClass : Nat
  inUse : Bool
  owner : Owner
  area : Nat
  threadFree : Nat

def Pages.row (page : Pages) (pg : PageId) : PageState where
  free := page.free pg
  used := page.used pg
  capacity := page.capacity pg
  reserved := page.reserved pg
  blockSize := page.blockSize pg
  sizeClass := page.sizeClass pg
  inUse := page.inUse pg
  owner := page.owner pg
  area := page.area pg
  threadFree := page.threadFree pg

def PageState.block (v : PageState) (i : Nat) : Nat := v.area + i * v.blockSize

/-- `base + i * PAGE_SIZE`. -/
def PageId.start (pg : PageId) : Nat := pg.seg + pg.idx * pageSize

/-- A page that serves blocks. Every block carved so far is on exactly one of
the three ghost lists, the two free lists are the chains in memory, and `used`
counts the blocks that have not come back to the local list. -/
structure InService (mem : Mem) (v : PageState) (g : PageGhost) : Prop where
  cls : v.sizeClass < numSizeClasses
  blockSize : v.blockSize = classToSize v.sizeClass
  capacity : v.capacity = pageSize / v.blockSize
  reserved : v.reserved ≤ v.capacity
  blocks : (g.free ++ g.remote ++ g.out).Perm ((List.range v.reserved).map v.block)
  used : v.used = g.out.length + g.remote.length
  free : Chain (link mem) (ptr v.free) g.free
  remote : Chain (link mem) (ptr v.threadFree) g.remote
  inUse : v.inUse = true

/-- A page without blocks. -/
structure Vacant (v : PageState) (g : PageGhost) : Prop where
  used : v.used = 0
  threadFree : v.threadFree = 0
  free : g.free = []
  remote : g.remote = []
  out : g.out = []

def LocOk (mem : Mem) (v : PageState) (g : PageGhost) : Prop :=
  match g.loc with
  | .pool => v.owner = .null ∧ v.inUse = false ∧ Vacant v g
  | .held h c => v.owner = .heap h ∧ v.sizeClass = c ∧ InService mem v g
  | .abandoned => v.owner = .abandoned ∧ InService mem v g
  | .limbo => Vacant v g

structure PageOk (mem : Mem) (v : PageState) (g : PageGhost) (pg : PageId) : Prop where
  area : v.area = pg.start
  loc : LocOk mem v g

/-- The mapped regions are disjoint ranges of the address space, and those of
the allocator are laid out as it lays them out. -/
structure RegionsOk (mapped : Nat → Bool) (regions : Nat → Option Region) : Prop where
  range : ∀ b r, regions b = some r → b ≠ 0 ∧ 0 < r.size ∧ b + r.size ≤ 2 ^ 64
  mapped : ∀ b r, regions b = some r → ∀ x, b ≤ x → x < b + r.size → mapped x = true
  disjoint : ∀ b r b' r', regions b = some r → regions b' = some r' → b ≠ b' →
    b + r.size ≤ b' ∨ b' + r'.size ≤ b
  small : ∀ b size, regions b = some ⟨size, .small⟩ → segmentSize ∣ b ∧ size = segmentSize
  large : ∀ b size offset, regions b = some ⟨size, .large offset⟩ →
    segmentSize ∣ b ∧ largeOffset ≤ offset ∧ allocAlign ∣ offset ∧
      offset < segmentSize ∧ offset < size

/-- The tag at the base of every region of the allocator, and the header of
every large one. -/
structure TagsOk (mem : Mem) (regions : Nat → Option Region) : Prop where
  small : ∀ b size, regions b = some ⟨size, .small⟩ → mem b = 0
  large : ∀ b size offset, regions b = some ⟨size, .large offset⟩ →
    mem b = 1 ∧ largeMmapSize mem b = size ∧ largeHeaderOffset mem b = offset

/-- A mapped small segment. -/
def IsSegment (regions : Nat → Option Region) (b : Nat) : Prop :=
  regions b = some ⟨segmentSize, .small⟩

/-- A usable page of a segment. -/
def IsPage (isSegment : Nat → Prop) (pg : PageId) : Prop :=
  isSegment pg.seg ∧ firstUsablePage ≤ pg.idx ∧ pg.idx < pagesPerSegment

/-- Every usable page of a mapped segment is on the one list its location
names, and the lists of segments are the ones they should be. -/
structure PlacesOk (isSegment : Nat → Prop) (G : Ghost) : Prop where
  pool : ∀ b pg, pg ∈ G.pool b ↔ IsPage isSegment pg ∧ pg.seg = b ∧ (G.page pg).loc = .pool
  abandoned : ∀ pg, pg ∈ G.abandoned ↔ IsPage isSegment pg ∧ (G.page pg).loc = .abandoned
  cls : ∀ h c pg, pg ∈ G.cls h c ↔ IsPage isSegment pg ∧ (G.page pg).loc = .held h c
  limbo : ∀ pg, G.limbo = some pg ↔ IsPage isSegment pg ∧ (G.page pg).loc = .limbo
  segments : ∀ b, b ∈ G.segments ↔ isSegment b ∧ G.dying ≠ some b
  avail : ∀ b, b ∈ G.avail ↔ b ∈ G.segments ∧ G.pool b ≠ []
  dying : ∀ b, G.dying = some b → isSegment b ∧ (G.pool b).length = usablePagesPerSegment

/-- The lists of the central heap in memory. -/
structure ChainsOk (isSegment : Nat → Prop) (next : PageId → Option PageId)
    (seg : Segments) (central : Central) (G : Ghost) : Prop where
  pool : ∀ b, isSegment b → Chain next (seg.freeList b) (G.pool b)
  freeCount : ∀ b, isSegment b → seg.freeCount b = (G.pool b).length
  mmapSize : ∀ b, isSegment b → seg.mmapSize b = segmentSize
  abandoned : Chain next central.abandoned G.abandoned
  segments : Chain seg.next central.segments G.segments
  avail : DList seg.availNext seg.availPrev central.avail G.avail
  inAvail : ∀ b, isSegment b → (seg.inAvail b = true ↔ b ∈ G.avail)

def Ghost.freePages (G : Ghost) : Nat := (G.segments.map (fun b => (G.pool b).length)).sum

def Ghost.idleSegments (G : Ghost) : Nat :=
  G.segments.countP (fun b => (G.pool b).length == usablePagesPerSegment)

/-- The counters of the central heap. -/
structure CountersOk (central : Central) (G : Ghost) : Prop where
  numSegments : central.numSegments = G.segments.length
  freePages : central.freePageCount = G.freePages
  freeSegments : central.freeSegments = G.idleSegments
  abandonedCount : central.abandonedCount = G.abandoned.length
  total : central.pagesInUse + central.freePageCount + central.abandonedCount +
    G.limbo.toList.length = usablePagesPerSegment * central.numSegments

/-- The central heap's lists and counters, over the mapped segments. -/
structure ListsOk (isSegment : Nat → Prop) (next : PageId → Option PageId)
    (seg : Segments) (central : Central) (G : Ghost) : Prop where
  places : PlacesOk isSegment G
  chains : ChainsOk isSegment next seg central G
  counters : CountersOk central G
  cache : central.freeSegments ≤ segmentCache

/-- The pointers handed out are the blocks that are out and the user pointers
of large regions; each has the usable size its page or region gives it. -/
structure GrantsOk (regions : Nat → Option Region) (area blockSize : PageId → Nat)
    (out : PageId → List Nat) (grants : Nat → Option Grant) : Prop where
  small : ∀ p g pg i, grants p = some g → g.origin = .small pg i →
    IsPage (IsSegment regions) pg ∧ p ∈ out pg ∧ p = area pg + i * blockSize pg ∧
      g.usable = blockSize pg ∧ g.size ≤ g.usable
  large : ∀ p g b, grants p = some g → g.origin = .large b →
    ∃ size offset, regions b = some ⟨size, .large offset⟩ ∧ p = b + offset ∧
      g.usable = size - offset ∧ g.size ≤ g.usable
  out : ∀ pg p, IsPage (IsSegment regions) pg → p ∈ out pg →
    ∃ g i, grants p = some g ∧ g.origin = .small pg i

/-- The invariant of the allocator's data. -/
structure Inv (ps : PageSize) (s : Store) (G : Ghost) : Prop where
  regions : RegionsOk s.os.mapped s.os.regions
  tags : TagsOk s.os.mem s.os.regions
  pages : ∀ pg, IsPage (IsSegment s.os.regions) pg →
    PageOk s.os.mem (s.page.row pg) (G.page pg) pg
  lists : ListsOk (IsSegment s.os.regions) s.page.next s.seg s.central G
  grants : GrantsOk s.os.regions s.page.area s.page.blockSize (fun pg => (G.page pg).out) s.grants
  table : s.registry.slots ≠ 0 →
    s.os.regions s.registry.slots = some ⟨slotsBytes ps s.registry.cap, .table⟩
  sentinel : s.page.free emptyPage = 0

/-- What `Page::owner` says of a page that is not between two lists. -/
def Loc.owner : Loc → Owner
  | .pool | .limbo => .null
  | .held h _ => .heap h
  | .abandoned => .abandoned

/-- Where a page is can be read off its owner. -/
theorem Inv.owner_eq {ps : PageSize} {s : Store} {G : Ghost} (h : Inv ps s G)
    (hlimbo : G.limbo = none) {pg : PageId} (hp : IsPage (IsSegment s.os.regions) pg) :
    s.page.owner pg = (G.page pg).loc.owner := by
  have hloc := (h.pages pg hp).loc
  unfold LocOk at hloc
  cases hl : (G.page pg).loc with
  | pool | held | abandoned =>
      rw [hl] at hloc
      exact hloc.1
  | limbo =>
      have hsome := (h.lists.places.limbo pg).mpr ⟨hp, hl⟩
      rw [hlimbo] at hsome
      cases hsome

/-- Before the first call. -/
def Ghost.init : Ghost where
  page := fun _ => ⟨[], [], [], .pool⟩
  cls := fun _ _ => []
  pool := fun _ => []
  abandoned := []
  segments := []
  avail := []
  dying := none
  limbo := none

theorem Inv.init (ps : PageSize) : Inv ps Store.init Ghost.init where
  regions := ⟨by simp [Store.init, Os.init], by simp [Store.init, Os.init],
    by simp [Store.init, Os.init], by simp [Store.init, Os.init], by simp [Store.init, Os.init]⟩
  tags := ⟨by simp [Store.init, Os.init], by simp [Store.init, Os.init]⟩
  pages := fun pg hpg => by simp [IsPage, IsSegment, Store.init, Os.init] at hpg
  lists :=
    { places := by
        constructor <;> simp [Ghost.init, IsPage, IsSegment, Store.init, Os.init]
      chains := by
        constructor <;> simp [Ghost.init, IsSegment, Store.init, Os.init, chain_nil, dlist_nil]
      counters := by
        constructor <;> simp [Ghost.init, Store.init, Ghost.freePages, Ghost.idleSegments]
      cache := by simp [Store.init] }
  grants := by
    constructor <;> simp [Ghost.init, Store.init]
  table := by simp [Store.init, Registry.init]
  sentinel := rfl

end HMalloc
