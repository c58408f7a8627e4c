import HMalloc.Acquire
import HMalloc.Classes

/-!
The central heap as a component of its own: runs of its three calls, in any
order and with any answers of the kernel, while the owners of pages use them and
other threads free blocks remotely. After every call its lists and counters
represent the mapped segments and their pages (`CentralOk`), and no counter has
wrapped on the way.
-/

namespace HMalloc

open Bytes Linked

/-- What happens to the central heap and its pages. -/
inductive CentralCall where
  | acquire (o : Oracle) (frees : Nat → List Nat) (owner cls : Nat)
  | release (pg : PageId)
  | abandon (pg : PageId)
  /-- Another thread frees a block. -/
  | freeRemote (p : Nat)
  /-- The owner of a page takes a block of it. -/
  | serve (pg : PageId)
  /-- The owner frees a block of its page. -/
  | freeLocal (p : Nat)
  /-- The owner links a page into a list of its own. -/
  | link (pg : PageId) (next prev : Option PageId)

/-- A page serves a block of its full size, if it has one. -/
def serveBlock (s : Store) (pg : PageId) : Option Store := do
  let (available, s) ← pageMakeAvailable s pg
  if available then
    let size := s.page.blockSize pg
    let area := s.page.area pg
    let (b, s) ← pagePop s pg
    let g : Grant := ⟨size, size, .client, .small pg ((b - area) / size)⟩
    return { s with grants := Function.update s.grants b (some g) }
  else return s

def linkPage (s : Store) (pg : PageId) (next prev : Option PageId) : Store :=
  { s with page := { s.page with
    next := Function.update s.page.next pg next
    prev := Function.update s.page.prev pg prev } }

def centralStep (ps : PageSize) (s : Store) : CentralCall → Option Store
  | .acquire o frees owner cls =>
      (centralAcquirePage ps o frees s owner cls (classToSize cls)).map Prod.snd
  | .release pg => centralRelease s pg
  | .abandon pg => some (centralAbandonPage s pg)
  | .freeRemote p => some (remoteFree s p)
  | .serve pg => serveBlock s pg
  | .freeLocal p =>
      some { pushLocal s (pageOf p) p with grants := Function.update s.grants p none }
  | .link pg next prev => some (linkPage s pg next prev)

/-- A heap owns the page. -/
def Store.Owned (s : Store) (pg : PageId) : Prop :=
  IsPage (IsSegment s.os.regions) pg ∧ ∃ h, s.page.owner pg = .heap h

/-- What the calls assume: a page is released or abandoned by its owner, and
released only without live blocks. -/
def CentralCallOk (ps : PageSize) (s : Store) : CentralCall → Prop
  | .acquire o frees _ cls => cls < numSizeClasses ∧ AcquireOk ps o frees s
  | .release pg => s.Owned pg ∧ s.page.used pg = 0
  | .abandon pg | .serve pg | .link pg _ _ => s.Owned pg
  | .freeRemote _ => True
  | .freeLocal p => s.Owned (pageOf p) ∧
      ∃ g i, s.grants p = some g ∧ g.origin = .small (pageOf p) i

/-- The stores after a sequence of calls. -/
inductive CentralRun (ps : PageSize) : Store → Prop where
  | init : CentralRun ps Store.init
  | step {s s' : Store} {call : CentralCall} (h : CentralRun ps s) (hok : CentralCallOk ps s call)
      (hrun : centralStep ps s call = some s') : CentralRun ps s'

section Steps

variable {ps : PageSize} {s s' : Store} {G : Ghost} {pg : PageId}

/-- An owned page is on a class list of its owner. -/
theorem Inv.cls_of_owned (h : Inv ps s G) (hlimbo : G.limbo = none) (ho : s.Owned pg) :
    ∃ k c, pg ∈ G.cls k c := by
  obtain ⟨hp, k, howner⟩ := ho
  have hloc := (h.pages pg hp).loc
  have howner : (s.page.row pg).owner = .heap k := howner
  unfold LocOk at hloc
  cases hl : (G.page pg).loc with
  | pool =>
      rw [hl] at hloc
      rw [hloc.1] at howner
      cases howner
  | held k' c => exact ⟨k', c, (h.lists.places.cls k' c pg).mpr ⟨hp, hl⟩⟩
  | abandoned =>
      rw [hl] at hloc
      rw [hloc.1] at howner
      cases howner
  | limbo =>
      have := (h.lists.places.limbo pg).mpr ⟨hp, hl⟩
      rw [hlimbo] at this
      cases this

theorem Inv.serving_of_owned (h : Inv ps s G) (hlimbo : G.limbo = none) (ho : s.Owned pg) :
    (G.page pg).loc ≠ .pool ∧ (G.page pg).loc ≠ .limbo := by
  obtain ⟨k, c, hmem⟩ := h.cls_of_owned hlimbo ho
  simp [((h.lists.places.cls k c pg).mp hmem).2]

/-- A page serves a block. -/
theorem Inv.serveBlock (h : Inv ps s G) (hlimbo : G.limbo = none) (ho : s.Owned pg) :
    ∃ s' g, HMalloc.serveBlock s pg = some s' ∧ Inv ps s' (G.setPage pg g) := by
  have hserv := h.serving_of_owned hlimbo ho
  obtain ⟨available, s₁, g₁, hmake, hinv₁, hstep₁, hloc₁, hfree₁, _⟩ := h.makeAvailable ho.1 hserv
  cases available with
  | false =>
      refine ⟨s₁, g₁, ?_, hinv₁⟩
      simp [HMalloc.serveBlock, hmake]
  | true =>
      have hp₁ : IsPage (IsSegment s₁.os.regions) pg := by
        rw [hstep₁.regions]
        exact ho.1
      have hserv₁ : ((G.setPage pg g₁).page pg).loc ≠ .pool ∧
          ((G.setPage pg g₁).page pg).loc ≠ .limbo := by
        rw [Ghost.setPage_self, hloc₁]
        exact hserv
      obtain ⟨b, s₂, g₂, hpop, hstep₂, _, _, _, _, _, _, hgrant⟩ :=
        hinv₁.pop hp₁ hserv₁ (hfree₁ rfl)
      have hinv₂ := hgrant ⟨s₁.page.blockSize pg, s₁.page.blockSize pg, .client,
        .small pg ((b - s₁.page.area pg) / s₁.page.blockSize pg)⟩ rfl rfl (Nat.le_refl _)
      rw [Ghost.setPage_setPage, ← hstep₂.grants] at hinv₂
      exact ⟨_, g₂, by simp [HMalloc.serveBlock, hmake, hpop], hinv₂⟩

/-- The owner of a page may link it as it likes. -/
theorem Inv.linkPage (h : Inv ps s G) (hlimbo : G.limbo = none) (ho : s.Owned pg)
    (next prev : Option PageId) :
    ∃ k c l, Inv ps (HMalloc.linkPage s pg next prev) (G.setCls k c l) := by
  obtain ⟨k, c, hmem⟩ := h.cls_of_owned hlimbo ho
  refine ⟨k, c, G.cls k c, h.relink ⟨rfl, fun _ _ _ => rfl, ?_⟩ (fun _ => Iff.rfl)⟩
  intro q hq
  have hne : q ≠ pg := fun heq => hq (heq ▸ hmem)
  exact ⟨Function.update_of_ne hne .., Function.update_of_ne hne ..⟩

/-- `central_release_page`. -/
theorem Settled.release (hs : Settled ps s) (ho : s.Owned pg) (hused : s.page.used pg = 0)
    (hrun : centralRelease s pg = some s') : Settled ps s' := by
  obtain ⟨G, h, hlimbo, hdying⟩ := hs
  obtain ⟨k, c, hmem⟩ := h.cls_of_owned hlimbo ho
  obtain ⟨s₁, dead, hrelease, _, hafter⟩ := h.releasePage hlimbo hdying hmem hused
  simp only [centralRelease, hrelease, Option.bind_eq_bind, Option.bind_some] at hrun
  rcases hafter with ⟨rfl, hinv⟩ | ⟨rfl, _, hinv⟩
  · cases hrun
    exact ⟨_, hinv, rfl, hdying⟩
  · exact ⟨_, (hinv.unmapDead rfl hrun).1, rfl, rfl⟩

/-- Every call keeps the central heap consistent. -/
theorem Settled.step (hs : Settled ps s) {call : CentralCall} (hok : CentralCallOk ps s call)
    (hrun : centralStep ps s call = some s') : Settled ps s' := by
  cases call with
  | acquire o frees owner cls =>
      obtain ⟨G, h, hlimbo, hdying⟩ := hs
      obtain ⟨⟨r, s₁⟩, hacquire, rfl⟩ := Option.map_eq_some_iff.mp hrun
      exact (h.acquire hlimbo hdying hok.2 hok.1 owner hacquire).1
  | release pg => exact hs.release hok.1 hok.2 hrun
  | abandon pg =>
      obtain ⟨G, h, hlimbo, hdying⟩ := hs
      cases hrun
      obtain ⟨k, c, hmem⟩ := h.cls_of_owned hlimbo hok
      exact ⟨_, (h.abandonPage hlimbo hdying hmem).1, hlimbo, hdying⟩
  | freeRemote p =>
      obtain ⟨G, h, hlimbo, hdying⟩ := hs
      cases hrun
      obtain ⟨G', hinv, hfreed⟩ := h.remoteFree p
      exact ⟨G', hinv, by rw [hfreed.ghost]; exact hlimbo, by rw [hfreed.ghost]; exact hdying⟩
  | serve pg =>
      obtain ⟨G, h, hlimbo, hdying⟩ := hs
      obtain ⟨s₁, g, hserve, hinv⟩ := h.serveBlock hlimbo hok
      cases hserve.symm.trans hrun
      exact ⟨_, hinv, hlimbo, hdying⟩
  | freeLocal p =>
      obtain ⟨G, h, hlimbo, hdying⟩ := hs
      obtain ⟨_, g, i, hg, ho⟩ := hok
      cases hrun
      exact ⟨_, h.push hg ho, hlimbo, hdying⟩
  | link pg next prev =>
      obtain ⟨G, h, hlimbo, hdying⟩ := hs
      cases hrun
      obtain ⟨k, c, l, hinv⟩ := h.linkPage hlimbo hok next prev
      exact ⟨_, hinv, hlimbo, hdying⟩

theorem CentralRun.settled (h : CentralRun ps s) : Settled ps s := by
  induction h with
  | init => exact Settled.init ps
  | step _ hok hrun ih => exact ih.step hok hrun

end Steps

/-- The lists and counters of the central heap represent the mapped segments and
their pages: `listed` are the segments, `ready` those with a free page, `pools`
the free pages of each, and `left` the abandoned pages. -/
structure CentralOk (s : Store) (listed ready : List Nat) (pools : Nat → List PageId)
    (left : List PageId) : Prop where
  segments : Chain s.seg.next s.central.segments listed ∧ listed.Nodup ∧
    ∀ b, b ∈ listed ↔ IsSegment s.os.regions b
  avail : DList s.seg.availNext s.seg.availPrev s.central.avail ready ∧ ready.Nodup ∧
    ∀ b, b ∈ ready ↔ IsSegment s.os.regions b ∧ 0 < s.seg.freeCount b
  inAvail : ∀ b, IsSegment s.os.regions b → (s.seg.inAvail b = true ↔ 0 < s.seg.freeCount b)
  freeList : ∀ b, IsSegment s.os.regions b →
    Chain s.page.next (s.seg.freeList b) (pools b) ∧ (pools b).Nodup ∧
      s.seg.freeCount b = (pools b).length
  pool : ∀ b pg, IsSegment s.os.regions b → (pg ∈ pools b ↔
    IsPage (IsSegment s.os.regions) pg ∧ pg.seg = b ∧ s.page.owner pg = .null)
  abandoned : Chain s.page.next s.central.abandoned left ∧ left.Nodup ∧
    ∀ pg, pg ∈ left ↔ IsPage (IsSegment s.os.regions) pg ∧ s.page.owner pg = .abandoned
  numSegments : s.central.numSegments = listed.length
  freePageCount : s.central.freePageCount = (listed.map (fun b => (pools b).length)).sum
  freeSegments : s.central.freeSegments =
    listed.countP (fun b => (pools b).length == usablePagesPerSegment)
  abandonedCount : s.central.abandonedCount = left.length
  total : s.central.pagesInUse + s.central.freePageCount + s.central.abandonedCount =
    usablePagesPerSegment * s.central.numSegments
  cache : s.central.freeSegments ≤ segmentCache

section Representation

variable {ps : PageSize} {s : Store} {G : Ghost} {pg : PageId}

/-- A page in a pool or on the abandoned list, by its owner. -/
theorem Inv.owner_null (h : Inv ps s G) (hlimbo : G.limbo = none)
    (hp : IsPage (IsSegment s.os.regions) pg) :
    ((G.page pg).loc = .pool ↔ s.page.owner pg = .null) ∧
      ((G.page pg).loc = .abandoned ↔ s.page.owner pg = .abandoned) := by
  rw [h.owner_eq hlimbo hp]
  cases hl : (G.page pg).loc with
  | pool | held | abandoned => simp [Loc.owner]
  | limbo =>
      have hsome := (h.lists.places.limbo pg).mpr ⟨hp, hl⟩
      rw [hlimbo] at hsome
      cases hsome

/-- Between two calls every mapped segment is listed. -/
theorem Inv.listed (h : Inv ps s G) (hdying : G.dying = none) (b : Nat) :
    b ∈ G.segments ↔ IsSegment s.os.regions b := by
  rw [h.lists.places.segments b, hdying]
  simp

theorem Inv.ready (h : Inv ps s G) (hdying : G.dying = none) (b : Nat) :
    b ∈ G.avail ↔ IsSegment s.os.regions b ∧ 0 < s.seg.freeCount b := by
  rw [h.lists.places.avail b, h.listed hdying b]
  refine and_congr_right fun hb => ?_
  rw [h.lists.chains.freeCount b hb, List.length_pos_iff]

theorem Inv.centralOk (h : Inv ps s G) (hlimbo : G.limbo = none) (hdying : G.dying = none) :
    CentralOk s G.segments G.avail G.pool G.abandoned where
  segments := ⟨h.lists.chains.segments, h.segments_nodup, h.listed hdying⟩
  avail := ⟨h.lists.chains.avail, h.lists.chains.avail.toChain.nodup, h.ready hdying⟩
  inAvail := by
    intro b hb
    rw [h.lists.chains.inAvail b hb, h.ready hdying b, and_iff_right hb]
  freeList := fun b hb => ⟨h.lists.chains.pool b hb, h.pool_nodup hb, h.lists.chains.freeCount b hb⟩
  pool := by
    intro b pg _
    rw [h.lists.places.pool b pg]
    refine and_congr_right fun hp => and_congr_right fun _ => ?_
    exact (h.owner_null hlimbo hp).1
  abandoned := by
    refine ⟨h.lists.chains.abandoned, h.lists.chains.abandoned.nodup, fun pg => ?_⟩
    rw [h.lists.places.abandoned pg]
    exact and_congr_right fun hp => (h.owner_null hlimbo hp).2
  numSegments := h.lists.counters.numSegments
  freePageCount := h.lists.counters.freePages
  freeSegments := h.lists.counters.freeSegments
  abandonedCount := h.lists.counters.abandonedCount
  total := by
    have htotal := h.lists.counters.total
    rw [hlimbo] at htotal
    simpa using htotal
  cache := h.lists.cache

end Representation

/-- The updates of `central_acquire_page` when it takes a page of segment `b`. -/
structure TakeExact (s : Store) (b : Nat) : Prop where
  freeCount : 0 < s.seg.freeCount b
  freeSegments : s.seg.freeCount b = usablePagesPerSegment → 0 < s.central.freeSegments
  freePageCount : 0 < s.central.freePageCount
  pagesInUse : s.central.pagesInUse + 1 < 2 ^ 64

/-- The updates of `pool_return` when it takes back a page of segment `b`. -/
structure PutExact (s : Store) (b : Nat) : Prop where
  freeCount : s.seg.freeCount b + 1 < 2 ^ 32
  freePageCount : s.central.freePageCount + 1 < 2 ^ 64
  freeSegments : s.central.freeSegments + 1 < 2 ^ 64
  numSegments : 0 < s.central.numSegments
  dropped : s.seg.freeCount b + 1 = usablePagesPerSegment →
    usablePagesPerSegment ≤ s.central.freePageCount + 1

/-- The updates of `map_segment`. -/
structure MapExact (s : Store) : Prop where
  freePageCount : s.central.freePageCount + usablePagesPerSegment < 2 ^ 64
  numSegments : s.central.numSegments + 1 < 2 ^ 64
  freeSegments : s.central.freeSegments + 1 < 2 ^ 64

/-- No counter wraps in a call. A round of the sweep that reclaims its page lowers
`abandoned_count` and returns the page to its pool. -/
def NoWrap (ps : PageSize) (s : Store) : CentralCall → Prop
  | .acquire o frees _ _ =>
      (∀ b, s.central.avail = some b → TakeExact s b) ∧
      (s.central.avail = none → ∀ s₁ log, sweepAbandoned frees s = some (s₁, log) →
        (∀ e ∈ log, e.kept = false →
          0 < e.before.central.abandonedCount ∧ PutExact e.before e.page.seg) ∧
        (∀ b, s₁.central.avail = some b → TakeExact s₁ b) ∧
        (s₁.central.avail = none → MapExact s₁ ∧
          ∀ b s₂, mapSegment ps o s₁ = some (some b, s₂) → TakeExact s₂ b))
  | .release pg => 0 < s.central.pagesInUse ∧ PutExact s pg.seg
  | .abandon _ => 0 < s.central.pagesInUse ∧ s.central.abandonedCount + 1 < 2 ^ 64
  | _ => True

section Exact

variable {ps : PageSize} {s : Store} {G : Ghost} {pg : PageId}

/-- The counters are at most the pages of the segments. -/
theorem Inv.counters_le (h : Inv ps s G) :
    s.central.numSegments ≤ 2 ^ 42 ∧ s.central.pagesInUse ≤ 63 * 2 ^ 42 ∧
      s.central.freePageCount ≤ 63 * 2 ^ 42 := by
  have htotal := h.lists.counters.total
  have hnum := h.lists.counters.numSegments
  have hbound := h.segments_bound
  rw [show usablePagesPerSegment = 63 by decide] at htotal
  omega

/-- The free pages of a segment are counted. -/
theorem Inv.freeCount_le (h : Inv ps s G) {b : Nat} (hb : b ∈ G.segments) :
    s.seg.freeCount b ≤ s.central.freePageCount := by
  rw [h.lists.counters.freePages, h.lists.chains.freeCount b (h.isSegment_of_mem hb)]
  exact List.single_le_sum (fun _ _ => Nat.zero_le _) _ (List.mem_map.mpr ⟨b, hb, rfl⟩)

theorem Inv.takeExact (h : Inv ps s G) (hdying : G.dying = none) {b : Nat}
    (hb : s.central.avail = some b) : TakeExact s b := by
  have hmem : b ∈ G.avail := by
    have hhead := h.lists.chains.avail.toChain.head_eq
    rw [hb] at hhead
    exact List.mem_of_head? hhead.symm
  obtain ⟨hseg, hpos⟩ := (h.ready hdying b).mp hmem
  have hlisted := (h.listed hdying b).mpr hseg
  have hle := h.freeCount_le hlisted
  obtain ⟨_, huse, _⟩ := h.counters_le
  refine ⟨hpos, fun hfull => ?_, by omega, by omega⟩
  rw [h.lists.counters.freeSegments, Ghost.idleSegments, List.countP_pos_iff]
  exact ⟨b, hlisted, by rw [← h.lists.chains.freeCount b hseg, hfull]; exact beq_self_eq_true _⟩

theorem Inv.putExact (h : Inv ps s G) (hdying : G.dying = none)
    (hp : IsPage (IsSegment s.os.regions) pg) : PutExact s pg.seg := by
  have hlisted := (h.listed hdying pg.seg).mpr hp.1
  have hle := h.freeCount_le hlisted
  obtain ⟨_, _, hfree⟩ := h.counters_le
  have hpool := h.pool_le hp.1
  have hcount := h.lists.chains.freeCount pg.seg hp.1
  have hcache := h.lists.cache
  have hnum := h.lists.counters.numSegments
  have hlen := List.length_pos_of_mem hlisted
  rw [show usablePagesPerSegment = 63 by decide] at hpool
  rw [show segmentCache = 1 from rfl] at hcache
  exact ⟨by omega, by omega, by omega, by omega, by omega⟩

theorem Inv.mapExact (h : Inv ps s G) : MapExact s := by
  obtain ⟨hnum, _, hfree⟩ := h.counters_le
  have hcache := h.lists.cache
  rw [show segmentCache = 1 from rfl] at hcache
  refine ⟨?_, by omega, by omega⟩
  rw [show usablePagesPerSegment = 63 by decide]
  omega

theorem Inv.abandoned_pos (h : Inv ps s G) (hp : pg ∈ G.abandoned) :
    0 < s.central.abandonedCount := by
  rw [h.lists.counters.abandonedCount]
  exact List.length_pos_of_mem hp

/-- No call wraps a counter. -/
theorem Settled.noWrap (hs : Settled ps s) {call : CentralCall} (hok : CentralCallOk ps s call) :
    NoWrap ps s call := by
  obtain ⟨G, h, hlimbo, hdying⟩ := hs
  cases call with
  | acquire o frees owner cls =>
      refine ⟨fun b hb => h.takeExact hdying hb, fun _ s₁ log hsweep => ?_⟩
      obtain ⟨G₁, hres⟩ := (sweepAbandoned_spec frees h hlimbo hdying).2 s₁ log hsweep
      refine ⟨?_, fun b hb => hres.inv.takeExact hres.dying hb, fun hav => ⟨hres.inv.mapExact, ?_⟩⟩
      · intro e he _
        obtain ⟨G₀, hinv₀, _, hdying₀, hpage⟩ := hres.sound e he
        exact ⟨hinv₀.abandoned_pos hpage, hinv₀.putExact hdying₀ (hres.entries e he).page⟩
      · intro b s₂ hmap
        rcases hres.inv.mapSegmentCall hav (hok.2 s₁ log hsweep) hmap with
          ⟨hnone, _⟩ | ⟨b', hb', hinv₂, _, hav₂⟩
        · cases hnone
        · cases hb'
          exact hinv₂.takeExact hres.dying hav₂
  | release pg =>
      obtain ⟨k, c, hmem⟩ := h.cls_of_owned hlimbo hok.1
      exact ⟨(h.pagesInUse_pos hlimbo hdying hmem).1, h.putExact hdying hok.1.1⟩
  | abandon pg =>
      obtain ⟨k, c, hmem⟩ := h.cls_of_owned hlimbo hok
      obtain ⟨hpos, _, hlt⟩ := h.pagesInUse_pos hlimbo hdying hmem
      exact ⟨hpos, hlt⟩
  | freeRemote | serve | freeLocal | link => trivial

/-- A call returns if the registry has an empty slot. -/
theorem Settled.ends (hs : Settled ps s) {call : CentralCall} (hok : CentralCallOk ps s call)
    (hspare : s.registry.Spare) : ∃ s', centralStep ps s call = some s' := by
  obtain ⟨G, h, hlimbo, hdying⟩ := hs
  cases call with
  | acquire o frees owner cls =>
      obtain ⟨r, hrun⟩ := Option.isSome_iff_exists.mp
        (h.acquire_ends hlimbo hdying hok.2 hok.1 owner hspare)
      exact ⟨r.2, by simp [centralStep, hrun]⟩
  | release pg =>
      obtain ⟨k, c, hmem⟩ := h.cls_of_owned hlimbo hok.1
      obtain ⟨s₁, dead, hrelease, hmove, hafter⟩ := h.releasePage hlimbo hdying hmem hok.2
      have hregistry : s₁.registry = s.registry := by rw [hmove.rest]
      rw [← hregistry] at hspare
      have hdvd : ∀ b, dead = some b → segmentSize ∣ b := by
        rintro b rfl
        rcases hafter with ⟨hnone, _⟩ | ⟨hsome, _⟩
        · cases hnone
        · cases hsome
          exact (h.regions.segment hok.1.1.1).2.1
      obtain ⟨s₂, hunmap, _⟩ := unmapDead_ends hspare hdvd
      exact ⟨s₂, by simp [centralStep, centralRelease, hrelease, hunmap]⟩
  | serve pg =>
      obtain ⟨s₁, _, hserve, _⟩ := h.serveBlock hlimbo hok
      exact ⟨s₁, hserve⟩
  | abandon | freeRemote | freeLocal | link => exact ⟨_, rfl⟩

end Exact

/-- The representation of the central heap. After every sequence of calls of
`central_acquire_page`, `central_release_page` and `central_abandon_page`, with
any answers of the kernel and with blocks served and freed in between: its lists
hold the mapped segments, those with free pages, their free pages and the
abandoned pages, once each; its counters are the real counts, and at most
`SEGMENT_CACHE` segments are idle. No counter wraps in a call, and a call
returns if the registry has an empty slot. -/
theorem central_represents (ps : PageSize) {s : Store} (h : CentralRun ps s) :
    (∃ listed ready pools left, CentralOk s listed ready pools left) ∧
    ∀ call, CentralCallOk ps s call → NoWrap ps s call ∧
      (s.registry.Spare → ∃ s', centralStep ps s call = some s') := by
  have hs := h.settled
  refine ⟨?_, fun call hok => ⟨hs.noWrap hok, hs.ends hok⟩⟩
  obtain ⟨G, hinv, hlimbo, hdying⟩ := hs
  exact ⟨_, _, _, _, hinv.centralOk hlimbo hdying⟩

/-- A kernel that grants one segment and refuses the registry's tables. -/
def oneSegment : Oracle := ⟨some segmentSize, [], false⟩

theorem oneSegment_acquireOk :
    AcquireOk page4k oneSegment (fun _ => []) Store.init := by
  rintro s₁ log hsweep
  cases hsweep
  refine ⟨?_, fun b os w r _ hreg => storeRegister_refused rfl hreg⟩
  rintro base ⟨⟩ len hlen
  have hlength : mmapLength page4k.bytes segmentSize segmentSize = some (2 * segmentSize) := by
    decide +kernel
  cases hlength.symm.trans hlen
  exact ⟨by decide, by decide, by decide, fun _ _ _ => rfl⟩

/-- The first call maps a segment, of which one page is taken. -/
theorem central_represents_first : ∃ s, CentralRun page4k s ∧ s.central.numSegments = 1 ∧
    s.central.pagesInUse = 1 ∧ s.central.freePageCount = 62 ∧
    ∃ listed ready pools left, CentralOk s listed ready pools left := by
  have hok : CentralCallOk page4k Store.init (.acquire oneSegment (fun _ => []) 4096 0) :=
    ⟨by decide, oneSegment_acquireOk⟩
  have hcheck : (centralStep page4k Store.init (.acquire oneSegment (fun _ => []) 4096 0)).any
      (fun s => s.central.numSegments == 1 && s.central.pagesInUse == 1 &&
        s.central.freePageCount == 62) = true := by
    decide +kernel
  rw [Option.any_eq_true] at hcheck
  obtain ⟨s, hrun, hcheck⟩ := hcheck
  simp only [Bool.and_eq_true, beq_iff_eq] at hcheck
  have hreach : CentralRun page4k s := .step .init hok hrun
  exact ⟨s, hreach, hcheck.1.1, hcheck.1.2, hcheck.2, (central_represents page4k hreach).1⟩

end HMalloc
