import HMalloc.Effects

/-!
Who owns a page. A heap comes to own a page when `central_acquire_page` takes it
from the pool, and it stops owning it when the page is released to the pool or
abandoned (`PageEvent`). The other writers of `Page::owner` work on pages that
no heap owns: the sweep on an abandoned one, `map_segment` on those of a segment
that is new.
-/

namespace HMalloc

open Bytes Linked

/-- What is done with a page of a thread. -/
inductive PageEvent where
  | take (pg : PageId)
  | release (pg : PageId)
  | abandon (pg : PageId)
  deriving DecidableEq

/-- The page that `central_acquire_page` takes. -/
def freshPage (s : Store) : Option PageId := do
  let b ← s.central.avail
  s.seg.freeList b

/-- What the next step of a thread does with a page. -/
def Thread.pageEvent (s : Store) (th : Thread) : Option PageEvent :=
  match th.pc with
  | .acquire _ _ | .registerSegment _ _ _ => (freshPage s).map .take
  | .sweep _ _ cur => if cursorRead s cur = none then (freshPage s).map .take else none
  | .release pg _ => some (.release pg)
  | .hand _ pg _ => some (if s.page.used pg = 0 then .release pg else .abandon pg)
  | _ => none

section Operations

variable {s s' : Store}

theorem pageCollect_owner {pg : PageId} (h : pageCollect s pg = some s') :
    s'.page.owner = s.page.owner := by
  obtain ⟨mem, free, used, rfl⟩ := pageCollect_shape h
  rfl

theorem pageMakeAvailable_owner {pg : PageId} {available : Bool}
    (h : pageMakeAvailable s pg = some (available, s')) : s'.page.owner = s.page.owner := by
  obtain ⟨mem, free, used, reserved, threadFree, rfl⟩ := pageMakeAvailable_shape h
  rfl

theorem pagePop_owner {pg : PageId} {b : Nat} (h : pagePop s pg = some (b, s')) :
    s'.page.owner = s.page.owner := by
  obtain ⟨_, _, rfl⟩ := pagePop_shape h
  rfl

theorem heapRotateToFront_owner (s : Store) (h c : Nat) (p : PageId) :
    (heapRotateToFront s h c p).page.owner = s.page.owner := by
  obtain ⟨next, prev, slot, heq, _⟩ := heapRotateToFront_shape s h c p
  rw [heq]

theorem poolReturn_owner {pg : PageId} {dead : Option Nat}
    (h : poolReturn s pg = some (s', dead)) :
    s'.page.owner = Function.update s.page.owner pg .null := by
  obtain ⟨seg, central, rfl⟩ := poolReturn_shape h
  rfl

theorem sweepVisit_owner {cur : Option PageId} {pg : PageId} {next : SweepNext}
    (h : sweepVisit s cur pg = some (s', next)) :
    s'.page.owner = s.page.owner ∨ s'.page.owner = Function.update s.page.owner pg .null := by
  obtain ⟨s₁, hcollect, ⟨_, dead, _, hpool⟩ | ⟨_, rfl, _⟩⟩ := sweepVisit_cases h
  · right
    have hreturn := poolReturn_owner hpool
    rw [← pageCollect_owner hcollect]
    exact hreturn
  · exact Or.inl (pageCollect_owner hcollect)

theorem takePage_owner {k cls blockSize : Nat} {pg : PageId}
    (h : takePage s k cls blockSize = some (pg, s')) :
    freshPage s = some pg ∧ s'.page.owner = Function.update s.page.owner pg (.heap k) := by
  obtain ⟨b, seg, central, havail, hfree, rfl⟩ := takePage_shape h
  exact ⟨by simp [freshPage, havail, hfree], rfl⟩

theorem initSegment_owner (s : Store) (b : Nat) :
    (initSegment s b).page.owner = fun pg => if pg.seg = b then .null else s.page.owner pg := by
  have hpages : ∀ n i s', (initPages b n i s').page.owner = s'.page.owner := by
    intro n
    induction n with
    | zero => exact fun _ _ => rfl
    | succ n ih => exact fun i s' => ih (i + 1) _
  exact hpages usablePagesPerSegment firstUsablePage (zeroSegment s b)

variable {t : Nat} {th th' : Thread} {q : Request}

theorem deliver_page (s : Store) (t : Nat) (th : Thread) (q : Request) (p usable : Nat)
    (origin : Origin) : (deliver s t th q p usable origin).1.page = s.page := by
  rw [deliver_rest]

theorem failAlloc_page (s : Store) (th : Thread) (q : Request) :
    (failAlloc s th q).1.page = s.page := by
  rw [(failAlloc_eq s th q).1]

/-- A popped block is delivered. -/
theorem popDeliver_owner {pg : PageId} {b : Nat} {s₁ : Store} (hpop : pagePop s pg = some (b, s₁))
    (t : Nat) (th : Thread) (q : Request) :
    (deliverBlock s₁ t th q pg b).1.page.owner = s.page.owner :=
  (congrArg Pages.owner (deliver_page s₁ t th q b _ _)).trans (pagePop_owner hpop)

theorem stepAfter_page {after : After} (h : stepAfter s th after = some (s', th')) :
    s'.page = s.page := by
  cases after with
  | freed result =>
      cases h
      rfl
  | destroying c next =>
      simp only [stepAfter, Option.bind_eq_bind, Option.bind_eq_some_iff] at h
      obtain ⟨k, _, h⟩ := h
      obtain ⟨slot, pc, heq, _⟩ := destroyNext_shape
        { s with central := { s.central with mtx := none } } th k c next
      cases heq.symm.trans (Option.some.inj h)
      rfl
  | sweeping q c cur =>
      cases h
      rfl

theorem afterPool_page {dead : Option Nat} {after : After}
    (h : afterPool s t th dead after = some (s', th')) : s'.page = s.page := by
  cases dead with
  | none => exact stepAfter_page h
  | some b =>
      cases h
      rfl

theorem AcquireEnd.owner {c : Nat} (h : AcquireEnd s t th q c s' th') :
    ∃ k pg, th.heap = some k ∧ freshPage s = some pg ∧
      s'.page.owner = Function.update s.page.owner pg (.heap k) := by
  cases h with
  | @served k b np s₁ s₂ s₃ hheap htake hmake hpop =>
      obtain ⟨hfresh, htaken⟩ := takePage_owner htake
      refine ⟨k, np, hheap, hfresh, ?_⟩
      rw [popDeliver_owner hpop, pageMakeAvailable_owner hmake]
      exact htaken
  | @failed k np s₁ s₂ hheap htake hmake =>
      obtain ⟨hfresh, htaken⟩ := takePage_owner htake
      refine ⟨k, np, hheap, hfresh, ?_⟩
      rw [failAlloc_page, pageMakeAvailable_owner hmake]
      exact htaken

end Operations

/-- What a step of a thread does to the owners of pages. -/
inductive Keeping (ps : PageSize) (o : Oracle) (s : Store) (th : Thread) (s' : Store) : Prop where
  | same (hevent : th.pageEvent s = none) (h : s'.page.owner = s.page.owner)
  | take {pg : PageId} {k : Nat} (hevent : th.pageEvent s = some (.take pg))
      (hfresh : freshPage s = some pg) (hheap : th.heap = some k)
      (h : s'.page.owner = Function.update s.page.owner pg (.heap k))
  | release {pg : PageId} (hevent : th.pageEvent s = some (.release pg))
      (h : s'.page.owner = Function.update s.page.owner pg .null)
  | abandon {pg : PageId} (hevent : th.pageEvent s = some (.abandon pg))
      (h : s'.page.owner = Function.update s.page.owner pg .abandoned)
  | reclaim {q : Request} {c : Nat} {cur : Option PageId} {pg : PageId}
      (hevent : th.pageEvent s = none) (hpc : th.pc = .sweep q c cur)
      (hread : cursorRead s cur = some pg)
      (h : s'.page.owner = Function.update s.page.owner pg .null)
  | clear {q : Request} {c b : Nat} {os : Os} (hevent : th.pageEvent s = none)
      (hpc : th.pc = .mapSegment q c)
      (hmap : osAllocAligned ps o.mapping s.os segmentSize segmentSize .small = (some b, os))
      (h : s'.page.owner = fun pg => if pg.seg = b then .null else s.page.owner pg)

section Inversion

variable {ps : PageSize} {o : Oracle} {s s' : Store} {t : Nat} {th th' : Thread}

/-- A page that has left its class list is released to the pool. -/
theorem centralReleasePage_owner {pg : PageId} {dead : Option Nat} {s₁ : Store} {after : After}
    (hrelease : centralReleasePage s pg = some (s₁, dead))
    (h : afterPool s₁ t th dead after = some (s', th')) :
    s'.page.owner = Function.update s.page.owner pg .null := by
  have hreturn := poolReturn_owner (show poolReturn _ pg = _ from hrelease)
  exact (congrArg Pages.owner (afterPool_page h)).trans hreturn

theorem pageEvent_of_pc {pc : Pc} {e : Option PageEvent} (hpc : th.pc = pc)
    (h : ({ th with pc := pc } : Thread).pageEvent s = e) : th.pageEvent s = e := by
  rwa [show ({ th with pc := pc } : Thread) = th by rw [← hpc]] at h

theorem stepThread_owner (h : stepThread ps o s t th = some (s', th')) :
    Keeping ps o s th s' := by
  cases stepThread_cases h with
  | idle hpc | createHeap hpc | enterWalk hpc | enterAcquire hpc | linkHeap hpc
  | unregisterSegment hpc | mapLarge hpc | dropLarge hpc | freeLocal hpc | freeDrained hpc
  | freeRemote hpc | exchange hpc | retry hpc | unmapLarge hpc | unlinkHeap hpc | unmapHeap hpc =>
      exact .same (pageEvent_of_pc hpc rfl) rfl
  | serve hpc _ _ hpop => exact .same (pageEvent_of_pc hpc rfl) (popDeliver_owner hpop t th _)
  | walkServe hpc _ hmake hpop =>
      refine .same (pageEvent_of_pc hpc rfl) ?_
      rw [popDeliver_owner hpop, heapRotateToFront_owner, pageMakeAvailable_owner hmake]
  | walkNext hpc hmake | walkEnd hpc hmake =>
      exact .same (pageEvent_of_pc hpc rfl) (pageMakeAvailable_owner hmake)
  | lock hpc havail =>
      exact .same (pageEvent_of_pc hpc (by simp [Thread.pageEvent, freshPage, havail])) rfl
  | acquire hpc _ hend =>
      obtain ⟨k, pg, hheap, hfresh, hown⟩ := hend.owner
      exact .take (pageEvent_of_pc hpc (by simp [Thread.pageEvent, hfresh])) hfresh hheap hown
  | sweepOn hpc hread hvisit | sweepDrop hpc hread hvisit =>
      have hnone : th.pageEvent s = none := pageEvent_of_pc hpc (by simp [Thread.pageEvent, hread])
      rcases sweepVisit_owner hvisit with hsame | hnull
      · exact .same hnone hsame
      · exact .reclaim hnone hpc hread hnull
  | sweepMap hpc _ havail =>
      exact .same (pageEvent_of_pc hpc (by simp [Thread.pageEvent, freshPage, havail])) rfl
  | sweepAcquire hpc hread _ hend =>
      obtain ⟨k, pg, hheap, hfresh, hown⟩ := hend.owner
      exact .take (pageEvent_of_pc hpc (by simp [Thread.pageEvent, hread, hfresh])) hfresh hheap
        hown
  | segmentRefused hpc =>
      refine .same (pageEvent_of_pc hpc rfl) ?_
      rw [failAlloc_page]
  | mapSegment hpc hmap =>
      exact .clear (pageEvent_of_pc hpc rfl) hpc hmap (initSegment_owner _ _)
  | registerSegment hpc _ hend =>
      obtain ⟨k, pg, hheap, hfresh, hown⟩ := hend.owner
      have hfresh' : freshPage s = some pg := hfresh
      exact .take (pageEvent_of_pc hpc (by simp [Thread.pageEvent, hfresh'])) hfresh' hheap hown
  | unmapSegment hpc hafter =>
      have hpage := stepAfter_page hafter
      exact .same (pageEvent_of_pc hpc rfl) (congrArg Pages.owner hpage)
  | largeRefused hpc =>
      refine .same (pageEvent_of_pc hpc rfl) ?_
      rw [failAlloc_page]
  | registerLarge hpc =>
      refine .same (pageEvent_of_pc hpc rfl) ?_
      rw [deliver_page]
  | release hpc hunlink hpool hafter =>
      obtain ⟨_, rfl⟩ := unlinkEmpty_shape hunlink
      have hback := centralReleasePage_owner hpool hafter
      exact .release (pageEvent_of_pc hpc rfl) hback
  | destroy hpc hcollect => exact .same (pageEvent_of_pc hpc rfl) (pageCollect_owner hcollect)
  | handRelease hpc hused hpool hafter =>
      exact .release (pageEvent_of_pc hpc (by simp [Thread.pageEvent, hused]))
        (centralReleasePage_owner hpool hafter)
  | handAbandon hpc hused hafter =>
      have hpage := stepAfter_page hafter
      exact .abandon (pageEvent_of_pc hpc (by simp [Thread.pageEvent, hused]))
        (congrArg Pages.owner hpage)

end Inversion

end HMalloc
