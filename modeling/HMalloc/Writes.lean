import HMalloc.Owners

/-!
Which pages a step writes. A step of a thread writes the fields of a few pages: the
page it works on, its neighbours in a class list when it is relinked, and the
pages of a segment that is new. `Writes` names them by program counter, and every
other page is as it was (`stepThread_untouched`), whatever the state is.
-/

namespace HMalloc

open Bytes Linked

/-- The fields of one `Page`. -/
structure PageRecord where
  free : Nat
  used : Nat
  capacity : Nat
  reserved : Nat
  blockSize : Nat
  sizeClass : Nat
  inUse : Bool
  owner : Owner
  next : Option PageId
  prev : Option PageId
  area : Nat
  threadFree : Nat

def Pages.record (page : Pages) (pg : PageId) : PageRecord where
  free := page.free pg
  used := page.used pg
  capacity := page.capacity pg
  reserved := page.reserved pg
  blockSize := page.blockSize pg
  sizeClass := page.sizeClass pg
  inUse := page.inUse pg
  owner := page.owner pg
  next := page.next pg
  prev := page.prev pg
  area := page.area pg
  threadFree := page.threadFree pg

/-- No field of page `q` has changed. -/
def Untouched (s s' : Store) (q : PageId) : Prop := s'.page.record q = s.page.record q

/-- The pages written when a fresh page becomes the head of class `c`. -/
def Thread.Enters (s : Store) (th : Thread) (c : Nat) (q : PageId) : Prop :=
  freshPage s = some q ∨ ∃ k, th.heap = some k ∧ q = s.slot k c ∧ q ≠ emptyPage

/-- The pages that the next step of a thread may write. -/
def Thread.Writes (ps : PageSize) (o : Oracle) (s : Store) (th : Thread) (q : PageId) : Prop :=
  match th.pc with
  | .small _ c => ∃ k, th.heap = some k ∧ q = s.slot k c ∧ s.page.free q ≠ 0
  | .walk _ c p => q = p ∨ ∃ k, th.heap = some k ∧ p ≠ s.slot k c ∧
      (s.page.prev p = some q ∨ s.page.next p = some q ∨ q = s.slot k c)
  | .acquire _ c | .registerSegment _ c _ => th.Enters s c q
  | .sweep _ c cur =>
      match cursorRead s cur with
      | some pg => q = pg ∨ cur = some q
      | none => th.Enters s c q
  | .mapSegment _ _ =>
      ∃ os, osAllocAligned ps o.mapping s.os segmentSize segmentSize .small = (some q.seg, os)
  | .free p _ => isLarge s.os.mem p = false ∧ q = pageOf p
  | .remote p _ _ => q = pageOf p
  | .release pg _ => q = pg ∨ s.page.prev pg = some q ∨ s.page.next pg = some q
  | .destroy _ p | .hand _ p _ => q = p
  | _ => False

section Operations

variable {s s' : Store} {pg q : PageId}

theorem Untouched.trans {s'' : Store} (h : Untouched s s' q) (h' : Untouched s' s'' q) :
    Untouched s s'' q := Eq.trans h' h

theorem untouched_of_page (h : s'.page = s.page) : Untouched s s' q := by
  unfold Untouched
  rw [h]

theorem pageCollect_untouched (h : pageCollect s pg = some s') (hq : q ≠ pg) :
    Untouched s s' q := by
  obtain ⟨mem, free, used, rfl⟩ := pageCollect_shape h
  simp [Untouched, Pages.record, hq]

theorem pageCollect_links (h : pageCollect s pg = some s') :
    s'.page.next = s.page.next ∧ s'.page.prev = s.page.prev ∧ s'.slot = s.slot := by
  obtain ⟨mem, free, used, rfl⟩ := pageCollect_shape h
  exact ⟨rfl, rfl, rfl⟩

/-- `page_make_available` writes its page, and no link. -/
theorem pageMakeAvailable_untouched {available : Bool}
    (h : pageMakeAvailable s pg = some (available, s')) :
    (∀ q, q ≠ pg → Untouched s s' q) ∧
      s'.page.next = s.page.next ∧ s'.page.prev = s.page.prev ∧ s'.slot = s.slot := by
  obtain ⟨mem, free, used, reserved, threadFree, rfl⟩ := pageMakeAvailable_shape h
  exact ⟨fun q hq => by simp [Untouched, Pages.record, hq], rfl, rfl, rfl⟩

theorem pagePop_untouched {b : Nat} (h : pagePop s pg = some (b, s')) (hq : q ≠ pg) :
    Untouched s s' q := by
  obtain ⟨_, _, rfl⟩ := pagePop_shape h
  simp [Untouched, Pages.record, hq]

/-- Unlinking a page writes its neighbours. -/
theorem unlinkNeighbours_untouched (page : Pages) {p : PageId} (hprev : page.prev p ≠ some q)
    (hnext : page.next p ≠ some q) : (unlinkNeighbours page p).record q = page.record q := by
  simp [Pages.record, unlinkNeighbours, assign_apply, hprev, hnext]

/-- Putting a page in front of a list writes it and the head. -/
theorem linkFront_untouched (page : Pages) {p : PageId} {head : Option PageId} (hp : q ≠ p)
    (hhead : head ≠ some q) : (linkFront page p head).record q = page.record q := by
  simp [Pages.record, linkFront, assign_apply, hp, hhead]

theorem heapRotateToFront_untouched (s : Store) {k c : Nat} {p : PageId} (hp : q ≠ p)
    (hrest : p ≠ s.slot k c → s.page.prev p ≠ some q ∧ s.page.next p ≠ some q ∧ q ≠ s.slot k c) :
    Untouched s (heapRotateToFront s k c p) q := by
  unfold heapRotateToFront Untouched
  dsimp only
  split
  · rfl
  · rename_i hne
    obtain ⟨hprev, hnext, hslot⟩ := hrest hne
    exact (linkFront_untouched _ hp (fun heq => hslot (Option.some.inj heq).symm)).trans
      (unlinkNeighbours_untouched _ hprev hnext)

theorem poolReturn_untouched {dead : Option Nat} (h : poolReturn s pg = some (s', dead))
    (hq : q ≠ pg) : Untouched s s' q := by
  obtain ⟨seg, central, rfl⟩ := poolReturn_shape h
  simp [Untouched, Pages.record, poolPush, hq]

theorem sweepVisit_untouched {cur : Option PageId} {next : SweepNext}
    (h : sweepVisit s cur pg = some (s', next)) (hq : q ≠ pg) (hcur : cur ≠ some q) :
    Untouched s s' q := by
  obtain ⟨s₁, hcollect, ⟨_, dead, _, hpool⟩ | ⟨_, rfl, _⟩⟩ := sweepVisit_cases h
  · have hwrite : Untouched s₁ (cursorWrite s₁ cur (s₁.page.next pg)) q := by
      simp [Untouched, Pages.record, cursorWrite, assign_apply, hcur]
    have hreturn := poolReturn_untouched hpool hq
    exact (pageCollect_untouched hcollect hq).trans (hwrite.trans hreturn)
  · exact pageCollect_untouched hcollect hq

theorem takePage_untouched {k cls blockSize : Nat} (h : takePage s k cls blockSize = some (pg, s'))
    (hq : q ≠ pg) : Untouched s s' q ∧ s'.slot = s.slot := by
  obtain ⟨b, seg, central, _, _, rfl⟩ := takePage_shape h
  exact ⟨by simp [Untouched, Pages.record, setUpPage, hq], rfl⟩

theorem initSegment_untouched (s : Store) {b : Nat} (hq : q.seg ≠ b) :
    Untouched s (initSegment s b) q := by
  have hne : ∀ i, q ≠ ⟨b, i⟩ := fun i heq => hq (congrArg PageId.seg heq)
  have hpages : ∀ n i s', Untouched s' (initPages b n i s') q := by
    intro n
    induction n with
    | zero => exact fun _ _ => rfl
    | succ n ih =>
        intro i s'
        refine Untouched.trans ?_ (ih (i + 1) _)
        simp [Untouched, Pages.record, hne i]
  have hzero : Untouched s (zeroSegment s b) q := by
    simp [Untouched, Pages.record, zeroSegment, hq]
  refine (hzero.trans (hpages usablePagesPerSegment firstUsablePage _)).trans (untouched_of_page ?_)
  unfold initSegment availPush
  rfl

variable {t : Nat} {th th' : Thread} {r : Request}

/-- A popped block is delivered. -/
theorem popDeliver_untouched {b : Nat} {s₁ : Store} (hpop : pagePop s pg = some (b, s₁))
    (hq : q ≠ pg) (t : Nat) (th : Thread) (r : Request) :
    Untouched s (deliverBlock s₁ t th r pg b).1 q :=
  (pagePop_untouched hpop hq).trans (untouched_of_page (deliver_page s₁ t th r b _ _))

/-- A fresh page becomes the head of its class. -/
theorem takeLink_untouched {k c : Nat} {np : PageId} {s₁ : Store}
    (htake : takePage s k c (classToSize c) = some (np, s₁)) (hheap : th.heap = some k)
    (hq : ¬ th.Enters s c q) :
    q ≠ np ∧ Untouched s (linkFresh { s₁ with central := { s₁.central with mtx := none } } k c np)
      q := by
  simp only [Thread.Enters, not_or, not_exists, not_and, not_not] at hq
  obtain ⟨hfresh, hslot⟩ := hq
  have hnp : q ≠ np := by
    rintro rfl
    exact hfresh (takePage_owner htake).1
  obtain ⟨htaken, hkept⟩ := takePage_untouched htake hnp
  refine ⟨hnp, htaken.trans (linkFront_untouched _ hnp (fun hhead => ?_))⟩
  split at hhead
  · rename_i hne
    have heq : s₁.slot k c = q := Option.some.inj hhead
    have hempty := hslot k hheap (heq.symm.trans (congrFun (congrFun hkept k) c))
    exact hne (heq.trans hempty)
  · cases hhead

theorem AcquireEnd.untouched {c : Nat} (h : AcquireEnd s t th r c s' th')
    (hq : ¬ th.Enters s c q) : Untouched s s' q := by
  cases h with
  | served hheap htake hmake hpop =>
      obtain ⟨hnp, hlink⟩ := takeLink_untouched htake hheap hq
      exact hlink.trans (((pageMakeAvailable_untouched hmake).1 q hnp).trans
        (popDeliver_untouched hpop hnp t th r))
  | failed hheap htake hmake =>
      obtain ⟨hnp, hlink⟩ := takeLink_untouched htake hheap hq
      exact hlink.trans (((pageMakeAvailable_untouched hmake).1 q hnp).trans
        (untouched_of_page (failAlloc_page _ th r)))

/-- A page that has left its class list is released to the pool. -/
theorem centralReleasePage_untouched {dead : Option Nat} {s₁ : Store} {after : After}
    (hpool : centralReleasePage s pg = some (s₁, dead))
    (h : afterPool s₁ t th dead after = some (s', th')) (hq : q ≠ pg) : Untouched s s' q := by
  have hreturn := poolReturn_untouched (show poolReturn _ pg = _ from hpool) hq
  exact Untouched.trans hreturn (untouched_of_page (afterPool_page h))

end Operations

/-- A step writes no other pages. -/
theorem stepThread_untouched {ps : PageSize} {o : Oracle} {s s' : Store} {t : Nat} {th th' : Thread}
    {q : PageId} (h : stepThread ps o s t th = some (s', th')) (hq : ¬ th.Writes ps o s q) :
    Untouched s s' q := by
  unfold Thread.Writes at hq
  cases stepThread_cases h with
  | idle | createHeap | enterWalk | enterAcquire | linkHeap | lock | sweepMap | unregisterSegment
  | mapLarge | dropLarge | freeRemote | retry | unmapLarge | unlinkHeap | unmapHeap => rfl
  | @serve r c k b s₁ hpc hheap hfree hpop =>
      rw [hpc] at hq
      refine popDeliver_untouched hpop (fun heq => hq ?_) t th r
      exact ⟨k, hheap, heq, heq ▸ hfree⟩
  | @walkServe r c k b p s₁ s₂ hpc hheap hmake hpop =>
      rw [hpc] at hq
      simp only [not_or, not_exists, not_and] at hq
      obtain ⟨hp, hrest⟩ := hq
      obtain ⟨hmade, hnext, hprev, hslot⟩ := pageMakeAvailable_untouched hmake
      refine (hmade q hp).trans ((heapRotateToFront_untouched s₁ hp ?_).trans
        (popDeliver_untouched hpop hp t th r))
      rw [hslot, hnext, hprev]
      exact fun hne => hrest k hheap hne
  | walkNext hpc hmake | walkEnd hpc hmake =>
      rw [hpc] at hq
      exact (pageMakeAvailable_untouched hmake).1 q (fun heq => hq (Or.inl heq))
  | acquire hpc _ hend =>
      rw [hpc] at hq
      exact hend.untouched hq
  | sweepOn hpc hread hvisit | sweepDrop hpc hread hvisit =>
      rw [hpc] at hq
      simp only [hread, not_or] at hq
      exact sweepVisit_untouched hvisit hq.1 hq.2
  | sweepAcquire hpc hread _ hend =>
      rw [hpc] at hq
      simp only [hread] at hq
      exact hend.untouched hq
  | segmentRefused => exact untouched_of_page (failAlloc_page _ th _)
  | @mapSegment r c b os hpc hmap =>
      rw [hpc] at hq
      refine initSegment_untouched { s with os := os } (fun hseg => hq ⟨os, ?_⟩)
      rw [hseg]
      exact hmap
  | registerSegment hpc _ hend =>
      rw [hpc] at hq
      have hstep := hend.untouched hq
      exact hstep
  | unmapSegment _ hafter =>
      have hpage := stepAfter_page hafter
      exact untouched_of_page hpage
  | largeRefused => exact untouched_of_page (failAlloc_page _ th _)
  | registerLarge => exact untouched_of_page (deliver_page ..)
  | freeLocal hpc hsmall | freeDrained hpc hsmall =>
      rw [hpc] at hq
      have hp : q ≠ pageOf _ := fun heq => hq ⟨hsmall, heq⟩
      simp [Untouched, Pages.record, pushLocal, finishFree, hp]
  | exchange hpc =>
      rw [hpc] at hq
      have hp : q ≠ pageOf _ := hq
      simp [Untouched, Pages.record, finishFree, hp]
  | release hpc hunlink hpool hafter =>
      rw [hpc] at hq
      simp only [not_or] at hq
      obtain ⟨hp, hprev, hnext⟩ := hq
      obtain ⟨_, rfl⟩ := unlinkEmpty_shape hunlink
      have hunlinked : Untouched s { s with page := unlinkNeighbours s.page _ } q :=
        unlinkNeighbours_untouched s.page hprev hnext
      exact hunlinked.trans (centralReleasePage_untouched hpool hafter hp)
  | destroy hpc hcollect =>
      rw [hpc] at hq
      exact pageCollect_untouched hcollect hq
  | handRelease hpc _ hpool hafter =>
      rw [hpc] at hq
      exact centralReleasePage_untouched hpool hafter hq
  | @handAbandon c p next _ _ hpc _ hafter =>
      rw [hpc] at hq
      have hp : q ≠ p := hq
      have habandon : Untouched s (centralAbandonPage s p) q := by
        simp [Untouched, Pages.record, centralAbandonPage, hp]
      exact habandon.trans (untouched_of_page (stepAfter_page hafter))

end HMalloc
