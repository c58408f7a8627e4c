import HMalloc.BlockWrites

/-!
What a step does to the lists of blocks freed by other threads. A block stays on the
`thread_free` list of its page until the list is exchanged for null: no other step
changes the head of the list or a link of it. A block that is freed is on the local
list of the thread's own page, or on the `thread_free` list.
-/

namespace HMalloc

open Bytes Linked

/-- The head of the page's `thread_free` list and the size of its blocks are the same. -/
def SameList (s s' : Store) (q : PageId) : Prop :=
  s'.page.threadFree q = s.page.threadFree q ∧ s'.page.blockSize q = s.page.blockSize q

/-- What a step does to the list of one page. -/
inductive ListStep (ps : PageSize) (o : Oracle) (s : Store) (th : Thread) (s' : Store)
    (q : PageId) : Prop where
  | kept (hnot : th.collects s ≠ some q) (h : SameList s s' q)
  | collected (hcollect : th.collects s = some q) (h : s'.page.threadFree q = 0)
  | taken (hevent : th.pageEvent s = some (.take q)) (h : s'.page.threadFree q = 0)
  | released (hevent : th.pageEvent s = some (.release q))
  | pushed {p head result : Nat} (hpc : th.pc = .remote p head result) (hq : q = pageOf p)
      (hnow : s.page.threadFree q = head) (hstrong : o.spurious = false)
      (h : s'.page.threadFree q = p) (hsize : s'.page.blockSize q = s.page.blockSize q)
      (hmem : s'.os.mem = s.os.mem)
  | made {r : Request} {c : Nat} {os : Os} (hpc : th.pc = .mapSegment r c)
      (hmap : osAllocAligned ps o.mapping s.os segmentSize segmentSize .small =
        (some q.seg, os)) (h : s'.page.threadFree q = 0)

section ListSteps

variable {ps : PageSize} {o : Oracle} {s s' : Store} {t : Nat} {th th' : Thread} {q pg : PageId}

theorem SameList.of_page (h : s'.page = s.page) : SameList s s' q := by
  rw [SameList, h]
  exact ⟨rfl, rfl⟩

theorem SameList.trans {s'' : Store} (h : SameList s s' q) (h' : SameList s' s'' q) :
    SameList s s'' q :=
  ⟨h'.1.trans h.1, h'.2.trans h.2⟩

theorem pageCollect_lists (h : pageCollect s pg = some s') :
    s'.page.threadFree pg = 0 ∧ (q ≠ pg → SameList s s' q) := by
  obtain ⟨mem, free, used, rfl⟩ := pageCollect_shape h
  exact ⟨Function.update_self .., fun hq => ⟨Function.update_of_ne hq .., rfl⟩⟩

theorem pageMakeAvailable_lists {available : Bool}
    (h : pageMakeAvailable s pg = some (available, s')) :
    (s.page.free pg ≠ 0 ∧ s' = s) ∨
      s.page.free pg = 0 ∧ s'.page.threadFree pg = 0 ∧ ∀ q, q ≠ pg → SameList s s' q := by
  by_cases hfree : s.page.free pg = 0
  · right
    unfold pageMakeAvailable at h
    rw [if_neg (not_not.mpr hfree)] at h
    simp only [Option.bind_eq_bind, Option.bind_eq_some_iff] at h
    obtain ⟨s₁, hcollect, h⟩ := h
    have hpage : s'.page.threadFree = s₁.page.threadFree ∧
        s'.page.blockSize = s₁.page.blockSize := by
      split at h
      · cases h
        exact ⟨rfl, rfl⟩
      · split at h
        · cases h
          obtain ⟨_, _, _, heq⟩ := pageExtend_shape s₁ pg
          rw [heq]
          exact ⟨rfl, rfl⟩
        · cases h
          exact ⟨rfl, rfl⟩
    refine ⟨hfree, (congrFun hpage.1 pg).trans (pageCollect_lists (q := pg) hcollect).1, ?_⟩
    intro q hq
    exact ((pageCollect_lists hcollect).2 hq).trans
      ⟨congrFun hpage.1 q, congrFun hpage.2 q⟩
  · exact Or.inl ⟨hfree, pageMakeAvailable_ready hfree h⟩

theorem popDeliver_lists {b : Nat} {s₁ : Store} (hpop : pagePop s pg = some (b, s₁)) (t : Nat)
    (th : Thread) (r : Request) : SameList s (deliverBlock s₁ t th r pg b).1 q := by
  have hpopped : SameList s s₁ q := by
    obtain ⟨_, _, rfl⟩ := pagePop_shape hpop
    exact ⟨rfl, rfl⟩
  exact hpopped.trans (SameList.of_page (deliver_page s₁ t th r b _ _))

theorem AcquireEnd.lists {r : Request} {c : Nat} (h : AcquireEnd s t th r c s' th') :
    ∃ np, freshPage s = some np ∧ s'.page.threadFree np = 0 ∧ ∀ q, q ≠ np → SameList s s' q := by
  have hmade : ∀ {k np s₁ s₂ available}, takePage s k c (classToSize c) = some (np, s₁) →
      pageMakeAvailable (linkFresh { s₁ with central := { s₁.central with mtx := none } } k c np)
        np = some (available, s₂) → freshPage s = some np ∧ s₂.page.threadFree np = 0 ∧
          ∀ q, q ≠ np → SameList s s₂ q := by
    intro k np s₁ s₂ available htake hmake
    refine ⟨(takePage_owner htake).1, ?_⟩
    obtain ⟨b, seg, central, _, _, rfl⟩ := takePage_shape htake
    have htaken : ∀ q, q ≠ np → SameList s (linkFresh { setUpPage { s with
        seg := seg, central := central } np k c (classToSize c) with
          central := { central with mtx := none } } k c np) q :=
      fun q hq => ⟨Function.update_of_ne hq .., Function.update_of_ne hq ..⟩
    rcases pageMakeAvailable_lists hmake with ⟨_, rfl⟩ | ⟨_, hzero, hrest⟩
    · exact ⟨Function.update_self .., htaken⟩
    · exact ⟨hzero, fun q hq => (htaken q hq).trans (hrest q hq)⟩
  cases h with
  | @served k b np s₁ s₂ s₃ hheap htake hmake hpop =>
      obtain ⟨hfresh, hzero, hrest⟩ := hmade htake hmake
      have hpopped : ∀ q, SameList s₂ (deliverBlock s₃ t th r np b).1 q :=
        fun q => popDeliver_lists hpop t th r
      exact ⟨np, hfresh, (hpopped np).1.trans hzero, fun q hq => (hrest q hq).trans (hpopped q)⟩
  | @failed k np s₁ s₂ hheap htake hmake =>
      obtain ⟨hfresh, hzero, hrest⟩ := hmade htake hmake
      have hfailed : ∀ q, SameList s₂ (failAlloc s₂ th r).1 q :=
        fun q => SameList.of_page (failAlloc_page s₂ th r)
      exact ⟨np, hfresh, (hfailed np).1.trans hzero, fun q hq => (hrest q hq).trans (hfailed q)⟩

theorem centralReleasePage_lists {dead : Option Nat} {s₁ : Store} {after : After}
    (hpool : centralReleasePage s pg = some (s₁, dead))
    (h : afterPool s₁ t th dead after = some (s', th')) (hq : q ≠ pg) : SameList s s' q := by
  have huntouched := centralReleasePage_untouched hpool h hq
  exact ⟨congrArg PageRecord.threadFree huntouched, congrArg PageRecord.blockSize huntouched⟩

theorem sweepVisit_lists {cur : Option PageId} {next : SweepNext}
    (h : sweepVisit s cur pg = some (s', next)) :
    s'.page.threadFree pg = 0 ∧ (q ≠ pg → SameList s s' q) := by
  obtain ⟨s₁, hcollect, ⟨_, dead, _, hpool⟩ | ⟨_, rfl, _⟩⟩ := sweepVisit_cases h
  · obtain ⟨hzero, hrest⟩ := pageCollect_lists (q := q) hcollect
    have hmore : s'.page.threadFree = s₁.page.threadFree ∧
        (q ≠ pg → s'.page.blockSize q = s₁.page.blockSize q) := by
      obtain ⟨seg, central, rfl⟩ := poolReturn_shape hpool
      exact ⟨rfl, fun hq => Function.update_of_ne hq ..⟩
    exact ⟨(congrFun hmore.1 pg).trans hzero,
      fun hq => (hrest hq).trans ⟨congrFun hmore.1 q, hmore.2 hq⟩⟩
  · exact pageCollect_lists hcollect

/-- The lists after a page has been taken. -/
theorem ListStep.of_acquire {s₀ : Store} {r : Request} {c : Nat}
    (hend : AcquireEnd s₀ t th r c s' th') (hpage : s₀.page = s.page)
    (hfresh : freshPage s₀ = freshPage s) (hnone : th.collects s = none)
    (hevent : th.pageEvent s = (freshPage s).map .take) : ListStep ps o s th s' q := by
  obtain ⟨np, hnp, hzero, hrest⟩ := hend.lists
  by_cases hq : q = np
  · subst hq
    refine .taken ?_ hzero
    rw [hevent, ← hfresh, hnp]
    rfl
  · exact .kept (by simp [hnone]) ((SameList.of_page hpage).trans (hrest q hq))

/-- The lists after a walk has made a page available. -/
theorem ListStep.of_walk {r : Request} {c : Nat} {p : PageId} {available : Bool} {s₁ : Store}
    (hpc : th.pc = .walk r c p) (hmake : pageMakeAvailable s p = some (available, s₁))
    (hrest : SameList s₁ s' q) : ListStep ps o s th s' q := by
  rcases pageMakeAvailable_lists hmake with ⟨hfree, rfl⟩ | ⟨hfree, hzero, hothers⟩
  · exact .kept (by simp [Thread.collects, hpc, hfree]) hrest
  · by_cases hq : q = p
    · subst hq
      exact .collected (by simp [Thread.collects, hpc, hfree]) (hrest.1.trans hzero)
    · refine .kept ?_ ((hothers q hq).trans hrest)
      simpa [Thread.collects, hpc, hfree] using Ne.symm hq

theorem initSegment_lists (s : Store) {b : Nat} (hq : q.seg = b) :
    (initSegment s b).page.threadFree q = 0 := by
  have hpages : ∀ n i s', (initPages b n i s').page.threadFree = s'.page.threadFree := by
    intro n
    induction n with
    | zero => exact fun _ _ => rfl
    | succ n ih => exact fun i s' => ih (i + 1) _
  have hcolumn : (initSegment s b).page.threadFree = (zeroSegment s b).page.threadFree :=
    hpages usablePagesPerSegment firstUsablePage (zeroSegment s b)
  rw [hcolumn]
  exact if_pos hq

/-- Every step is of one of these kinds. -/
theorem stepThread_lists (h : stepThread ps o s t th = some (s', th')) :
    ListStep ps o s th s' q := by
  have hnot : ∀ {pc}, th.pc = pc → ({ th with pc := pc } : Thread).collects s = none →
      th.collects s ≠ some q := by
    rintro pc rfl hnone
    rw [show th.collects s = none from hnone]
    simp
  cases stepThread_cases h with
  | idle hpc | createHeap hpc | enterWalk hpc | enterAcquire hpc | linkHeap hpc | lock hpc
  | unregisterSegment hpc | mapLarge hpc | dropLarge hpc | freeLocal hpc | freeDrained hpc
  | freeRemote hpc | retry hpc | unmapLarge hpc | unlinkHeap hpc | unmapHeap hpc =>
      exact .kept (hnot hpc rfl) ⟨rfl, rfl⟩
  | serve hpc _ _ hpop => exact .kept (hnot hpc rfl) (popDeliver_lists hpop t th _)
  | @walkServe r c k b p s₁ s₂ hpc hheap hmake hpop =>
      obtain ⟨next, prev, slot, hrotate, _⟩ := heapRotateToFront_shape s₁ k c p
      rw [hrotate] at hpop
      have hpopped : SameList _ (deliverBlock s₂ t th r p b).1 q := popDeliver_lists hpop t th r
      exact .of_walk hpc hmake hpopped
  | walkNext hpc hmake | walkEnd hpc hmake => exact .of_walk hpc hmake ⟨rfl, rfl⟩
  | acquire hpc havail hend =>
      exact .of_acquire hend rfl rfl (by simp [Thread.collects, hpc])
        (by simp [Thread.pageEvent, hpc])
  | @sweepOn _ _ _ pg _ _ hpc hread hvisit | @sweepDrop _ _ _ _ pg _ _ hpc hread hvisit =>
      obtain ⟨hzero, hrest⟩ := sweepVisit_lists (q := q) hvisit
      by_cases hq : q = pg
      · subst hq
        exact .collected (by simp [Thread.collects, hpc, hread]) hzero
      · exact .kept (by simpa [Thread.collects, hpc, hread] using Ne.symm hq) (hrest hq)
  | sweepMap hpc hread havail =>
      exact .kept (by simp [Thread.collects, hpc, hread]) ⟨rfl, rfl⟩
  | sweepAcquire hpc hread havail hend =>
      exact .of_acquire hend rfl rfl (by simp [Thread.collects, hpc, hread])
        (by simp [Thread.pageEvent, hpc, hread])
  | segmentRefused hpc hmap => exact .kept (hnot hpc rfl) (SameList.of_page (failAlloc_page ..))
  | @mapSegment r c b os hpc hmap =>
      by_cases hq : q.seg = b
      · exact .made hpc (hq ▸ hmap) (initSegment_lists _ hq)
      · have huntouched := initSegment_untouched { s with os := os } hq
        exact .kept (hnot hpc rfl)
          ⟨congrArg PageRecord.threadFree huntouched, congrArg PageRecord.blockSize huntouched⟩
  | registerSegment hpc hreg hend =>
      exact .of_acquire hend rfl rfl (by simp [Thread.collects, hpc])
        (by simp [Thread.pageEvent, hpc])
  | unmapSegment hpc hafter =>
      have hpage := stepAfter_page hafter
      exact .kept (hnot hpc rfl) (SameList.of_page hpage)
  | largeRefused hpc hmap => exact .kept (hnot hpc rfl) (SameList.of_page (failAlloc_page ..))
  | registerLarge hpc => exact .kept (hnot hpc rfl) (SameList.of_page (deliver_page ..))
  | @exchange p head result hpc hnow hstrong =>
      by_cases hq : q = pageOf p
      · exact .pushed hpc hq (hq ▸ hnow) hstrong (hq ▸ Function.update_self ..) rfl rfl
      · exact .kept (hnot hpc rfl) ⟨Function.update_of_ne hq .., rfl⟩
  | @release pg _ _ _ _ _ _ hpc hunlink hpool hafter =>
      obtain ⟨_, rfl⟩ := unlinkEmpty_shape hunlink
      by_cases hq : q = pg
      · subst hq
        exact .released (by simp [Thread.pageEvent, hpc])
      · have hreleased := centralReleasePage_lists hpool hafter hq
        exact .kept (hnot hpc rfl) hreleased
  | @destroy c p _ hpc hcollect =>
      obtain ⟨hzero, hrest⟩ := pageCollect_lists (q := q) hcollect
      by_cases hq : q = p
      · subst hq
        exact .collected (by simp [Thread.collects, hpc]) hzero
      · exact .kept (by simpa [Thread.collects, hpc] using Ne.symm hq) (hrest hq)
  | @handRelease c p _ _ _ _ _ hpc hused hpool hafter =>
      by_cases hq : q = p
      · subst hq
        exact .released (by simp [Thread.pageEvent, hpc, hused])
      · exact .kept (hnot hpc rfl) (centralReleasePage_lists hpool hafter hq)
  | handAbandon hpc hused hafter =>
      have hpage : SameList (centralAbandonPage s _) s' q :=
        SameList.of_page (stepAfter_page hafter)
      exact .kept (hnot hpc rfl) hpage

end ListSteps

section Waiting

variable {ps : PageSize} {sys : System} {G G' : Ghost} {t : Nat} {o : Oracle} {s' : Store}
  {th' : Thread} {q : PageId} {x : Nat}

/-- A page that is released has no blocks. -/
theorem OwnStep.released (hown : OwnStep ps t sys G o s' th' G') (hinv : SysInv ps sys G)
    (hlisted : OwnersListed sys.store)
    (hevent : (sys.threads t).pageEvent sys.store = some (.release q)) :
    s'.page.owner q = .null ∧ ¬ sys.store.Waits q x := by
  cases (stepThread_owner hown.run).passing hinv.data (hinv.threads t) hown.ok hlisted q with
  | take _ hevent' | abandon _ hevent' => cases hevent.symm.trans hevent'
  | rest hrest => exact absurd rfl (hrest _ hevent)
  | @release k _ _ hused hold hnew =>
      refine ⟨hnew, fun hwaits => ?_⟩
      have hq := hlisted q (by simp [hold])
      obtain ⟨b, hb, _⟩ := (hinv.data.inv.waits_iff hq).mp hwaits
      have hin := hinv.data.inv.page_inService hq (Or.inr (Or.inl hb))
      have hcount := hin.used
      have hpos := List.length_pos_of_mem hb
      change sys.store.page.used q = _ at hcount
      omega

/-- The blocks on a list that is not collected stay as they are. -/
theorem OwnStep.waits_same (hown : OwnStep ps t sys G o s' th' G') (hinv : SysInv ps sys G)
    (hq : IsPage (IsSegment sys.store.os.regions) q)
    (hnot : (sys.threads t).collects sys.store ≠ some q) (hx : sys.store.Waits q x) :
    s'.os.mem x = sys.store.os.mem x := by
  have hdata := hinv.data.inv
  have hspans := hdata.waits_spans hq hx
  by_contra hne
  cases hown.written hinv (hq.inRegion hspans) hne with
  | @block p g hg _ hlo hhi => exact hdata.waits_not_taken hq hx ⟨p, g, hg, hlo, hhi⟩
  | page hq' hx' _ _ hlist =>
      obtain rfl := hdata.spans_unique hq hq' hspans hx'
      exact hnot (hlist hx)

/-- The blocks that wait after a push. -/
theorem SysInv.waits_pushed (hinv : SysInv ps sys G) {p head result : Nat} {g : Grant}
    (hpc : (sys.threads t).pc = .remote p head result) (hg : sys.store.grants p = some g)
    (hnow : sys.store.page.threadFree (pageOf p) = head)
    (h : s'.page.threadFree (pageOf p) = p)
    (hsize : s'.page.blockSize (pageOf p) = sys.store.page.blockSize (pageOf p))
    (hmem : s'.os.mem = sys.store.os.mem) :
    s'.Waits (pageOf p) x ↔ p ≤ x ∧ x < p + g.usable ∨ sys.store.Waits (pageOf p) x := by
  have hdata := hinv.data.inv
  obtain ⟨hlink, g', pg, i, hg', ho⟩ := (hinv.threads t).pointers_at hpc
  cases hg.symm.trans hg'
  have hgrant := hdata.smallGrant hg ho
  obtain rfl := (hdata.decode_small hg ho).2.2
  have hchain : Chain (link s'.os.mem) (ptr (s'.page.threadFree (pageOf p)))
      (p :: (G.page (pageOf p)).remote) := by
    rw [h, hmem]
    refine chain_cons.mpr ⟨ptr_of_ne (hdata.grant_ne_zero hg), ?_⟩
    rw [link, hlink, ← hnow]
    exact hdata.remote_chain hgrant.page
  rw [hdata.waits_iff hgrant.page, hgrant.usable, ← hsize]
  constructor
  · rintro ⟨l, hl, b, hb, hx⟩
    rw [hl.unique hchain] at hb
    rcases List.mem_cons.mp hb with rfl | hb
    · exact Or.inl hx
    · exact Or.inr ⟨b, hb, hx⟩
  · rintro (hx | ⟨b, hb, hx⟩)
    · exact ⟨_, hchain, p, List.mem_cons_self, hx⟩
    · exact ⟨_, hchain, b, List.mem_cons_of_mem _ hb, hx⟩

/-- A block that waits after a step has waited before, or thread `t` has pushed it. -/
theorem OwnStep.waits_before (hown : OwnStep ps t sys G o s' th' G') (hinv : SysInv ps sys G)
    (hlisted : OwnersListed sys.store) (hq' : IsPage (IsSegment s'.os.regions) q)
    (hx : s'.Waits q x) : IsPage (IsSegment sys.store.os.regions) q ∧
      (sys.store.Waits q x ∧ (sys.threads t).collects sys.store ≠ some q ∨
        (sys.threads t).pushes o sys.store = some q ∧ s'.os.mem = sys.store.os.mem ∧
          ∃ p g, sys.store.grants p = some g ∧ g.holder = .freeing t ∧ p ≤ x ∧
            x < p + g.usable) := by
  have hdata' := hown.outcome.data
  have howner : s'.page.owner q ≠ .null :=
    fun hnull => hdata'.inv.pool_not_waits hdata'.limbo hq' hnull hx
  have hq := ((stepThread_owner hown.run).listed hinv.data (hinv.threads t) hlisted howner).1
  refine ⟨hq, ?_⟩
  cases stepThread_lists (q := q) hown.run with
  | kept hnot hsame =>
      have hwaits : s'.Waits q x ↔ sys.store.Waits q x :=
        hinv.data.inv.waits_congr hq hsame.1 hsame.2 fun y hy => hown.waits_same hinv hq hnot hy
      exact Or.inl ⟨hwaits.mp hx, hnot⟩
  | collected _ hzero | taken _ hzero | made _ _ hzero => exact absurd hx (Store.not_waits hzero)
  | released hevent => exact absurd (hown.released (x := x) hinv hlisted hevent).1 howner
  | @pushed p head result hpc hpage hnow hstrong h hsize hmem =>
      subst hpage
      obtain ⟨g, hg, hholder⟩ :=
        ((hinv.threads t).holders p (.freeing t) rfl).mpr (by rw [hpc]; rfl)
      rcases (hinv.waits_pushed hpc hg hnow h hsize hmem).mp hx with hin | hold
      · refine Or.inr ⟨?_, hmem, p, g, hg, hholder, hin⟩
        simp [Thread.pushes, hpc, hnow, hstrong]
      · exact Or.inl ⟨hold, by simp [Thread.collects, hpc]⟩

/-- A block waits until its list is collected. -/
theorem OwnStep.waits_after (hown : OwnStep ps t sys G o s' th' G') (hinv : SysInv ps sys G)
    (hlisted : OwnersListed sys.store) (hq : IsPage (IsSegment sys.store.os.regions) q)
    (hx : sys.store.Waits q x) (hnot : (sys.threads t).collects sys.store ≠ some q) :
    s'.Waits q x := by
  have hdata := hinv.data.inv
  cases stepThread_lists (q := q) hown.run with
  | kept _ hsame =>
      exact (hdata.waits_congr hq hsame.1 hsame.2
        fun y hy => hown.waits_same hinv hq hnot hy).mpr hx
  | collected hcollect => exact absurd hcollect hnot
  | taken hevent =>
      cases (stepThread_owner hown.run).passing hinv.data (hinv.threads t) hown.ok hlisted q with
      | take _ _ hold => exact absurd hx (hdata.pool_not_waits hinv.data.limbo hq hold)
      | release _ hevent' | abandon _ hevent' => cases hevent.symm.trans hevent'
      | rest hrest => exact absurd rfl (hrest _ hevent)
  | released hevent => exact absurd hx (hown.released hinv hlisted hevent).2
  | @pushed p head result hpc hpage hnow hstrong h hsize hmem =>
      subst hpage
      obtain ⟨g, hg, _⟩ := ((hinv.threads t).holders p (.freeing t) rfl).mpr (by rw [hpc]; rfl)
      exact (hinv.waits_pushed hpc hg hnow h hsize hmem).mpr (Or.inr hx)
  | made hpc hmap =>
      have hok := hown.ok
      unfold StepOk at hok
      rw [hpc] at hok
      have hm := osAllocAligned_mapped hok (by decide) (by decide) hmap
      have hpos := hm.size_pos
      have hmapped := hdata.regions.mapped _ _ hq.1 q.seg (Nat.le_refl _)
        (Nat.lt_add_of_pos_right hpos)
      rw [hm.fresh q.seg (Nat.le_refl _) (Nat.lt_add_of_pos_right hpos)] at hmapped
      cases hmapped

/-- A block of a page that thread `t` frees goes to the local list of its own heap, or
to the `thread_free` list of the page. -/
theorem OwnStep.freed (hown : OwnStep ps t sys G o s' th' G') (hinv : SysInv ps sys G)
    {p i : Nat} {g : Grant} (hg : sys.store.grants p = some g) (ho : g.origin = .small q i)
    (hnone : s'.grants p = none) : g.holder = .freeing t ∧
      ((∃ k, (sys.threads t).heap = some k ∧ sys.store.page.owner q = .heap k ∧
          s'.page.owner q = .heap k) ∨
        ∀ x, p ≤ x → x < p + g.usable → s'.Waits q x) := by
  have hdata := hinv.data.inv
  have hholder : g.holder = .freeing t := by
    by_contra hne
    obtain ⟨g', hg'⟩ := hown.outcome.frame.kept p g hg hne
    cases hnone.symm.trans hg'
  have hfreeing : (sys.threads t).pc.freeing = some p :=
    ((hinv.threads t).holders p (.freeing t) rfl).mp ⟨g, hg, hholder⟩
  have hpage := (hdata.decode_small hg ho).2.2
  refine ⟨hholder, ?_⟩
  have hlocal : sys.store.page.owner (pageOf p) = Owner.ofHeap (sys.threads t).heap →
      ∃ k, (sys.threads t).heap = some k ∧ sys.store.page.owner q = .heap k := by
    intro howner
    rw [hpage] at howner
    cases hheap : (sys.threads t).heap with
    | none =>
        rw [hheap] at howner
        rcases hdata.owner_of_grant hg ho with ⟨k, c, _, howned, _⟩ | howned
        · cases howner.symm.trans howned
        · cases howner.symm.trans howned
    | some k => exact ⟨k, rfl, by rw [howner, hheap]; rfl⟩
  cases stepThread_cases hown.run with
  | freeLocal hpc _ howner | freeDrained hpc _ howner =>
      rw [hpc] at hfreeing
      cases hfreeing
      obtain ⟨k, hheap, hheld⟩ := hlocal howner
      exact Or.inl ⟨k, hheap, hheld, hheld⟩
  | exchange hpc hnow =>
      rw [hpc] at hfreeing
      cases hfreeing
      refine Or.inr fun x hlo hhi => ?_
      rw [← hpage]
      refine Iff.mpr (hinv.waits_pushed hpc hg hnow ?_ rfl rfl) (Or.inl ⟨hlo, hhi⟩)
      exact Function.update_self ..
  | unmapLarge hpc =>
      rw [hpc] at hfreeing
      cases hfreeing
      obtain ⟨offset, _, g', hg', horigin⟩ := (hinv.threads t).pointers_at hpc
      cases hg.symm.trans hg'
      cases ho.symm.trans horigin
  | dropLarge | freeRemote | retry => cases hnone.symm.trans hg
  | _ hpc =>
      rw [hpc] at hfreeing
      cases hfreeing

end Waiting

end HMalloc
