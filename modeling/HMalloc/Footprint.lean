import HMalloc.Accounts
import HMalloc.Ownership

/-!
The footprint follows the live blocks down. A page that is abandoned has blocks in
use, at every point of every run: `heap_destroy` releases the others, and the sweep
takes a page off the list when its last block has come back. A page of a class list
behind the head has blocks in use as well. So, when no call is in progress, a page
is kept only as the head of a class or for a block that is live or waits on its
`thread_free` list, and a segment only for such a page, but for the one in the cache.
-/

namespace HMalloc

open Bytes Linked

/-- An abandoned page has blocks in use. -/
def AbandonedUsed (s : Store) : Prop := ∀ q, s.page.owner q = .abandoned → s.page.used q ≠ 0

section Steps

variable {ps : PageSize} {o : Oracle} {s s' : Store} {G : Ghost} {t : Nat} {th th' : Thread}
  {q : PageId} {sys sys' : System} {l : Label}

/-- A visit of the sweep leaves the page with blocks in use, or without its owner. -/
theorem sweepVisit_used {cur : Option PageId} {pg : PageId} {next : SweepNext}
    (h : sweepVisit s cur pg = some (s', next)) (howner : s'.page.owner q = .abandoned)
    (hused : s.page.used q ≠ 0) : s'.page.used q ≠ 0 := by
  obtain ⟨s₁, hcollect, ⟨_, dead, _, hpool⟩ | ⟨hkept, rfl, _⟩⟩ := sweepVisit_cases h
  · have hq : q ≠ pg := by
      rintro rfl
      rw [poolReturn_owner hpool, Function.update_self] at howner
      cases howner
    have hreturned := congrArg PageRecord.used (poolReturn_untouched hpool hq)
    have hcollected := congrArg PageRecord.used (pageCollect_untouched hcollect hq)
    have hwrite : (cursorWrite s₁ cur (s₁.page.next pg)).page.used = s₁.page.used := by
      cases cur <;> rfl
    change s'.page.used q = (cursorWrite s₁ cur (s₁.page.next pg)).page.used q at hreturned
    change s₁.page.used q = s.page.used q at hcollected
    rwa [hreturned, hwrite, hcollected]
  · by_cases hq : q = pg
    · rwa [hq]
    · have hcollected := congrArg PageRecord.used (pageCollect_untouched hcollect hq)
      change s'.page.used q = s.page.used q at hcollected
      rwa [hcollected]

/-- A page that was abandoned already. -/
theorem stepThread_abandoned (hc : Consistent ps s G) (h : ThreadOk ps s G t th)
    (hok : StepOk ps o s th) (hrun : stepThread ps o s t th = some (s', th'))
    (howner : s.page.owner q = .abandoned) (howner' : s'.page.owner q = .abandoned)
    (hused : s.page.used q ≠ 0) : s'.page.used q ≠ 0 := by
  by_cases hw : th.Writes ps o s q
  · cases hw.access hc h hok with
    | own hholds =>
        obtain ⟨_, k, _, hk⟩ := hholds
        cases howner.symm.trans hk
    | fresh _ hnull => cases howner.symm.trans hnull
    | left hpc hread =>
        cases stepThread_cases hrun with
        | sweepOn _ _ hvisit | sweepDrop _ _ hvisit => exact sweepVisit_used hvisit howner' hused
        | sweepMap hpc' hread' | sweepAcquire hpc' hread' =>
            cases hpc.symm.trans hpc'
            cases hread.symm.trans hread'
        | _ hpc' => exact absurd (hpc.symm.trans hpc') (by simp)
    | mapped hpc hmap =>
        cases stepThread_cases hrun with
        | segmentRefused _ hmap' => cases hmap.symm.trans hmap'
        | mapSegment _ hmap' =>
            cases hmap.symm.trans hmap'
            rw [initSegment_owner] at howner'
            simp at howner'
        | _ hpc' => exact absurd (hpc.symm.trans hpc') (by simp)
    | @freed p _ hpc hq hforeign =>
        subst hq
        have hplain := stepThread_freed hrun hpc hforeign (pageOf p)
        have hsame : s'.page.used (pageOf p) = s.page.used (pageOf p) :=
          congrArg PageRecord.used hplain
        rwa [hsame]
  · have hsame : s'.page.used q = s.page.used q :=
      congrArg PageRecord.used (stepThread_untouched hrun hw)
    rwa [hsame]

theorem Keeping.abandons (h : Keeping ps o s th s') (howner : s.page.owner q ≠ .abandoned)
    (howner' : s'.page.owner q = .abandoned) : th.pageEvent s = some (.abandon q) := by
  have hother : ∀ {pg v}, s'.page.owner = Function.update s.page.owner pg v → q = pg ∧
      v = .abandoned := by
    intro pg v hupdate
    rw [hupdate] at howner'
    by_cases hq : q = pg
    · subst hq
      rw [Function.update_self] at howner'
      exact ⟨rfl, howner'⟩
    · rw [Function.update_of_ne hq] at howner'
      exact absurd howner' howner
  cases h with
  | same _ hsame =>
      rw [hsame] at howner'
      exact absurd howner' howner
  | take _ _ _ hupdate => cases (hother hupdate).2
  | release _ hupdate | reclaim _ _ _ hupdate => cases (hother hupdate).2
  | abandon hevent hupdate =>
      obtain ⟨rfl, _⟩ := hother hupdate
      exact hevent
  | clear _ _ _ hclear =>
      rw [hclear] at howner'
      dsimp only at howner'
      split at howner'
      · cases howner'
      · exact absurd howner' howner

/-- A page that becomes abandoned has been found to have blocks in use. -/
theorem stepThread_abandons (hrun : stepThread ps o s t th = some (s', th'))
    (howner : s.page.owner q ≠ .abandoned) (howner' : s'.page.owner q = .abandoned) :
    s'.page.used q ≠ 0 := by
  have hevent := (stepThread_owner hrun).abandons howner howner'
  have hfound : ∃ c next, th.pc = .hand c q next ∧ s.page.used q ≠ 0 := by
    unfold Thread.pageEvent at hevent
    split at hevent
    case h_5 c pg next hpc =>
      by_cases hused : s.page.used pg = 0
      · simp [hused] at hevent
      · simp only [hused, if_false, Option.some.injEq, PageEvent.abandon.injEq] at hevent
        subst hevent
        exact ⟨c, next, hpc, hused⟩
    all_goals simp at hevent
  obtain ⟨c, next, hpc, hused⟩ := hfound
  cases stepThread_cases hrun with
  | handAbandon _ _ hafter =>
      have hpages := stepAfter_page hafter
      rw [hpages]
      exact hused
  | handRelease hpc' hused' =>
      cases hpc.symm.trans hpc'
      exact absurd hused' hused
  | _ hpc' => exact absurd (hpc.symm.trans hpc') (by simp)

theorem AbandonedUsed.thread (h : AbandonedUsed s) (hc : Consistent ps s G)
    (hth : ThreadOk ps s G t th) (hok : StepOk ps o s th)
    (hrun : stepThread ps o s t th = some (s', th')) : AbandonedUsed s' := by
  intro q howner'
  by_cases howner : s.page.owner q = .abandoned
  · exact stepThread_abandoned hc hth hok hrun howner howner' (h q howner)
  · exact stepThread_abandons hrun howner howner'

theorem AbandonedUsed.step (h : AbandonedUsed sys.store) (hinv : SysInv ps sys G)
    (hstep : Step ps sys l sys') : AbandonedUsed sys'.store := by
  cases l with
  | step t o =>
      obtain ⟨s', th', G', hown, rfl⟩ := hinv.own_step hstep
      exact h.thread hinv.data (hinv.threads t) hown.ok hown.run
  | foreignUnmap base =>
      obtain ⟨⟨size, hb⟩, hrun⟩ := hstep
      simp only [exec, hb] at hrun
      cases hrun
      exact h
  | spawn | finish | write | foreignWrite | foreignMap =>
      obtain ⟨_, hrun⟩ := hstep
      cases hrun
      exact h
  | call t call =>
      obtain ⟨_, hrun⟩ := hstep
      rw [exec_call] at hrun
      cases hrun
      exact h
  | guardExit t =>
      obtain ⟨_, hrun⟩ := hstep
      simp only [exec] at hrun
      split at hrun <;> (cases hrun; exact h)

theorem Reachable.abandonedUsed (h : Reachable ps sys) : AbandonedUsed sys.store := by
  induction h with
  | init =>
      intro q hq
      cases hq
  | step hreach hstep ih =>
      obtain ⟨G, hG⟩ := hreach.inv
      exact ih.step hG hstep

end Steps

section Counts

variable {ps : PageSize} {s : Store} {G : Ghost}

/-- All but the segments that are free have a page that is not. -/
theorem Inv.segments_le (h : Inv ps s G) (hlimbo : G.limbo = none) :
    s.central.numSegments ≤
      s.central.freeSegments + (s.central.pagesInUse + s.central.abandonedCount) := by
  have hcounters := h.lists.counters
  have htotal := hcounters.total
  have hfree : G.freePages ≤ 62 * G.segments.length + G.idleSegments :=
    Count.sum_le_of_bounded fun b hb => h.pool_le (h.isSegment_of_mem hb)
  rw [hlimbo, hcounters.freePages, hcounters.numSegments,
    show usablePagesPerSegment = 63 by decide] at htotal
  rw [hcounters.freeSegments, hcounters.numSegments]
  simp only [Option.toList_none, List.length_nil] at htotal
  omega

/-- The pages outside the pools. -/
def Ghost.usedPages (G : Ghost) : List PageId :=
  G.allPages.filter fun pg => (G.page pg).loc != .pool

theorem Inv.mem_usedPages (h : Inv ps s G) (hdying : G.dying = none) (pg : PageId) :
    pg ∈ G.usedPages ↔ IsPage (IsSegment s.os.regions) pg ∧ (G.page pg).loc ≠ .pool := by
  simp only [Ghost.usedPages, Ghost.allPages, List.mem_filter, List.mem_flatMap, bne_iff_ne]
  refine and_congr_left fun _ => ⟨?_, fun hpg => ?_⟩
  · rintro ⟨b, hb, hpg⟩
    exact ((mem_segmentPages (h.isSegment_of_mem hb) pg).mp hpg).1
  · refine ⟨pg.seg, (h.lists.places.segments _).mpr ⟨hpg.1, by simp [hdying]⟩, ?_⟩
    exact (mem_segmentPages hpg.1 pg).mpr ⟨hpg, rfl⟩

theorem nodup_segmentPages (b : Nat) : (segmentPages b).Nodup := by
  unfold segmentPages
  refine (List.nodup_range' ..).map ?_
  intro i j hij
  exact (PageId.mk.inj hij).2

theorem Inv.usedPages_nodup (h : Inv ps s G) : G.usedPages.Nodup := by
  apply List.Nodup.filter
  rw [Ghost.allPages, List.nodup_flatMap]
  refine ⟨fun b _ => nodup_segmentPages b, h.segments_nodup.imp ?_⟩
  intro b b' hne q hq hq'
  simp only [segmentPages, List.mem_map] at hq hq'
  obtain ⟨_, _, rfl⟩ := hq
  obtain ⟨_, _, heq⟩ := hq'
  exact hne (PageId.mk.inj heq).1.symm

/-- They are the pages in use and the abandoned ones. -/
theorem Inv.length_usedPages (h : Inv ps s G) (hlimbo : G.limbo = none) :
    s.central.pagesInUse + s.central.abandonedCount = G.usedPages.length := by
  have hcounters := h.lists.counters
  have htotal := hcounters.total
  have hpool : (G.allPages.filter fun pg => (G.page pg).loc == .pool).length = G.freePages := by
    rw [Ghost.allPages, List.filter_flatMap, List.length_flatMap, Ghost.freePages]
    apply Count.sum_map_congr
    intro b hb
    apply List.Perm.length_eq
    refine (List.perm_ext_iff_of_nodup ((nodup_segmentPages b).filter _)
      (h.pool_nodup (h.isSegment_of_mem hb))).mpr fun pg => ?_
    rw [List.mem_filter, mem_segmentPages (h.isSegment_of_mem hb), beq_iff_eq,
      h.lists.places.pool, and_assoc]
  have hsplit := List.length_eq_countP_add_countP (fun pg => (G.page pg).loc == .pool)
    (l := G.allPages)
  have hused : G.allPages.countP (fun pg => !((G.page pg).loc == .pool)) = G.usedPages.length :=
    List.countP_eq_length_filter ..
  rw [List.countP_eq_length_filter, hpool, G.length_allPages] at hsplit
  rw [hlimbo, hcounters.freePages, hcounters.numSegments] at htotal
  simp only [Option.toList_none, List.length_nil] at htotal
  simp only [Bool.not_eq_true, Bool.decide_eq_false] at hsplit
  omega

end Counts

/-- A block of the page is live, or waits on its `thread_free` list. -/
def Store.Occupied (s : Store) (pg : PageId) : Prop :=
  (∃ p g i, Live s p g ∧ g.origin = .small pg i) ∨
    (IsPage (IsSegment s.os.regions) pg ∧ s.page.threadFree pg ≠ 0)

section Idle

variable {ps : PageSize} {sys : System} {G : Ghost} {pg : PageId}

theorem SysInv.used_of_occupied (h : SysInv ps sys G) (hoccupied : sys.store.Occupied pg) :
    IsPage (IsSegment sys.store.os.regions) pg ∧ (G.page pg).loc ≠ .pool := by
  have hinv := h.data.inv
  have hpage : IsPage (IsSegment sys.store.os.regions) pg := by
    rcases hoccupied with ⟨p, g, i, hlive, ho⟩ | ⟨hpage, _⟩
    · exact (hinv.grants.small p g pg i hlive.1 ho).1
    · exact hpage
  refine ⟨hpage, fun hloc => ?_⟩
  have hok := (hinv.pages pg hpage).loc
  rw [LocOk, hloc] at hok
  obtain ⟨_, _, hvacant⟩ := hok
  rcases hoccupied with ⟨p, g, i, hlive, ho⟩ | ⟨_, hwaiting⟩
  · have hout := (hinv.grants.small p g pg i hlive.1 ho).2.1
    rw [hvacant.out] at hout
    cases hout
  · exact hwaiting hvacant.threadFree

/-- `used` counts blocks that are out and blocks on the `thread_free` list. -/
theorem SysInv.occupied_of_used (h : SysInv ps sys G) (hidle : ∀ t, (sys.threads t).pc = .idle)
    (hpage : IsPage (IsSegment sys.store.os.regions) pg)
    (hserves : InService sys.store.os.mem (sys.store.page.row pg) (G.page pg))
    (hused : sys.store.page.used pg ≠ 0) : sys.store.Occupied pg := by
  cases hout : (G.page pg).out with
  | cons p rest =>
      obtain ⟨g, i, hg, ho⟩ := h.data.inv.grants.out pg p hpage (by rw [hout]; simp)
      exact Or.inl ⟨p, g, i, ⟨hg, Or.inl (h.client_of_idle hidle hg)⟩, ho⟩
  | nil =>
      refine Or.inr ⟨hpage, fun hzero => hused ?_⟩
      have hchain := hserves.remote
      have hptr : ptr (sys.store.page.row pg).threadFree = none := if_pos hzero
      rw [hptr] at hchain
      have hremote : (G.page pg).remote = [] := hchain.nil_of_none
      have hcount := hserves.used
      rw [hout, hremote] at hcount
      exact hcount

/-- What keeps a page out of the pools. -/
theorem SysInv.page_kept (h : SysInv ps sys G) (hheaps : HeapsListed sys)
    (habandoned : AbandonedUsed sys.store) (hidle : ∀ t, (sys.threads t).pc = .idle)
    (hpage : IsPage (IsSegment sys.store.os.regions) pg) (hloc : (G.page pg).loc ≠ .pool) :
    (∃ k ∈ sys.store.heapRegistry, ∃ c < numSizeClasses, sys.store.slot k c = pg) ∨
      sys.store.Occupied pg := by
  have hinv := h.data.inv
  have hok := (hinv.pages pg hpage).loc
  unfold LocOk at hok
  cases hwhere : (G.page pg).loc with
  | pool => exact absurd hwhere hloc
  | held k c =>
      rw [hwhere] at hok
      obtain ⟨_, hclass, hserves⟩ := hok
      have hmem : pg ∈ G.cls k c := (hinv.lists.places.cls k c pg).mpr ⟨hpage, hwhere⟩
      obtain ⟨t, size, hregion⟩ := h.data.homes k c (List.ne_nil_of_mem hmem)
      have hlisted := ((h.heaps_of_idle hheaps hidle k size).mp ⟨t, hregion⟩).1
      have hserving : Serving sys.store G k none := by
        have hlists := (h.threads t).lists k (((h.threads t).home k size).mp hregion).2
        rw [hidle t] at hlists
        exact hlists
      have hlist := hserving.lists c
      have htail := hserving.occupied c pg
      cases hcls : G.cls k c with
      | nil =>
          rw [hcls] at hmem
          cases hmem
      | cons head rest =>
          rw [hcls] at hmem hlist htail
          rcases List.mem_cons.mp hmem with rfl | hrest
          · exact Or.inl ⟨k, hlisted, c, hclass ▸ hserves.cls, hlist.slot_eq.1⟩
          · exact Or.inr (h.occupied_of_used hidle hpage hserves (htail hrest (by simp)))
  | abandoned =>
      rw [hwhere] at hok
      exact Or.inr (h.occupied_of_used hidle hpage hok.2 (habandoned pg hok.1))
  | limbo =>
      have hlimbo := (hinv.lists.places.limbo pg).mpr ⟨hpage, hwhere⟩
      rw [h.data.limbo] at hlimbo
      cases hlimbo

theorem SysInv.dying_of_idle (h : SysInv ps sys G) (hidle : ∀ t, (sys.threads t).pc = .idle) :
    G.dying = none := by
  apply h.data.dying
  cases hm : sys.store.central.mtx with
  | none => rfl
  | some t =>
      have hlocked := (h.threads t).mtx.mp hm
      rw [hidle t] at hlocked
      cases hlocked

/-- When no call is in progress, the pages outside the pools are at most one for
each class of each heap and those that have a block that is live or waits to be
collected, and the segments are at most as many and the cached one. So the bytes
reserved are bounded by the live blocks, however many there have been before. -/
theorem footprint_follows_live_blocks (h : Reachable ps sys) (counts : Nat → HeapCounts)
    (hidle : ∀ t, (sys.threads t).pc = .idle) :
    ∃ occupied : Finset PageId, (∀ pg, pg ∈ occupied ↔ sys.store.Occupied pg) ∧
      sys.store.central.pagesInUse + sys.store.central.abandonedCount ≤
        sys.store.heapRegistry.length * numSizeClasses + occupied.card ∧
      (hmStats sys.store counts).bytesReserved ≤
        segmentSize * (segmentCache + sys.store.heapRegistry.length * numSizeClasses +
          occupied.card) +
        (hmStats sys.store counts).largeBytes + heapBytes ps * sys.store.heapRegistry.length +
        tableBytes ps sys.store.registry := by
  classical
  obtain ⟨G, hG⟩ := h.inv
  have hinv := hG.data.inv
  have hdying := hG.dying_of_idle hidle
  let heads := (sys.store.heapRegistry.toFinset ×ˢ Finset.range numSizeClasses).image
    fun slot => sys.store.slot slot.1 slot.2
  let occupied := G.usedPages.toFinset.filter sys.store.Occupied
  have hpages : sys.store.central.pagesInUse + sys.store.central.abandonedCount ≤
      sys.store.heapRegistry.length * numSizeClasses + occupied.card := by
    have hsub : G.usedPages.toFinset ⊆ heads ∪ occupied := by
      intro pg hpg
      obtain ⟨hpage, hloc⟩ := (hinv.mem_usedPages hdying pg).mp (List.mem_toFinset.mp hpg)
      rcases hG.page_kept h.heapsListed h.abandonedUsed hidle hpage hloc with
        ⟨k, hk, c, hc, hslot⟩ | hoccupied
      · refine Finset.mem_union_left _ (Finset.mem_image.mpr ⟨(k, c), ?_, hslot⟩)
        exact Finset.mem_product.mpr ⟨List.mem_toFinset.mpr hk, Finset.mem_range.mpr hc⟩
      · exact Finset.mem_union_right _ (Finset.mem_filter.mpr ⟨hpg, hoccupied⟩)
    have hheads : heads.card ≤ sys.store.heapRegistry.length * numSizeClasses := by
      refine Finset.card_image_le.trans ?_
      rw [Finset.card_product, Finset.card_range]
      exact Nat.mul_le_mul_right _ (List.toFinset_card_le _)
    calc sys.store.central.pagesInUse + sys.store.central.abandonedCount
        = G.usedPages.toFinset.card := by
          rw [hinv.length_usedPages hG.data.limbo, List.toFinset_card_of_nodup hinv.usedPages_nodup]
      _ ≤ (heads ∪ occupied).card := Finset.card_le_card hsub
      _ ≤ heads.card + occupied.card := Finset.card_union_le _ _
      _ ≤ _ := Nat.add_le_add_right hheads _
  refine ⟨occupied, fun pg => ?_, hpages, ?_⟩
  · rw [Finset.mem_filter, List.mem_toFinset]
    refine and_iff_right_of_imp fun hoccupied => ?_
    exact (hinv.mem_usedPages hdying pg).mpr (hG.used_of_occupied hoccupied)
  · have hsegments := hinv.segments_le hG.data.limbo
    have hcache := hinv.lists.cache
    have hbytes := h.books.bytes_of_idle hG h.heapsListed hidle
    change sys.store.os.bytesMapped ≤ _
    rw [hbytes]
    have hle : sys.store.central.numSegments ≤ segmentCache +
        sys.store.heapRegistry.length * numSizeClasses + occupied.card := by omega
    have hmul := Nat.mul_le_mul_left segmentSize hle
    change _ ≤ _ + sys.store.largeBytes + _ + _
    omega

/-- A thread has taken a block and has exited: one page is left, for that block. -/
theorem footprint_follows_live_blocks_exit : ∃ sys, Reachable page4k sys ∧
    (∀ t, (sys.threads t).pc = .idle) ∧ sys.store.heapRegistry = [] ∧
    sys.store.central.abandonedCount = 1 ∧
    ∃ occupied : Finset PageId, (∀ pg, pg ∈ occupied ↔ sys.store.Occupied pg) ∧
      sys.store.central.pagesInUse + sys.store.central.abandonedCount ≤
        sys.store.heapRegistry.length * numSizeClasses + occupied.card := by
  obtain ⟨w, hrun, hidle, hcheck⟩ := schedule_reaches_quiet (P := fun _ _ => True) page4k
    (fun _ _ => true) (fun _ _ _ _ => ()) () (firstMalloc 0 16 ++ exitActs 0)
    (fun w => w.sys.store.heapRegistry == [] && w.sys.store.central.abandonedCount == 1)
    (fun _ _ _ => trivial) (by decide +kernel)
  simp only [Bool.and_eq_true, beq_iff_eq] at hcheck
  have hreach := hrun.reachableBy.reachable
  obtain ⟨occupied, hoccupied, hpages, _⟩ :=
    footprint_follows_live_blocks hreach (fun _ => HeapCounts.zero) hidle
  exact ⟨w.sys, hreach, hidle, hcheck.1, hcheck.2, occupied, hoccupied, hpages⟩

end Idle

end HMalloc
