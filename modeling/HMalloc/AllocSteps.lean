import HMalloc.Deliver

/-!
The steps of a small allocation: `heap_malloc` with its fast path,
`heap_create`, the walk of `heap_malloc_slow` along the class list, and the end
of `central_acquire_page`.
-/

namespace HMalloc

open Bytes Linked

theorem Inv.setSlot {ps : PageSize} {s : Store} {G : Ghost} (h : Inv ps s G)
    (slot : Nat → Nat → PageId) : Inv ps { s with slot := slot } G :=
  ⟨h.regions, h.tags, h.pages, h.lists, h.grants, h.table, h.sentinel⟩

theorem Inv.setHeapRegistry {ps : PageSize} {s : Store} {G : Ghost} (h : Inv ps s G)
    (heapRegistry : List Nat) : Inv ps { s with heapRegistry := heapRegistry } G :=
  ⟨h.regions, h.tags, h.pages, h.lists, h.grants, h.table, h.sentinel⟩

theorem Serving.weaken {s : Store} {G : Ghost} {k : Nat} (h : Serving s G k none)
    (drained : Option PageId) : Serving s G k drained :=
  ⟨h.lists, fun c pg hpg _ => h.occupied c pg hpg (by simp)⟩

section Own

variable {ps : PageSize} {s s' : Store} {G : Ghost} {k c : Nat} {pg : PageId}

/-- A page of a class list serves blocks of its class. -/
theorem Inv.own_page (h : Inv ps s G) (hpg : pg ∈ G.cls k c) :
    IsPage (IsSegment s.os.regions) pg ∧ (G.page pg).loc = .held k c ∧ pg ≠ emptyPage ∧
      s.page.blockSize pg = classToSize c ∧ s.page.capacity pg = pageSize / classToSize c ∧
      c < numSizeClasses := by
  obtain ⟨hp, hloc⟩ := (h.lists.places.cls k c pg).mp hpg
  have hl := (h.pages pg hp).loc
  rw [LocOk, hloc] at hl
  obtain ⟨_, hcls, hin⟩ := hl
  have hbs : s.page.blockSize pg = classToSize c := by
    rw [← hcls]
    exact hin.blockSize
  refine ⟨hp, hloc, hp.ne_emptyPage h.regions, hbs, ?_, ?_⟩
  · rw [← hbs]
    exact hin.capacity
  · rw [← hcls]
    exact hin.cls

theorem classCapacity_pos {c : Nat} (hc : c < numSizeClasses) : 0 < pageSize / classToSize c := by
  obtain ⟨_, hlow, hhigh⟩ := classToSize_spec hc
  have hmax : smallSizeMax ≤ pageSize := by decide
  exact Nat.div_pos (hhigh.trans hmax) (Nat.lt_of_lt_of_le (by decide) hlow)

/-- An operation on a page of a heap that does not lower `used` of another page
keeps the heap's lists. -/
theorem PageStep.serving {drained : Option PageId} (hp : PageStep pg s s')
    (h : Serving s G k drained) (g : PageGhost)
    (hused : s'.page.used pg ≠ 0 ∨ (s'.page.used pg = s.page.used pg) ∨ some pg = drained) :
    Serving s' (G.setPage pg g) k drained where
  lists := fun c => (h.lists c).congr (by rw [hp.rest]) (fun q _ =>
    ⟨congrFun hp.next q, congrFun hp.prev q⟩)
  occupied := by
    intro c q hq hd
    by_cases hqp : q = pg
    · subst hqp
      rcases hused with hne | heq | heq
      · exact hne
      · rw [heq]
        exact h.occupied c q hq hd
      · exact absurd heq hd
    · rw [show s'.page.used q = s.page.used q from congrArg PageState.used (hp.row q hqp)]
      exact h.occupied c q hq hd

end Own

section Steps

variable {ps : PageSize} {s₀ s : Store} {G₀ G : Ghost} {t : Nat} {th : Thread} {q : Request}
  {k c : Nat} {pg : PageId}

/-- What the thread that asks for a block brings to the step. -/
structure Asking (ps : PageSize) (s : Store) (t : Nat) (th : Thread) (q : Request) (k c : Nat) :
    Prop where
  ok : ∃ s₀ G₀, ThreadOk ps s₀ G₀ t th ∧ s.grants = s₀.grants ∧
    ∀ a size, s.os.regions a = some ⟨size, .heap t⟩ ↔ s₀.os.regions a = some ⟨size, .heap t⟩
  linked : th.pc.unlinked = none
  request : th.pc.request = some q
  freeing : th.pc.freeing = none
  result : th.pc.result = none
  args : SmallArgs q c
  heap : th.heap = some k

theorem Asking.region (h : Asking ps s t th q k c) :
    s.os.regions k = some ⟨heapBytes ps, .heap t⟩ := by
  obtain ⟨s₀, G₀, hok, _, hregions⟩ := h.ok
  exact (hregions k _).mpr (hok.region h.linked h.heap)

theorem Asking.congr {s' : Store} (h : Asking ps s t th q k c) (hgrants : s'.grants = s.grants)
    (hregions : ∀ a size, s'.os.regions a = some ⟨size, .heap t⟩ ↔
      s.os.regions a = some ⟨size, .heap t⟩) : Asking ps s' t th q k c := by
  obtain ⟨s₀, G₀, hok, hg, hr⟩ := h.ok
  exact { h with
    ok := ⟨s₀, G₀, hok, hgrants.trans hg, fun a size => (hregions a size).trans (hr a size)⟩ }

/-- A block is popped from an available page of the heap and delivered. -/
theorem pop_deliver (hc : Consistent ps s G) (h : Asking ps s t th q k c)
    (hmtx : s.central.mtx ≠ some t) (hpg : pg ∈ G.cls k c) (hserve : Serving s G k (some pg))
    (hfree : s.page.free pg ≠ 0) :
    ∃ b s' G', pagePop s pg = some (b, s') ∧
      Consistent ps (deliverBlock s' t th q pg b).1 G' ∧
      ThreadOk ps (deliverBlock s' t th q pg b).1 G' t (deliverBlock s' t th q pg b).2 ∧
      StepFrame t s G (deliverBlock s' t th q pg b).1 G' ∧ G'.cls = G.cls ∧
      ∀ x, (deliverBlock s' t th q pg b).1.page.used x =
        if x = pg then s.page.used pg + 1 else s.page.used x := by
  obtain ⟨s₀, G₀, hok, hgrants, hregions⟩ := h.ok
  obtain ⟨hp, hloc, _, hbs, _, _⟩ := hc.inv.own_page hpg
  obtain ⟨b, s', g, hpop, hstep, hmem, hbsize, harea, hused, hbfree, hgloc, hinv⟩ :=
    hc.inv.pop hp (by simp [hloc]) hfree
  have hsg : s'.grants = s.grants := hstep.grants
  have hd : Deliverable ps s' (G.setPage pg g) t b (s'.page.blockSize pg)
      (.small pg ((b - s'.page.area pg) / s'.page.blockSize pg)) := by
    refine ⟨?_, ?_⟩
    · intro gr ho hu hsz
      rw [harea, hbsize] at ho
      rw [hbsize] at hu
      rw [hsg]
      exact hinv gr ho hu hsz
    · intro g' hg'
      rw [hsg] at hg'
      exact absurd rfl (hc.inv.free_ne_grant hp (Or.inl hbfree) hg')
  have hserve' : Serving s' (G.setPage pg g) k none := by
    obtain ⟨hl, ho⟩ := hstep.serving hserve g (Or.inl (by omega))
    refine ⟨hl, fun c' x hx _ => ?_⟩
    by_cases hxp : x = pg
    · rw [hxp, hused]
      omega
    · exact ho c' x hx (by simpa using hxp)
  have hspec := deliver_spec (q := q) (G := G.setPage pg g) (s := s') hok
    (hsg.trans hgrants) (fun a size => by rw [hstep.regions]; exact hregions a size) h.linked
    h.request h.freeing (fun p hp => by rw [h.result] at hp; cases hp) hd
    (by rw [hbsize, hbs]; exact h.args.2)
    (fun a ha => by rw [h.heap] at ha; cases ha; exact hserve')
    (by rw [hstep.rest]; exact hmtx)
  refine ⟨b, s', G.setPage pg g, hpop, ?_⟩
  rw [deliverBlock]
  obtain ⟨hinv', hthread, hframe⟩ := hspec
  have hrest := deliver_rest s' t th q b (s'.page.blockSize pg)
    (.small pg ((b - s'.page.area pg) / s'.page.blockSize pg))
  refine ⟨⟨hinv', hc.limbo, ?_, ?_⟩, hthread,
    (StepFrame.page hc.inv hstep hpg h.region g).trans hframe hsg, rfl, ?_⟩
  · intro a c' hne
    rw [hrest]
    change ∃ t size, s'.os.regions a = _
    rw [hstep.regions]
    exact hc.homes a c' hne
  · intro hnone
    rw [hrest] at hnone
    change s'.central.mtx = none at hnone
    rw [hstep.rest] at hnone
    exact hc.dying hnone
  · intro x
    rw [hrest]
    change s'.page.used x = _
    by_cases hx : x = pg
    · rw [if_pos hx, hx]
      exact hused
    · rw [if_neg hx]
      exact congrArg PageState.used (hstep.row x hx)

theorem ThreadOk.asking (h : ThreadOk ps s G t th) (hlink : th.pc.unlinked = none)
    (hrequest : th.pc.request = some q) (hfreeing : th.pc.freeing = none)
    (hresult : th.pc.result = none) (hargs : SmallArgs q c) (hheap : th.heap = some k) :
    Asking ps s t th q k c :=
  ⟨⟨s, G, h, rfl, fun _ _ => Iff.rfl⟩, hlink, hrequest, hfreeing, hresult, hargs, hheap⟩

/-- A thread outside the critical section does not have the lock. -/
theorem ThreadOk.not_locked (h : ThreadOk ps s G t th) (hl : th.pc.locked = false) :
    s.central.mtx ≠ some t := by
  intro hm
  have := h.mtx.mp hm
  rw [hl] at this
  cases this

theorem ThreadOk.mtx_iff (h : ThreadOk ps s G t th) (hl : th.pc.locked = false) {pc : Pc}
    (hl' : pc.locked = false) : s.central.mtx = some t ↔ pc.locked = true := by
  rw [hl']
  exact ⟨fun hm => absurd hm (h.not_locked hl), fun hf => by cases hf⟩

theorem stepSmall_some (ps : PageSize) (o : Oracle) (s : Store) (t : Nat) {th : Thread} {k : Nat}
    (q : Request) (c : Nat) (hheap : th.heap = some k) :
    stepSmall ps o s t th q c =
      if s.page.free (s.slot k c) ≠ 0 then
        (pagePop s (s.slot k c)).bind (fun r => some (deliverBlock r.2 t th q (s.slot k c) r.1))
      else if s.slot k c ≠ emptyPage then some (s, { th with pc := .walk q c (s.slot k c) })
      else some (s, { th with pc := .acquire q c }) := by
  unfold stepSmall
  split
  · rename_i hnone
    cases hheap.symm.trans hnone
  · rename_i h' hh
    cases hheap.symm.trans hh
    rfl

/-- `heap_malloc` of a thread that has a heap: the fast path, or the start of
the slow one. -/
theorem small_with_heap (hc : Consistent ps s G) (h : ThreadOk ps s G t th)
    (hpc : th.pc = .small q c) (hheap : th.heap = some k) {o : Oracle} {s' : Store} {th' : Thread}
    (hrun : stepSmall ps o s t th q c = some (s', th')) : ∃ G', Outcome ps t s G s' G' th' := by
  have hargs : SmallArgs q c := h.args_at hpc
  have hlink : th.pc.unlinked = none := by rw [hpc]; rfl
  have hlocked : th.pc.locked = false := by rw [hpc]; rfl
  have hserve : Serving s G k none := h.lists_at hpc rfl hheap
  have hask : Asking ps s t th q k c :=
    h.asking hlink (by rw [hpc]; rfl) (by rw [hpc]; rfl) (by rw [hpc]; rfl) hargs hheap
  have hclass := hserve.lists c
  rw [stepSmall_some ps o s t q c hheap] at hrun
  by_cases hfree : s.page.free (s.slot k c) ≠ 0
  · -- The active page has a free block, so it is not the sentinel.
    rw [if_pos hfree] at hrun
    have hne : s.slot k c ≠ emptyPage := by
      intro heq
      rw [heq] at hfree
      exact hfree hc.inv.sentinel
    have hmem : s.slot k c ∈ G.cls k c := by
      have hhead := (DList.toChain hclass).head_eq
      rw [Store.classHead_eq hne rfl] at hhead
      exact List.mem_of_head? hhead.symm
    obtain ⟨b, s₁, G', hpop, hdata, hthread, hframe, hcls, _⟩ :=
      pop_deliver hc hask (h.not_locked hlocked) hmem (hserve.weaken _) hfree
    rw [hpop, Option.bind_some, Option.some.injEq] at hrun
    rw [hrun] at hdata hthread hframe
    exact ⟨G', hdata, hthread, hframe, Growth.of_cls _ hcls⟩
  · rw [if_neg hfree] at hrun
    have hpass : ∀ pc : Pc, pc.unlinked = none → pc.request = some q → pc.freeing = none →
        pc.result = none → pc.Args → HeapOk s G k pc → PointersOk s pc → pc.locked = false →
        LockOk s G pc → Outcome ps t s G s G { th with pc := pc } := by
      intro pc h1 h2 h3 h4 h5 h6 h7 h8 h9
      refine ⟨hc, h.advance (fun _ _ => Iff.rfl) rfl hlink h1 (by rw [h2, hpc]; rfl)
        (by rw [h3, hpc]; rfl) (by rw [h4, hpc]; rfl) h5 (fun _ => by rw [hheap]; simp) ?_ h7
        (h.mtx_iff hlocked h8) h9, StepFrame.refl t s G, Growth.of_cls _ rfl⟩
      intro a ha
      rw [hheap] at ha
      cases ha
      exact h6
    by_cases hsent : s.slot k c ≠ emptyPage
    · rw [if_pos hsent] at hrun
      cases hrun
      obtain ⟨r, hr⟩ : ∃ r, G.cls k c = s.slot k c :: r := by
        have hhead := (DList.toChain hclass).head_eq
        rw [Store.classHead_eq hsent rfl] at hhead
        cases hl : G.cls k c with
        | nil =>
            rw [hl] at hhead
            cases hhead
        | cons x r =>
            rw [hl] at hhead
            cases hhead
            exact ⟨r, rfl⟩
      exact ⟨G, hpass (.walk q c (s.slot k c)) rfl rfl rfl rfl hargs
        ⟨hserve, [], r, hr, fun x hx => by cases hx⟩ trivial rfl trivial⟩
    · rw [if_neg hsent] at hrun
      cases hrun
      rw [not_not] at hsent
      have hnil : G.cls k c = [] := by
        unfold Store.ClassList Store.classHead at hclass
        rw [if_pos hsent] at hclass
        exact (DList.toChain hclass).nil_of_none
      exact ⟨G, hpass (.acquire q c) rfl rfl rfl rfl hargs
        ⟨hserve, fun x hx => by rw [hnil] at hx; cases hx⟩ trivial rfl trivial⟩

theorem heapBytes_lt (ps : PageSize) : heapBytes ps < 2 ^ 64 := by
  unfold heapBytes Word.roundUp
  exact Nat.lt_of_le_of_lt Nat.and_le_left (Word.add_lt 64 _ _)

/-- `heap_create` up to the linking. -/
theorem small_without_heap (hc : Consistent ps s G) (h : ThreadOk ps s G t th)
    (hpc : th.pc = .small q c) (hheap : th.heap = none) {o : Oracle}
    (hk : KernelOk ps o.mapping s.os (heapBytes ps) ps.bytes) {s' : Store} {th' : Thread}
    (hrun : stepSmall ps o s t th q c = some (s', th')) : ∃ G', Outcome ps t s G s' G' th' := by
  have hlink : th.pc.unlinked = none := by rw [hpc]; rfl
  have hlocked : th.pc.locked = false := by rw [hpc]; rfl
  rcases osAllocAligned_spec ps (.heap t) hk (heapBytes_lt ps) ps.bytes_lt with
    hnone | ⟨a, os, hsome, hm, _⟩
  · simp only [stepSmall, hheap, hnone] at hrun
    cases hrun
  simp only [stepSmall, hheap, hsome] at hrun
  cases hrun
  have hfresh := hm.unmapped_before hc.inv.regions
  have hregions : ∀ b, b ≠ a → os.regions b = s.os.regions b := by
    intro b hb
    rw [hm.regions, Function.update_of_ne hb]
  have hother : ∀ b r, s.os.regions b = some r → b ≠ a := by
    rintro b r hb rfl
    rw [hfresh] at hb
    cases hb
  have hinv : Inv ps { s with os := os } G :=
    hc.inv.mapOther hm (by simp [Purpose.Tagged])
  -- No class list belongs to an address where nothing was mapped.
  have hcls : ∀ c', G.cls a c' = [] := by
    intro c'
    by_contra hne
    obtain ⟨u, size, hu⟩ := hc.homes a c' hne
    exact hother a _ hu rfl
  refine ⟨G, ⟨hinv.setSlot _, hc.limbo, ?_, hc.dying⟩, ?_, ?_, Growth.of_cls _ rfl⟩
  · intro b c' hne
    obtain ⟨u, size, hu⟩ := hc.homes b c' hne
    exact ⟨u, size, by change os.regions b = _; rw [hregions b (hother b _ hu)]; exact hu⟩
  · have hargs := h.args_at hpc
    refine ⟨hargs, ?_, ?_, fun _ => rfl, ?_, ?_, ?_, trivial, ?_, trivial⟩
    · intro b size
      change os.regions b = _ ↔ size = heapBytes ps ∧ some a = some b
      by_cases hb : b = a
      · subst hb
        rw [hm.regions, Function.update_self]
        simp [eq_comm]
      · rw [hregions b hb, h.home, Thread.home_of_linked hlink, hheap]
        have : a ≠ b := fun heq => hb heq.symm
        simp [this]
    · intro hneeds
      cases hneeds
    · intro b hb
      obtain rfl : a = b := Option.some.inj hb
      refine ⟨fun c' => ?_, fun c' x hx _ => ?_⟩
      · rw [hcls c']
        change Store.classHead _ _ _ = none
        simp [Store.classHead]
      · rw [hcls c'] at hx
        cases hx
    · exact h.holders_of rfl (by rw [hpc]; rfl) (by rw [hpc]; rfl) (by rw [hpc]; rfl)
    · intro q' p usable g hq'
      exact h.moved q' p usable g (by rw [hpc]; exact hq')
    · exact h.mtx_iff hlocked rfl
  · refine StepFrame.world rfl rfl rfl ?_ ?_ rfl rfl ?_ ?_
    · intro u hu b size
      exact hm.keeps hc.inv.regions b _ (by simpa using hu)
    · intro u hu b size hb
      exact Function.update_of_ne (hother b _ hb) ..
    · intro u hu _
      exact ⟨rfl, rfl, fun b => hm.keeps hc.inv.regions b _ (by simp)⟩
    · intro p g hg x hlo hhi
      exact hc.inv.grant_bytes_mapped hm hg hlo hhi

/-- The end of `heap_create`. -/
theorem linkHeap_outcome (hc : Consistent ps s G) (h : ThreadOk ps s G t th) {a : Nat}
    (hpc : th.pc = .linkHeap q c a) :
    ∃ G', Outcome ps t s G (stepLinkHeap s th q c a).1 G' (stepLinkHeap s th q c a).2 := by
  have hhome : th.home = some a := by
    unfold Thread.home
    rw [hpc]
    rfl
  have hlocked : th.pc.locked = false := by rw [hpc]; rfl
  refine ⟨G, ⟨hc.inv.setHeapRegistry _, hc.limbo, hc.homes, hc.dying⟩, ?_, ?_,
    Growth.of_cls _ rfl⟩
  · have hargs := h.args
    have hlists := h.lists a hhome
    rw [hpc] at hargs hlists
    refine ⟨hargs, ?_, (fun hneeds => by cases hneeds), fun hne => absurd rfl hne, ?_, ?_, ?_,
      trivial, h.mtx_iff hlocked rfl, trivial⟩
    · intro b size
      exact (h.home b size).trans (by rw [hhome]; rfl)
    · intro b hb
      obtain rfl : a = b := Option.some.inj hb
      obtain ⟨hl, ho⟩ := hlists
      exact ⟨hl, ho⟩
    · exact h.holders_of rfl (by rw [hpc]; rfl) (by rw [hpc]; rfl) (by rw [hpc]; rfl)
    · intro q' p usable g hq'
      exact h.moved q' p usable g (by rw [hpc]; exact hq')
  · exact StepFrame.world rfl rfl rfl (fun _ _ _ _ => Iff.rfl) (fun _ _ _ _ _ => rfl) rfl rfl
      (fun _ _ _ => ⟨rfl, rfl, fun _ => Iff.rfl⟩) (fun _ _ _ _ _ _ => rfl)

end Steps

end HMalloc
