import HMalloc.AllocCalls
import HMalloc.ClassLists
import HMalloc.Deadlock

/-!
Who may write what. Of a `Page` only `owner` and `thread_free` are atomic. The
other fields, the slots of a `Heap`, the fields of a `Segment` and the central
state are plain memory: a page of a heap belongs to the thread of the heap, all
other pages, the segments and the central state belong to the thread that has the
lock. No two threads can write the same of it at one time.
-/

namespace HMalloc

open Bytes Linked

/-- The fields that are not atomic. -/
def PageRecord.plain (r : PageRecord) : PageRecord := { r with owner := .null, threadFree := 0 }

/-- No other thread has the lock of the central heap. -/
def Store.Unlocked (s : Store) (t : Nat) : Prop := ∀ u, s.central.mtx = some u → u = t

/-- The page is owned by the thread's heap. -/
def Store.Holds (s : Store) (th : Thread) (q : PageId) : Prop :=
  IsPage (IsSegment s.os.regions) q ∧ ∃ k, th.heap = some k ∧ s.page.owner q = .heap k

/-- Thread `t` may write the plain fields of page `q`: it holds the page, or no heap
does and no other thread has the lock. -/
def Store.MayWrite (s : Store) (t : Nat) (th : Thread) (q : PageId) : Prop :=
  s.Holds th q ∨
    (IsPage (IsSegment s.os.regions) q → ∀ k, s.page.owner q ≠ .heap k) ∧ s.Unlocked t

section Pages

variable {ps : PageSize} {o : Oracle} {s s' : Store} {G : Ghost} {t : Nat} {th th' : Thread}
  {q : PageId}

/-- A page of a class list has its heap as owner. -/
theorem Inv.owner_held (h : Inv ps s G) {k c : Nat} (hq : q ∈ G.cls k c) :
    IsPage (IsSegment s.os.regions) q ∧ s.page.owner q = .heap k := by
  obtain ⟨hpage, hloc⟩ := (h.lists.places.cls k c q).mp hq
  have hok := (h.pages q hpage).loc
  rw [LocOk, hloc] at hok
  exact ⟨hpage, hok.1⟩

/-- The ways a step comes to write page `q`. -/
inductive Access (ps : PageSize) (o : Oracle) (s : Store) (th : Thread) (q : PageId) : Prop where
  | own (h : s.Holds th q)
  /-- `central_acquire_page` takes the page. -/
  | fresh (hcentral : th.pc.locks = true ∨ th.pc.locked = true) (howner : s.page.owner q = .null)
  /-- The sweep visits the page, or unlinks the one behind it. -/
  | left {r : Request} {c : Nat} {cur : Option PageId} {pg : PageId}
      (hpc : th.pc = .sweep r c cur) (hread : cursorRead s cur = some pg)
      (hq : q = pg ∨ cur = some q) (howner : s.page.owner q = .abandoned)
  /-- The segment of the page is new. -/
  | mapped {r : Request} {c : Nat} {os : Os} (hpc : th.pc = .mapSegment r c)
      (hmap : osAllocAligned ps o.mapping s.os segmentSize segmentSize .small =
        (some q.seg, os)) (hnew : ¬ IsPage (IsSegment s.os.regions) q)
  /-- A block of another thread's page is freed. -/
  | freed {p result : Nat} (hpc : th.pc = .free p result ∨ ∃ head, th.pc = .remote p head result)
      (hq : q = pageOf p) (howner : ∀ result, th.pc = .free p result →
        s.page.owner q ≠ Owner.ofHeap th.heap)

theorem Inv.access_own (h : Inv ps s G) {k c : Nat} (hheap : th.heap = some k)
    (hq : q ∈ G.cls k c) : Access ps o s th q := by
  obtain ⟨hpage, howner⟩ := h.owner_held hq
  exact .own ⟨hpage, k, hheap, howner⟩

/-- In the critical section, or on the way into it, no other thread has the lock. -/
theorem ThreadOk.unlocked (h : ThreadOk ps s G t th) (hok : StepOk ps o s th)
    (hcentral : th.pc.locks = true ∨ th.pc.locked = true) : s.Unlocked t := by
  intro u hu
  rcases hcentral with hlocks | hlocked
  · rw [mtx_of_locks hok hlocks] at hu
    cases hu
  · rw [h.mtx.mpr hlocked] at hu
    exact (Option.some.inj hu).symm

/-- The page a thread takes and the head it puts it in front of. -/
theorem Thread.Enters.access (hinv : Inv ps s G) {c k : Nat} (hheap : th.heap = some k)
    (hfilled : Filled s G k c) (hcentral : th.pc.locks = true ∨ th.pc.locked = true)
    (hw : th.Enters s c q) : Access ps o s th q := by
  rcases hw with hfresh | ⟨k', hk', rfl, hne⟩
  · obtain ⟨hpage, hloc⟩ := hinv.freshPage hfresh
    have hok := (hinv.pages q hpage).loc
    rw [LocOk, hloc] at hok
    exact .fresh hcentral hok.1
  · rw [hheap] at hk'
    cases hk'
    exact hinv.access_own hheap (hfilled.toServing.head_mem hne)

/-- The slot of a class that has pages has one of them. -/
theorem Serving.slot_mem {k c : Nat} {drained : Option PageId} (h : Serving s G k drained)
    {p : PageId} (hp : p ∈ G.cls k c) : s.slot k c ∈ G.cls k c := by
  have hlist := h.lists c
  cases hcls : G.cls k c with
  | nil =>
      rw [hcls] at hp
      cases hp
  | cons head rest =>
      rw [hcls] at hlist
      rw [hlist.slot_eq.1]
      exact List.mem_cons_self

/-- A page with blocks out has an owner: one that owns no heap frees remotely. -/
theorem Inv.access_free (hinv : Inv ps s G) {p result : Nat} {g : Grant}
    (hpc : th.pc = .free p result) (hg : s.grants p = some g)
    (hsmall : isLarge s.os.mem p = false) : Access ps o s th (pageOf p) := by
  by_cases howner : s.page.owner (pageOf p) = Owner.ofHeap th.heap
  · cases ho : g.origin with
    | large b =>
        rw [(hinv.decode_large hg ho).2] at hsmall
        cases hsmall
    | small pg i =>
        have hgrant := hinv.smallGrant hg ho
        have hout := List.ne_nil_of_mem hgrant.out
        rw [(hinv.decode_small hg ho).2.2] at howner ⊢
        cases hheap : th.heap with
        | some k =>
            rw [hheap] at howner
            exact .own ⟨hgrant.page, k, hheap, howner⟩
        | none =>
            have hnull : (s.page.row pg).owner = .null := by
              rw [hheap] at howner
              exact howner
            have hloc := (hinv.pages pg hgrant.page).loc
            unfold LocOk at hloc
            cases hl : (G.page pg).loc with
            | pool =>
                rw [hl] at hloc
                exact absurd hloc.2.2.out hout
            | limbo =>
                rw [hl] at hloc
                exact absurd hloc.out hout
            | held | abandoned =>
                rw [hl] at hloc
                rw [hloc.1] at hnull
                cases hnull
  · exact .freed (Or.inl hpc) rfl fun _ _ => howner

/-- How a step comes to write the pages it writes. -/
theorem Thread.Writes.access (hc : Consistent ps s G) (h : ThreadOk ps s G t th)
    (hok : StepOk ps o s th) (hw : th.Writes ps o s q) : Access ps o s th q := by
  have hinv := hc.inv
  unfold Thread.Writes at hw
  cases hpc : th.pc with
  | small r c =>
      rw [hpc] at hw
      obtain ⟨k, hk, rfl, hfree⟩ := hw
      have hserving : Serving s G k none := h.lists_at hpc rfl hk
      refine hinv.access_own hk (hserving.head_mem (c := c) fun hempty => hfree ?_)
      rw [hempty]
      exact hinv.sentinel
  | walk r c p =>
      obtain ⟨k, hk, hserving, before, after, hsplit, _⟩ := h.heap_at hpc rfl rfl
      rw [hpc] at hw
      have hp : p ∈ G.cls k c := by simp [hsplit]
      rcases hw with rfl | ⟨k', hk', _, hprev | hnext | rfl⟩
      · exact hinv.access_own hk hp
      · exact hinv.access_own hk ((hserving.lists c).neighbour hp (Or.inl hprev))
      · exact hinv.access_own hk ((hserving.lists c).neighbour hp (Or.inr hnext))
      · rw [hk] at hk'
        cases hk'
        exact hinv.access_own hk (hserving.slot_mem hp)
  | acquire r c =>
      obtain ⟨k, hk, hfilled⟩ := h.heap_at hpc rfl rfl
      rw [hpc] at hw
      exact hw.access hinv hk hfilled (Or.inl (by rw [hpc]; rfl))
  | registerSegment r c b =>
      obtain ⟨k, hk, hfilled⟩ := h.heap_at hpc rfl rfl
      rw [hpc] at hw
      exact hw.access hinv hk hfilled (Or.inr (by rw [hpc]; rfl))
  | sweep r c cur =>
      obtain ⟨k, hk, hfilled⟩ := h.heap_at hpc rfl rfl
      have hcur : CursorOk G cur := (h.lock_at hpc).2
      rw [hpc] at hw
      have hleft : ∀ pg, pg ∈ G.abandoned → s.page.owner pg = .abandoned := by
        intro pg hpg
        obtain ⟨hpage, hloc⟩ := (hinv.lists.places.abandoned pg).mp hpg
        have hpok := (hinv.pages pg hpage).loc
        rw [LocOk, hloc] at hpok
        exact hpok.1
      cases hread : cursorRead s cur with
      | none =>
          simp only [hread] at hw
          exact hw.access hinv hk hfilled (Or.inr (by rw [hpc]; rfl))
      | some pg =>
          simp only [hread] at hw
          obtain ⟨before, after, hsplit, _⟩ := hinv.cursor_split hcur hread
          refine .left hpc hread hw (hleft q ?_)
          rcases hw with rfl | hq
          · simp [hsplit]
          · exact hcur q hq
  | mapSegment r c =>
      rw [hpc] at hw
      obtain ⟨os, hmap⟩ := hw
      unfold StepOk at hok
      rw [hpc] at hok
      have hm := osAllocAligned_mapped hok (by decide) (by decide) hmap
      refine .mapped hpc hmap fun hpage => ?_
      have hseg : s.os.regions q.seg = some ⟨segmentSize, .small⟩ := hpage.1
      have hpos := hm.size_pos
      have hwas := hinv.regions.mapped _ _ hseg q.seg (Nat.le_refl _) (Nat.lt_add_of_pos_right hpos)
      rw [hm.fresh q.seg (Nat.le_refl _) (Nat.lt_add_of_pos_right hpos)] at hwas
      cases hwas
  | free p result =>
      rw [hpc] at hw
      obtain ⟨hsmall, rfl⟩ := hw
      obtain ⟨g, hg, _⟩ := (h.holders p (.freeing t) rfl).mpr (by rw [hpc]; rfl)
      exact hinv.access_free hpc hg hsmall
  | remote p head result =>
      rw [hpc] at hw
      refine .freed (Or.inr ⟨head, hpc⟩) hw fun result' hfree => ?_
      rw [hpc] at hfree
      cases hfree
  | release pg result =>
      obtain ⟨k, hk, hserving, _, c, htail⟩ := h.heap_at hpc rfl rfl
      rw [hpc] at hw
      have hp := List.mem_of_mem_tail htail
      rcases hw with rfl | hlink
      · exact hinv.access_own hk hp
      · exact hinv.access_own hk ((hserving.lists c).neighbour hp hlink)
  | destroy c p =>
      obtain ⟨k, hk, hleaving⟩ := h.heap_at hpc rfl rfl
      rw [hpc] at hw
      obtain rfl : q = p := hw
      exact hinv.access_own hk (List.mem_of_head? hleaving.list.head_eq.symm)
  | hand c p next =>
      obtain ⟨k, hk, hleaving, _⟩ := h.heap_at hpc rfl rfl
      rw [hpc] at hw
      obtain rfl : q = p := hw
      exact hinv.access_own hk (List.mem_of_head? hleaving.list.head_eq.symm)
  | idle | linkHeap | unregisterSegment | unmapSegment | large | registerLarge | unmapLarge
  | unlinkHeap | unmapHeap =>
      rw [hpc] at hw
      exact hw.elim

/-- Freeing a block of another thread's page writes atomic fields only. -/
theorem stepThread_freed {p result : Nat} (hrun : stepThread ps o s t th = some (s', th'))
    (hpc : th.pc = .free p result ∨ ∃ head, th.pc = .remote p head result)
    (howner : ∀ result, th.pc = .free p result → s.page.owner (pageOf p) ≠ Owner.ofHeap th.heap)
    (q : PageId) : (s'.page.record q).plain = (s.page.record q).plain := by
  rcases hpc with hpc | ⟨head, hpc⟩
  · rw [stepThread, hpc] at hrun
    have hcases : ThreadStep ps o s t th s' th' := stepFree_cases hpc hrun
    cases hcases with
    | dropLarge | freeRemote => rfl
    | freeLocal hpc' _ howner' | freeDrained hpc' _ howner' =>
        rw [hpc] at hpc'
        cases hpc'
        exact absurd howner' (howner result hpc)
    | _ hpc' => exact absurd (hpc.symm.trans hpc') (by simp)
  · rw [stepThread, hpc] at hrun
    simp only [stepRemote] at hrun
    split at hrun <;> cases hrun <;> rfl

/-- A step changes the plain fields of pages that are the thread's to write. -/
theorem stepThread_plain (hc : Consistent ps s G) (h : ThreadOk ps s G t th)
    (hok : StepOk ps o s th) (hrun : stepThread ps o s t th = some (s', th'))
    (hq : (s'.page.record q).plain ≠ (s.page.record q).plain) : s.MayWrite t th q := by
  have hw : th.Writes ps o s q := by
    by_contra hnot
    exact hq (congrArg PageRecord.plain (stepThread_untouched hrun hnot))
  have hlocked : ∀ {pc}, th.pc = pc → pc.locked = true → s.Unlocked t :=
    fun hpc hpcl => h.unlocked hok (Or.inr (hpc ▸ hpcl))
  cases hw.access hc h hok with
  | own hholds => exact Or.inl hholds
  | fresh hcentral howner =>
      exact Or.inr ⟨fun _ k => by simp [howner], h.unlocked hok hcentral⟩
  | left hpc _ _ howner => exact Or.inr ⟨fun _ k => by simp [howner], hlocked hpc rfl⟩
  | mapped hpc _ hnew => exact Or.inr ⟨fun hpage => absurd hpage hnew, hlocked hpc rfl⟩
  | freed hpc hpage howner =>
      subst hpage
      exact absurd (stepThread_freed hrun hpc howner (pageOf _)) hq

end Pages

section Rest

variable {ps : PageSize} {o : Oracle} {s s' : Store} {G : Ghost} {t : Nat} {th th' : Thread}
  {q : Request} {k c : Nat}

theorem deliverBlock_rest (t : Nat) (th : Thread) (q : Request) (pg : PageId) (b : Nat) :
    (deliverBlock s t th q pg b).1.seg = s.seg ∧
      (deliverBlock s t th q pg b).1.central = s.central ∧
      (deliverBlock s t th q pg b).1.slot = s.slot := by
  unfold deliverBlock
  rw [deliver_rest]
  exact ⟨rfl, rfl, rfl⟩

theorem failAlloc_rest (s : Store) (th : Thread) (q : Request) :
    (failAlloc s th q).1.seg = s.seg ∧
    (failAlloc s th q).1.central = s.central ∧ (failAlloc s th q).1.slot = s.slot := by
  rw [(failAlloc_eq s th q).1]
  exact ⟨rfl, rfl, rfl⟩

/-- Outside the critical section the central heap is left alone. -/
theorem stepThread_central (h : stepThread ps o s t th = some (s', th'))
    (hlocks : th.pc.locks = false) (hlocked : th.pc.locked = false) :
    s'.seg = s.seg ∧ s'.central = s.central := by
  cases stepThread_cases h with
  | idle | createHeap | enterWalk | enterAcquire | linkHeap | mapLarge | dropLarge | freeLocal
  | freeDrained | freeRemote | exchange | retry | unmapLarge | unlinkHeap | unmapHeap =>
      exact ⟨rfl, rfl⟩
  | @serve r c k b s₁ hpc _ _ hpop =>
      obtain ⟨_, _, rfl⟩ := pagePop_shape hpop
      obtain ⟨hseg, hcentral, _⟩ := deliverBlock_rest t th r (s.slot k c) b
      exact ⟨hseg, hcentral⟩
  | @walkServe r c k b p s₁ s₂ hpc _ hmake hpop =>
      obtain ⟨_, _, hs₂⟩ := pagePop_shape hpop
      obtain ⟨_, _, _, hrotate, _⟩ := heapRotateToFront_shape s₁ k c p
      obtain ⟨_, _, _, _, _, rfl⟩ := pageMakeAvailable_shape hmake
      rw [hrotate] at hs₂
      subst hs₂
      obtain ⟨hseg, hcentral, _⟩ := deliverBlock_rest t th r p b
      exact ⟨hseg, hcentral⟩
  | walkNext _ hmake | walkEnd _ hmake =>
      obtain ⟨_, _, _, _, _, rfl⟩ := pageMakeAvailable_shape hmake
      exact ⟨rfl, rfl⟩
  | destroy _ hcollect =>
      obtain ⟨_, _, _, rfl⟩ := pageCollect_shape hcollect
      exact ⟨rfl, rfl⟩
  | largeRefused =>
      obtain ⟨hseg, hcentral, _⟩ := failAlloc_rest s th _
      exact ⟨hseg, hcentral⟩
  | registerLarge =>
      rw [deliver_rest]
      exact ⟨rfl, rfl⟩
  | lock hpc | acquire hpc | release hpc | handRelease hpc | handAbandon hpc =>
      rw [hpc] at hlocks
      cases hlocks
  | sweepOn hpc | sweepDrop hpc | sweepMap hpc | sweepAcquire hpc | segmentRefused hpc
  | mapSegment hpc | registerSegment hpc | unregisterSegment hpc | unmapSegment hpc =>
      rw [hpc] at hlocked
      cases hlocked

/-- What a heap's slots are changed by. -/
def OwnSlots (s : Store) (th th' : Thread) (s' : Store) : Prop :=
  ∀ k, s'.slot k ≠ s.slot k → th.heap = some k ∨ th'.pc.unlinked = some k

theorem ownSlots_of_eq (h : s'.slot = s.slot) : OwnSlots s th th' s' :=
  fun k hne => absurd (congrFun h k) hne

theorem ownSlots_of_update {f : Nat → PageId} (hheap : th.heap = some k)
    (h : s'.slot = Function.update s.slot k f) : OwnSlots s th th' s' := by
  intro k' hne
  by_cases hk : k' = k
  · exact Or.inl (hk ▸ hheap)
  · rw [h, Function.update_of_ne hk] at hne
    exact absurd rfl hne

theorem OwnSlots.of_slot {s₀ : Store} (h : OwnSlots s th th' s') (hs : s.slot = s₀.slot) :
    OwnSlots s₀ th th' s' := by
  unfold OwnSlots at h ⊢
  rw [← hs]
  exact h

theorem sweepVisit_slot {cur : Option PageId} {pg : PageId} {next : SweepNext}
    (h : sweepVisit s cur pg = some (s', next)) : s'.slot = s.slot := by
  obtain ⟨s₁, hcollect, ⟨_, dead, _, hpool⟩ | ⟨_, rfl, _⟩⟩ := sweepVisit_cases h
  · have hreturn := poolReturn_slot hpool
    exact hreturn.trans (pageCollect_links hcollect).2.2
  · exact (pageCollect_links hcollect).2.2

theorem initSegment_slot (s : Store) (b : Nat) : (initSegment s b).slot = s.slot := by
  have hpages : ∀ n i s', (initPages b n i s').slot = s'.slot := by
    intro n
    induction n with
    | zero => exact fun _ _ => rfl
    | succ n ih => exact fun i s' => ih (i + 1) _
  unfold initSegment
  dsimp only [availPush]
  rw [hpages]
  rfl

theorem heapRotateToFront_slot (s : Store) (k c : Nat) (p : PageId) :
    ∃ f, (heapRotateToFront s k c p).slot = Function.update s.slot k f := by
  unfold heapRotateToFront
  dsimp only
  split
  · exact ⟨s.slot k, (Function.update_eq_self ..).symm⟩
  · exact ⟨_, rfl⟩

theorem AcquireEnd.slots (h : AcquireEnd s t th q c s' th') : OwnSlots s th th' s' := by
  have htaken : ∀ {k np s₁ s₂ available}, takePage s k c (classToSize c) = some (np, s₁) →
      pageMakeAvailable (linkFresh { s₁ with central := { s₁.central with mtx := none } } k c np)
        np = some (available, s₂) → ∃ f, s₂.slot = Function.update s.slot k f := by
    intro k np s₁ s₂ available htake hmake
    rw [(pageMakeAvailable_untouched hmake).2.2.2]
    obtain ⟨_, _, _, _, _, rfl⟩ := takePage_shape htake
    exact ⟨_, rfl⟩
  cases h with
  | @served k b np s₁ s₂ s₃ hheap htake hmake hpop =>
      obtain ⟨f, hslot⟩ := htaken htake hmake
      obtain ⟨_, _, rfl⟩ := pagePop_shape hpop
      exact ownSlots_of_update hheap ((deliverBlock_rest _ _ q np b).2.2.trans hslot)
  | @failed k np s₁ s₂ hheap htake hmake =>
      obtain ⟨f, hslot⟩ := htaken htake hmake
      exact ownSlots_of_update hheap ((failAlloc_rest _ _ q).2.2.trans hslot)

theorem stepAfter_slots {after : After} (h : stepAfter s th after = some (s', th')) :
    OwnSlots s th th' s' := by
  cases after with
  | freed | sweeping =>
      cases h
      exact ownSlots_of_eq rfl
  | destroying c next =>
      simp only [stepAfter, Option.bind_eq_bind, Option.bind_eq_some_iff] at h
      obtain ⟨k, hheap, h⟩ := h
      have hslot : ∃ f, (destroyNext { s with central := { s.central with mtx := none } } th k c
          next).1.slot = Function.update s.slot k f := by
        unfold destroyNext
        cases next with
        | none => exact ⟨_, rfl⟩
        | some p =>
            dsimp only
            split
            · exact ⟨s.slot k, (Function.update_eq_self ..).symm⟩
            · exact ⟨_, rfl⟩
      obtain ⟨f, hslot⟩ := hslot
      rw [Option.some.inj h] at hslot
      exact ownSlots_of_update hheap hslot

theorem afterPool_slots {dead : Option Nat} {after : After}
    (h : afterPool s t th dead after = some (s', th')) : OwnSlots s th th' s' := by
  cases dead with
  | none => exact stepAfter_slots h
  | some b =>
      cases h
      exact ownSlots_of_eq rfl

/-- The slots of a heap are changed by its own thread. -/
theorem stepThread_slots (h : stepThread ps o s t th = some (s', th')) :
    OwnSlots s th th' s' := by
  cases stepThread_cases h with
  | idle | enterWalk | enterAcquire | linkHeap | mapLarge | dropLarge | freeLocal
  | freeDrained | freeRemote | exchange | retry | unmapLarge | unlinkHeap | unmapHeap | lock
  | sweepMap | unregisterSegment => exact ownSlots_of_eq rfl
  | @createHeap r c k os =>
      intro k' hne
      by_cases hk : k' = k
      · exact Or.inr (congrArg some hk.symm)
      · exact absurd (Function.update_of_ne hk ..) hne
  | @serve r c k b s₁ _ _ _ hpop =>
      obtain ⟨_, _, rfl⟩ := pagePop_shape hpop
      exact ownSlots_of_eq (deliverBlock_rest _ _ r (s.slot k c) b).2.2
  | @walkServe r c k b p s₁ s₂ _ hheap hmake hpop =>
      obtain ⟨_, _, hs₂⟩ := pagePop_shape hpop
      obtain ⟨f, hrotate⟩ := heapRotateToFront_slot s₁ k c p
      rw [(pageMakeAvailable_untouched hmake).2.2.2] at hrotate
      refine ownSlots_of_update hheap (f := f) ((deliverBlock_rest _ _ r p b).2.2.trans ?_)
      rw [hs₂]
      exact hrotate
  | walkNext _ hmake | walkEnd _ hmake =>
      exact ownSlots_of_eq (pageMakeAvailable_untouched hmake).2.2.2
  | acquire _ _ hend | sweepAcquire _ _ _ hend => exact hend.slots
  | registerSegment _ _ hend =>
      have hslots := hend.slots
      exact hslots
  | sweepOn _ _ hvisit | sweepDrop _ _ hvisit => exact ownSlots_of_eq (sweepVisit_slot hvisit)
  | segmentRefused | largeRefused => exact ownSlots_of_eq (failAlloc_rest _ _ _).2.2
  | mapSegment => exact ownSlots_of_eq (initSegment_slot _ _)
  | unmapSegment _ hafter =>
      have hslots := stepAfter_slots hafter
      exact hslots
  | registerLarge =>
      rw [deliver_rest]
      exact ownSlots_of_eq rfl
  | release _ hunlink hpool hafter =>
      obtain ⟨_, rfl⟩ := unlinkEmpty_shape hunlink
      have hreturn := poolReturn_slot (show poolReturn _ _ = _ from hpool)
      exact (afterPool_slots hafter).of_slot hreturn
  | destroy _ hcollect => exact ownSlots_of_eq (pageCollect_links hcollect).2.2
  | handRelease _ _ hpool hafter =>
      have hreturn := poolReturn_slot (show poolReturn _ _ = _ from hpool)
      exact (afterPool_slots hafter).of_slot hreturn
  | handAbandon _ _ hafter =>
      have hslots := stepAfter_slots hafter
      exact hslots

end Rest

section Writers

variable {ps : PageSize} {sys sys' : System} {G : Ghost} {t u : Nat} {o : Oracle}

/-- A heap has one thread. -/
theorem SysInv.heap_thread (h : SysInv ps sys G) {k : Nat} (ht : (sys.threads t).home = some k)
    (hu : (sys.threads u).home = some k) : u = t := by
  have hregion := ((h.threads t).home k (heapBytes ps)).mpr ⟨rfl, ht⟩
  rw [((h.threads u).home k (heapBytes ps)).mpr ⟨rfl, hu⟩] at hregion
  cases hregion
  rfl

theorem SysInv.heap_unique (h : SysInv ps sys G) {k : Nat} (ht : (sys.threads t).heap = some k)
    (hu : (sys.threads u).home = some k) : u = t :=
  h.heap_thread ((h.threads t).home_of_heap ht) hu

/-- Two threads may write the same page only if no heap owns it and both have yet
to get the lock. -/
theorem SysInv.mayWrite_exclusive (h : SysInv ps sys G) (hne : u ≠ t) {q : PageId}
    (ht : sys.store.MayWrite t (sys.threads t) q) (hu : sys.store.MayWrite u (sys.threads u) q) :
    sys.store.central.mtx = none ∧ ¬ sys.store.Holds (sys.threads t) q ∧
      ¬ sys.store.Holds (sys.threads u) q := by
  rcases ht with ⟨hpage, k, hk, howner⟩ | ⟨hfree, hunlocked⟩
  · rcases hu with ⟨_, k', hk', howner'⟩ | ⟨hfree', _⟩
    · rw [howner] at howner'
      cases howner'
      exact absurd (h.heap_unique hk ((h.threads u).home_of_heap hk')) hne
    · exact absurd howner (hfree' hpage k)
  · rcases hu with ⟨hpage, k, _, howner⟩ | ⟨_, hunlocked'⟩
    · exact absurd howner (hfree hpage k)
    · have hnot : ∀ th, ¬ sys.store.Holds th q :=
        fun th ⟨hpage, k, _, howner⟩ => hfree hpage k howner
      refine ⟨?_, hnot _, hnot _⟩
      cases hmtx : sys.store.central.mtx with
      | none => rfl
      | some v => exact absurd ((hunlocked' v hmtx).symm.trans (hunlocked v hmtx)) hne

/-- Plain memory is never written by two threads at one time. Whatever thread steps
in whatever reachable state: the plain fields of a page change only if the thread
holds the page, or no heap does and no other thread has the lock; the segments and
the central state change only if no other thread has the lock; and the slots of a
heap only by its own thread. A page that two threads may write is held by neither,
and both have yet to get the lock; the heap whose slots one thread may write is the
heap of no other thread. -/
theorem plain_memory_has_one_writer (h : Reachable ps sys) (hstep : Step ps sys (.step t o) sys') :
    (∀ q, (sys'.store.page.record q).plain ≠ (sys.store.page.record q).plain →
      sys.store.MayWrite t (sys.threads t) q) ∧
    (sys'.store.seg ≠ sys.store.seg ∨ sys'.store.central ≠ sys.store.central →
      sys.store.Unlocked t) ∧
    (∀ k, sys'.store.slot k ≠ sys.store.slot k →
      (sys.threads t).heap = some k ∨ (sys'.threads t).pc.unlinked = some k) ∧
    ∀ u, u ≠ t →
      (∀ q, sys.store.MayWrite t (sys.threads t) q → sys.store.MayWrite u (sys.threads u) q →
        sys.store.central.mtx = none ∧ ¬ sys.store.Holds (sys.threads t) q ∧
          ¬ sys.store.Holds (sys.threads u) q) ∧
      ∀ k, (sys.threads t).heap = some k ∨ (sys'.threads t).pc.unlinked = some k →
        (sys.threads u).home ≠ some k := by
  obtain ⟨G, hinv⟩ := h.inv
  obtain ⟨s', th', G', hown, rfl⟩ := hinv.own_step hstep
  have hself : (sys.setThread t s' th').threads t = th' := Function.update_self ..
  rw [hself]
  refine ⟨fun q hq => stepThread_plain hinv.data (hinv.threads t) hown.ok hown.run hq, ?_,
    fun k hk => stepThread_slots hown.run k hk,
    fun u hne => ⟨fun q ht hu => hinv.mayWrite_exclusive hne ht hu, ?_⟩⟩
  · intro hchanged
    refine (hinv.threads t).unlocked hown.ok ?_
    by_contra hout
    simp only [not_or, Bool.not_eq_true] at hout
    obtain ⟨hseg, hcentral⟩ := stepThread_central hown.run hout.1 hout.2
    exact absurd hcentral (hchanged.resolve_left (not_not.mpr hseg))
  · rintro k (hk | hk) hu
    · exact hne (hinv.heap_unique hk hu)
    · -- The heap that the step has begun to link or unlink is the thread's in the next state.
      have hinv' := hinv.setThread hown.outcome
      have hhome : ((sys.setThread t s' th').threads t).home = some k := by
        rw [hself, Thread.home, hk]
        rfl
      have hsame : (sys.setThread t s' th').threads u = sys.threads u :=
        Function.update_of_ne hne ..
      rw [← hsame] at hu
      exact hne (hinv'.heap_thread hhome hu)

/-- A thread takes a second block of its page. -/
theorem plain_memory_has_one_writer_second : ∃ sys sys', Reachable page4k sys ∧
    Step page4k sys (.step 0 ⟨none, [], false⟩) sys' ∧
    (sys'.store.page.record ⟨2 ^ 43, 63⟩).plain ≠ (sys.store.page.record ⟨2 ^ 43, 63⟩).plain ∧
    sys.store.MayWrite 0 (sys.threads 0) ⟨2 ^ 43, 63⟩ := by
  have hrun : ((schedule page4k (fun _ _ => true) (fun _ _ _ _ => ())
      (firstMalloc 0 16 ++ [.call 0 (.malloc 16)]) (World.init ())).any fun w =>
      Act.ready page4k w (.step 0 false) &&
        (exec page4k w.sys (.step 0 ⟨none, [], false⟩)).any fun sys' =>
          sys'.store.page.used ⟨2 ^ 43, 63⟩ != w.sys.store.page.used ⟨2 ^ 43, 63⟩) = true := by
    decide +kernel
  simp only [Option.any_eq_true, Bool.and_eq_true, bne_iff_ne] at hrun
  obtain ⟨w, hw, hready, sys', hexec, hused⟩ := hrun
  obtain ⟨hb, hreach⟩ := schedule_induct (R := fun w => Reachable page4k w.sys)
    (fun _ _ _ _ h _ hstep => .step h hstep) (fun x hx => by cases hx) .init hw
  obtain ⟨hstep, _⟩ := Act.step_of_ready hb hready hexec
  have hchanged : (sys'.store.page.record ⟨2 ^ 43, 63⟩).plain ≠
      (w.sys.store.page.record ⟨2 ^ 43, 63⟩).plain :=
    fun heq => hused (congrArg PageRecord.used heq)
  exact ⟨w.sys, sys', hreach, hstep, hchanged,
    (plain_memory_has_one_writer hreach hstep).1 _ hchanged⟩

end Writers

end HMalloc
