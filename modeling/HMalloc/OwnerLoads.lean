import HMalloc.Synchronisation

/-!
The relaxed load of `Page::owner` in `heap_free`. A thread may read an old value, and
the address of a heap that has been destroyed may be that of a new one, so an old value
may look like the thread's own heap. It never does: the thread that destroys a heap has
given all its pages away before it unlinks the heap under `registry_mtx()`, and the
thread whose heap is made at the same address locks that mutex later. Nor does a thread
that has no heap read the null of a page in the pool, because it has the pointer it
frees from a call that found an owner there.
-/

namespace HMalloc

open Bytes Views

/-- What a step stores in `Page::owner`. A store of the value that is there already
cannot be told from none. -/
def ownerStores (s s' : Store) (q : PageId) : Option Owner :=
  if s'.page.owner q = s.page.owner q then none else some (s'.page.owner q)

/-- Before the first call. -/
def ownerMemory : Memory PageId Owner Party := ⟨fun _ => [.null], fun _ _ => 0⟩

theorem ownerStores_same {s s' : Store} {q : PageId} (h : s'.page.owner q = s.page.owner q) :
    ownerStores s s' q = none :=
  if_pos h

theorem ownerStores_new {s s' : Store} {q : PageId} (h : s'.page.owner q ≠ s.page.owner q) :
    ownerStores s s' q = some (s'.page.owner q) :=
  if_neg h

/-- What is known of the owners in a run. -/
structure OwnerViews (sys : System) (M : Memory PageId Owner Party) : Prop where
  within : M.Within
  last : ∀ q, (M.history q).getLast? = some (sys.store.page.owner q)
  /-- All stores are made under the lock. -/
  lock : ∀ q, M.Current sys.store.central.locker q
  own : ∀ t k q, (sys.threads t).heap = some k → sys.store.page.owner q = .heap k →
    M.Current (.thread t) q
  others : ∀ t k q, (sys.threads t).heap = some k → sys.store.page.owner q ≠ .heap k →
    M.Past (.thread t) q (.heap k)
  /-- The heap registry has left behind the addresses that are no heap's, or that of one
  that is about to be unmapped. -/
  gone : ∀ k, (∀ t, (sys.threads t).heap = some k → (sys.threads t).pc = .unmapHeap) →
    ∀ q, M.Past .heaps q (.heap k)
  granted : ∀ p g q i, sys.store.grants p = some g → g.origin = .small q i →
    M.Past (g.holder.party p) q .null

theorem OwnerViews.init : OwnerViews System.init ownerMemory where
  within := fun _ _ => Nat.zero_lt_one
  last := fun _ => rfl
  lock := fun _ => rfl
  own := fun _ _ _ hheap => by cases hheap
  others := fun _ _ _ hheap => by cases hheap
  gone := by
    rintro k - q ⟨i, -, hread⟩
    cases i with
    | zero => cases hread
    | succ i => cases hread
  granted := fun _ _ _ _ hg => by cases hg

section Facts

variable {ps : PageSize} {s s' : Store} {G G' : Ghost} {t u : Nat} {o : Oracle}
  {th th' : Thread} {sys sys' : System} {q : PageId}

/-- What a thread does with a page it does in the critical section. -/
theorem Thread.pageEvent_central {e : PageEvent} (h : th.pageEvent s = some e) :
    th.pc.locks = true ∨ th.pc.locked = true := by
  unfold Thread.pageEvent at h
  cases hpc : th.pc with
  | acquire | release | hand => exact Or.inl rfl
  | registerSegment | sweep => exact Or.inr rfl
  | idle | small | linkHeap | walk | mapSegment | unregisterSegment | unmapSegment | large
  | registerLarge | free | remote | unmapLarge | destroy | unlinkHeap | unmapHeap =>
      rw [hpc] at h
      cases h

/-- Outside the critical section no owner is stored. -/
theorem Keeping.unlocked (h : Keeping ps o s th s') (hlocks : th.pc.locks = false)
    (hlocked : th.pc.locked = false) : s'.page.owner = s.page.owner := by
  have hnot : ∀ e, th.pageEvent s ≠ some e := by
    intro e he
    rcases Thread.pageEvent_central he with hpc | hpc
    · rw [hlocks] at hpc
      cases hpc
    · rw [hlocked] at hpc
      cases hpc
  cases h with
  | same _ h => exact h
  | take hevent => exact absurd hevent (hnot _)
  | release hevent => exact absurd hevent (hnot _)
  | abandon hevent => exact absurd hevent (hnot _)
  | reclaim _ hpc | clear _ hpc =>
      rw [hpc] at hlocked
      cases hlocked

/-- A thread gets its heap at the end of `heap_create` and loses it at the end of
`heap_destroy`. -/
theorem Effect.heap_cases (h : Effect ps o s t th s' th') : th'.heap = th.heap ∨
    (∃ r c k, th.pc = .linkHeap r c k ∧ th'.heap = some k) ∨
      th.pc = .unmapHeap ∧ th'.heap = none := by
  cases h with
  | quiet _ _ hs | registerSegment _ _ _ hs | unmapSegment _ _ hs | registerLarge _ _ _ hs
  | unmapLarge _ _ hs => exact Or.inl hs.heap
  | mapHeap | mapSegment | unregisterSegment | mapLarge | dropLarge | unlinkHeap =>
      exact Or.inl rfl
  | linkHeap hpc => exact Or.inr (Or.inl ⟨_, _, _, hpc, rfl⟩)
  | unmapHeap hpc => exact Or.inr (Or.inr ⟨hpc, rfl⟩)

/-- The heap is unmapped after it has been unlinked. -/
theorem Effect.before_unmapHeap (h : Effect ps o s t th s' th') (hheap : th'.heap ≠ none)
    (hpc' : th'.pc = .unmapHeap) : th.pc = .unlinkHeap ∧ th'.heap = th.heap := by
  have hsettled : ¬ Settles th th' := by
    intro hs
    have htransit := hs.transit
    unfold Thread.transit at htransit
    rw [hpc'] at htransit
    exact hheap htransit
  cases h with
  | quiet _ _ hs | registerSegment _ _ _ hs | unmapSegment _ _ hs | registerLarge _ _ _ hs
  | unmapLarge _ _ hs => exact absurd hs hsettled
  | mapHeap | mapSegment | unregisterSegment | mapLarge | dropLarge | linkHeap | unmapHeap =>
      cases hpc'
  | unlinkHeap hpc => exact ⟨hpc, rfl⟩

/-- A heap that is being unlinked or unmapped owns no page. -/
theorem SysInv.no_pages (h : SysInv ps sys G) (hlisted : OwnersListed sys.store) {k : Nat}
    (hpc : (sys.threads t).pc = .unlinkHeap ∨ (sys.threads t).pc = .unmapHeap)
    (hheap : (sys.threads t).heap = some k) : sys.store.page.owner q ≠ .heap k := by
  intro howner
  obtain ⟨c, hmem⟩ := h.data.cls_of_owner (hlisted q (by simp [howner])) howner
  have hempty : ∀ c, G.cls k c = [] := by
    rcases hpc with hpc | hpc
    · exact (h.threads t).lists_at hpc rfl hheap
    · exact (h.threads t).lists_at hpc rfl hheap
  rw [hempty c] at hmem
  cases hmem

/-- In the critical section a thread knows what is known under the lock. -/
theorem SysInv.locker_learned (h : SysInv ps sys G) (hok : StepOk ps o sys.store (sys.threads t))
    (hcentral : (sys.threads t).pc.locks = true ∨ (sys.threads t).pc.locked = true) :
    sys.store.central.locker = .thread t ∨
      sys.store.central.locker ∈ (sys.threads t).learns sys.store := by
  unfold Central.locker
  rcases hcentral with hlocks | hlocked
  · rw [mtx_of_locks hok hlocks]
    exact Or.inr (Thread.learns_central hlocks)
  · rw [(h.threads t).mtx.mpr hlocked]
    exact Or.inl rfl

/-- It keeps the lock, or unlocks it. -/
theorem OwnStep.locker_after (hown : OwnStep ps t sys G o s' th' G') (hinv : SysInv ps sys G)
    (hcentral : (sys.threads t).pc.locks = true ∨ (sys.threads t).pc.locked = true) :
    s'.central.locker = .thread t ∨ s'.central.locker = .central ∧ s'.central.mtx ≠ some t ∧
      (sys.threads t).tells t sys.store s' .central = true := by
  unfold Central.locker
  cases hmtx : s'.central.mtx with
  | none =>
      refine Or.inr ⟨rfl, by simp, ?_⟩
      rcases hcentral with hpc | hpc <;> simp [Thread.tells, hpc, hmtx]
  | some u =>
      by_cases hu : u = t
      · exact Or.inl (congrArg Party.thread hu)
      · refine absurd hmtx (hown.outcome.frame.unlocked u hu ?_)
        rcases hcentral with hpc | hpc
        · rw [mtx_of_locks hown.ok hpc]
          simp
        · rw [(hinv.threads t).mtx.mpr hpc]
          simpa using Ne.symm hu

/-- A page with a block that is not free has an owner. -/
theorem SysInv.owner_of_grant (h : SysInv ps sys G) {p i : Nat} {g : Grant}
    (hg : sys.store.grants p = some g) (ho : g.origin = .small q i) :
    sys.store.page.owner q ≠ .null := by
  rcases h.data.inv.owner_of_grant hg ho with ⟨k, c, _, howner, _⟩ | howner
  · simp [howner]
  · simp [howner]

end Facts

section Step

variable {ps : PageSize} {sys : System} {G G' : Ghost} {t u : Nat} {o : Oracle} {s' : Store}
  {th' : Thread} {M : Memory PageId Owner Party} {q : PageId}

/-- What is known after a step of thread `t`. -/
abbrev ownersAfter (M : Memory PageId Owner Party) (sys : System) (t : Nat) (o : Oracle)
    (s' : Store) : Memory PageId Owner Party :=
  M.act (.thread t) ((sys.threads t).exchange t o sys.store s' (ownerStores sys.store s'))

theorem ownersAfter_last (h : OwnerViews sys M) (q : PageId) :
    ((ownersAfter M sys t o s').history q).getLast? = some (s'.page.owner q) := by
  change (M.history q ++ (ownerStores sys.store s' q).toList).getLast? = _
  by_cases hq : s'.page.owner q = sys.store.page.owner q
  · rw [ownerStores_same hq, Option.toList_none, List.append_nil, h.last, hq]
  · rw [ownerStores_new hq, Option.toList_some, List.getLast?_concat]

/-- Who knows the last store reads the owner and nothing else. -/
theorem past_of_current {s : Store} {a : Party} {v : Owner}
    (hlast : (M.history q).getLast? = some (s.page.owner q)) (hcur : M.Current a q)
    (hne : s.page.owner q ≠ v) : M.Past a q v := by
  intro hread
  rw [hcur.readable_iff, hlast] at hread
  exact hne (Option.some.inj hread)

/-- What lies behind a party stays there as long as it is not stored again. -/
theorem OwnerViews.past_after {a b : Party} {v : Owner} (hpast : M.Past a q v)
    (hv : s'.page.owner q ≠ sys.store.page.owner q → s'.page.owner q ≠ v)
    (hle : M.known a q ≤ (ownersAfter M sys t o s').known b q) :
    (ownersAfter M sys t o s').Past b q v := by
  refine hpast.mono rfl ?_ hle
  change v ∉ (ownerStores sys.store s' q).toList
  by_cases hq : s'.page.owner q = sys.store.page.owner q
  · rw [ownerStores_same hq]
    simp
  · rw [ownerStores_new hq]
    exact fun hmem => hv hq (List.mem_singleton.mp hmem).symm

/-- A step of a thread that does not store the owner of a page. -/
theorem OwnerViews.current_after (h : OwnerViews sys M) {a b : Party} (hcur : M.Current a q)
    (hq : s'.page.owner q = sys.store.page.owner q)
    (hle : M.known a q ≤ (ownersAfter M sys t o s').known b q) :
    (ownersAfter M sys t o s').Current b q :=
  hcur.mono (h.within.act _ _) (Memory.act_history (ownerStores_same hq)) hle

theorem ownersAfter_stored (hq : s'.page.owner q ≠ sys.store.page.owner q) :
    (ownersAfter M sys t o s').Current (.thread t) q := by
  refine Memory.Current.act_self ?_
  change (ownerStores sys.store s' q).isSome = true
  rw [ownerStores_new hq]
  rfl

/-- The thread of another heap sees its pages stay. -/
theorem OwnStep.other_heap (hown : OwnStep ps t sys G o s' th' G') (hinv : SysInv ps sys G)
    (hlisted : OwnersListed sys.store) (hu : u ≠ t) {k : Nat}
    (hk : (sys.threads u).heap = some k) :
    s'.page.owner q = .heap k ∧ sys.store.page.owner q = .heap k ∨
      s'.page.owner q ≠ .heap k ∧ sys.store.page.owner q ≠ .heap k := by
  have hne : ∀ k', (sys.threads t).heap = some k' → k' ≠ k := by
    rintro k' hk' rfl
    exact hu (hinv.heap_unique hk' ((hinv.threads u).home_of_heap hk))
  cases (stepThread_owner hown.run).passing hinv.data (hinv.threads t) hown.ok hlisted q with
  | @take k' hheap _ hold hnew =>
      rw [hold, hnew]
      exact Or.inr ⟨fun heq => hne k' hheap (Owner.heap.inj heq), by simp⟩
  | @release k' hheap _ _ hold hnew | @abandon k' hheap _ _ hold hnew =>
      rw [hold, hnew]
      exact Or.inr ⟨by simp, fun heq => hne k' hheap (Owner.heap.inj heq)⟩
  | rest _ hsame =>
      by_cases howner : sys.store.page.owner q = .heap k
      · exact Or.inl ⟨(hsame k).mpr howner, howner⟩
      · exact Or.inr ⟨fun heq => howner ((hsame k).mp heq), howner⟩

/-- The address of a heap that is being made lies behind the heap registry. -/
theorem OwnerViews.fresh_heap (h : OwnerViews sys M) (hinv : SysInv ps sys G) {r : Request}
    {c k : Nat} (hpc : (sys.threads t).pc = .linkHeap r c k) (q : PageId) :
    M.Past .heaps q (.heap k) := by
  have hhome : (sys.threads t).home = some k := by
    unfold Thread.home
    rw [hpc]
    rfl
  have hnone : (sys.threads t).heap = none := by
    refine (hinv.threads t).unlinked ?_
    rw [hpc]
    simp [Pc.unlinked]
  refine h.gone k (fun u hu => ?_) q
  obtain rfl := hinv.heap_unique hu hhome
  rw [hnone] at hu
  cases hu

section Own

variable (h : OwnerViews sys M) (hinv : SysInv ps sys G) (hown : OwnStep ps t sys G o s' th' G')

include h hinv hown

/-- A thread in the critical section knows all stores, also its own. -/
theorem OwnerViews.locked_after
    (hcentral : (sys.threads t).pc.locks = true ∨ (sys.threads t).pc.locked = true) (q : PageId) :
    (ownersAfter M sys t o s').Current (.thread t) q := by
  by_cases hq : s'.page.owner q = sys.store.page.owner q
  · exact h.current_after (h.lock q) hq
      (Thread.known_self h.within (hinv.locker_learned hown.ok hcentral))
  · exact ownersAfter_stored hq

theorem OwnerViews.lock_after (q : PageId) :
    (ownersAfter M sys t o s').Current s'.central.locker q := by
  by_cases hcentral : (sys.threads t).pc.locks = true ∨ (sys.threads t).pc.locked = true
  · have hself := h.locked_after hinv hown hcentral q
    rcases hown.locker_after hinv hcentral with heq | ⟨heq, _, htells⟩
    · rw [heq]
      exact hself
    · rw [heq]
      exact hself.mono (h.within.act _ _) rfl (Thread.known_told (Or.inl htells))
  · push Not at hcentral
    have hlocks := Bool.eq_false_iff.mpr hcentral.1
    have hlocked := Bool.eq_false_iff.mpr hcentral.2
    have howner := (stepThread_owner hown.run).unlocked hlocks hlocked
    rw [(stepThread_central hown.run hlocks hlocked).2]
    exact h.current_after (h.lock q) (congrFun howner q)
      (Thread.known_locker h.within _ hlocks hlocked)

theorem OwnerViews.own_after (hlisted : OwnersListed sys.store) {k : Nat}
    (hk : ((sys.setThread t s' th').threads u).heap = some k)
    (howner : s'.page.owner q = .heap k) :
    (ownersAfter M sys t o s').Current (.thread u) q := by
  by_cases hu : u = t
  · subst hu
    rw [System.setThread_self] at hk
    by_cases hq : s'.page.owner q = sys.store.page.owner q
    · rw [howner] at hq
      have hheap : (sys.threads u).heap = some k := by
        rcases (stepThread_effect hown.busy hown.run).heap_cases with heq | ⟨r, c, k', hpc, heq⟩ |
          ⟨_, heq⟩
        · exact heq ▸ hk
        · rw [heq] at hk
          cases hk
          -- The new heap owns nothing: its address lies behind the heap registry.
          refine absurd ⟨(M.history q).length - 1, ?_, ?_⟩ (h.fresh_heap hinv hpc q)
          · have hlt := h.within .heaps q
            omega
          · rw [← List.getLast?_eq_getElem?, h.last, hq]
        · rw [heq] at hk
          cases hk
      exact h.current_after (h.own u k q hheap hq.symm) (howner.trans hq)
        (Thread.known_self h.within (Or.inl rfl))
    · exact ownersAfter_stored hq
  · rw [System.setThread_of_ne hu] at hk
    rcases hown.other_heap hinv hlisted hu hk with ⟨_, hold⟩ | ⟨hne, _⟩
    · exact h.current_after (h.own u k q hk hold) (howner.trans hold.symm)
        (Thread.known_thread h.within u)
    · exact absurd howner hne

theorem OwnerViews.others_after (hlisted : OwnersListed sys.store) {k : Nat}
    (hk : ((sys.setThread t s' th').threads u).heap = some k)
    (howner : s'.page.owner q ≠ .heap k) :
    (ownersAfter M sys t o s').Past (.thread u) q (.heap k) := by
  by_cases hu : u = t
  · subst hu
    rw [System.setThread_self] at hk
    rcases (stepThread_effect hown.busy hown.run).heap_cases with heq | ⟨r, c, k', hpc, heq⟩ |
      ⟨_, heq⟩
    · rw [heq] at hk
      by_cases hold : sys.store.page.owner q = .heap k
      · have hstored : s'.page.owner q ≠ sys.store.page.owner q := by
          rw [hold]
          exact howner
        exact past_of_current (ownersAfter_last h q) (ownersAfter_stored hstored) howner
      · exact OwnerViews.past_after (h.others u k q hk hold) (fun _ => howner)
          (Thread.known_self h.within (Or.inl rfl))
    · rw [heq] at hk
      cases hk
      refine OwnerViews.past_after (h.fresh_heap hinv hpc q) (fun _ => howner)
        (Thread.known_self h.within (Or.inr (Thread.learns_heaps ?_)))
      rw [hpc]
      rfl
    · rw [heq] at hk
      cases hk
  · rw [System.setThread_of_ne hu] at hk
    rcases hown.other_heap hinv hlisted hu hk with ⟨hnew, _⟩ | ⟨_, hold⟩
    · exact absurd hnew howner
    · exact OwnerViews.past_after (h.others u k q hk hold) (fun _ => howner)
        (Thread.known_thread h.within u)

end Own

/-- The thread that stores the address of a heap has that heap, and is not about to
unmap it. -/
theorem OwnStep.heap_stored (hown : OwnStep ps t sys G o s' th' G') (hinv : SysInv ps sys G)
    (hlisted : OwnersListed sys.store) {k : Nat} (howner : s'.page.owner q = .heap k)
    (hq : s'.page.owner q ≠ sys.store.page.owner q) :
    th'.heap = some k ∧ th'.pc ≠ .unmapHeap := by
  cases (stepThread_owner hown.run).passing hinv.data (hinv.threads t) hown.ok hlisted q with
  | take hheap hevent _ hnew =>
      cases hnew.symm.trans howner
      have heff := stepThread_effect hown.busy hown.run
      have hheap' : th'.heap = some k := by
        rcases heff.heap_cases with heq | ⟨r, c, _, hpc, _⟩ | ⟨hpc, _⟩
        · exact heq.trans hheap
        · unfold Thread.pageEvent at hevent
          rw [hpc] at hevent
          cases hevent
        · unfold Thread.pageEvent at hevent
          rw [hpc] at hevent
          cases hevent
      refine ⟨hheap', fun hpc' => ?_⟩
      obtain ⟨hpc, _⟩ := heff.before_unmapHeap (by rw [hheap']; simp) hpc'
      unfold Thread.pageEvent at hevent
      rw [hpc] at hevent
      cases hevent
  | release _ _ _ _ hnew | abandon _ _ _ _ hnew => cases hnew.symm.trans howner
  | rest _ hsame =>
      rw [howner] at hq
      exact absurd ((hsame k).mp howner).symm hq

theorem OwnerViews.gone_after (h : OwnerViews sys M) (hinv : SysInv ps sys G)
    (hown : OwnStep ps t sys G o s' th' G') (hlisted : OwnersListed sys.store) {k : Nat}
    (hgone : ∀ u, ((sys.setThread t s' th').threads u).heap = some k →
      ((sys.setThread t s' th').threads u).pc = .unmapHeap) (q : PageId) :
    (ownersAfter M sys t o s').Past .heaps q (.heap k) := by
  have hself : (sys.setThread t s' th').threads t = th' := Function.update_self ..
  have hmine := hgone t
  rw [hself] at hmine
  have hother : ∀ u, u ≠ t → (sys.threads u).heap = some k → (sys.threads u).pc = .unmapHeap := by
    intro u hu
    have hpc := hgone u
    rwa [System.setThread_of_ne hu] at hpc
  have hstored : s'.page.owner q ≠ sys.store.page.owner q → s'.page.owner q ≠ .heap k := by
    intro hq howner
    obtain ⟨hheap, hpc⟩ := hown.heap_stored hinv hlisted howner hq
    exact hpc (hmine hheap)
  by_cases hwas : (sys.threads t).heap = some k → (sys.threads t).pc = .unmapHeap
  · refine OwnerViews.past_after (h.gone k (fun u => ?_) q) hstored (Thread.known_heaps h.within)
    by_cases hu : u = t
    · rw [hu]
      exact hwas
    · exact hother u hu
  · -- The thread unlinks its heap, and has given all pages away before.
    push Not at hwas
    have heff := stepThread_effect hown.busy hown.run
    have hheap' : th'.heap = some k := by
      rcases heff.heap_cases with heq | ⟨r, c, _, hpc, _⟩ | ⟨hpc, _⟩
      · exact heq.trans hwas.1
      · have hnone := (hinv.threads t).unlinked (by rw [hpc]; simp [Pc.unlinked])
        cases hnone.symm.trans hwas.1
      · exact absurd hpc hwas.2
    obtain ⟨hpc, _⟩ := heff.before_unmapHeap (by rw [hheap']; simp) (hmine hheap')
    have hpast := h.others t k q hwas.1 (hinv.no_pages hlisted (Or.inl hpc) hwas.1)
    refine OwnerViews.past_after hpast hstored
      (Nat.le_trans (Thread.known_self h.within (Or.inl rfl)) (Thread.known_told (Or.inl ?_)))
    change (sys.threads t).pc.atHeaps = true
    rw [hpc]
    rfl

/-- What a pointer's holder knows after a step of thread `t`. -/
theorem OwnerViews.granted_after (h : OwnerViews sys M) (hinv : SysInv ps sys G)
    (hown : OwnStep ps t sys G o s' th' G') (hlisted : OwnersListed sys.store) {p i : Nat}
    {g : Grant} (hg : s'.grants p = some g) (horigin : g.origin = .small q i) :
    (ownersAfter M sys t o s').Past (g.holder.party p) q .null := by
  have hinv' : SysInv ps (sys.setThread t s' th') G' := hinv.setThread hown.outcome
  have howner : s'.page.owner q ≠ .null := hinv'.owner_of_grant hg horigin
  -- What the thread itself knows, it passes on with a pointer that it returns.
  have hpass : sys.store.given p = false → sys.store.grants p ≠ some g →
      (ownersAfter M sys t o s').Past (.thread t) q .null →
      (ownersAfter M sys t o s').Past (g.holder.party p) q .null := by
    intro hgiven hne hpast
    rcases hown.holder_after hg hne with hclient | hthread
    · rw [hclient]
      refine hpast.mono (l := []) (List.append_nil _).symm (by simp)
        (Thread.known_told (Or.inl ?_))
      change (s'.given p && !sys.store.given p) = true
      rw [hgiven]
      simp [Store.given, hg, hclient]
    · rwa [Holder.party_of_thread hthread]
  cases hown.grantStep hinv hg with
  | same hold =>
      refine OwnerViews.past_after (h.granted p g q i hold horigin) (fun _ => howner) ?_
      cases hthread : g.holder.thread with
      | some u =>
          rw [Holder.party_of_thread hthread]
          exact Thread.known_thread h.within u
      | none =>
          rw [Holder.client_of_thread hthread]
          refine Nat.le_of_eq (Thread.known_pointer ?_).symm
          simp [Store.given, hold, Holder.client_of_thread hthread]
  | @turned g₀ hold hthread =>
      have hsame := (hown.outcome.frame.same p g₀ g hold hg).1
      have hpast := h.granted p g₀ q i hold (hsame.symm.trans horigin)
      rw [Holder.party_of_thread hthread] at hpast
      have hmine : (ownersAfter M sys t o s').Past (.thread t) q .null :=
        OwnerViews.past_after hpast (fun _ => howner) (Thread.known_self h.within (Or.inl rfl))
      by_cases heq : g₀ = g
      · rw [← heq, Holder.party_of_thread hthread]
        exact hmine
      · refine hpass ?_ (by rw [hold]; simpa using heq) hmine
        simp only [Store.given, hold, Option.any_some, beq_eq_false_iff_ne]
        intro hclient
        rw [hclient] at hthread
        cases hthread
  | @served k c j pg hnone _ hheap' hmem ho =>
      cases horigin.symm.trans ho
      have howned := (hown.outcome.data.owner_of_cls hmem).2
      refine hpass (by simp [Store.given, hnone]) (by rw [hnone]; simp) ?_
      refine past_of_current (ownersAfter_last h q) ?_ howner
      refine h.own_after hinv hown hlisted (k := k) ?_ howned
      rw [System.setThread_self]
      exact hheap'
  | mapped _ _ ho => cases horigin.symm.trans ho

/-- A step of a thread. -/
theorem OwnerViews.step (h : OwnerViews sys M) (hinv : SysInv ps sys G)
    (hown : OwnStep ps t sys G o s' th' G') (hlisted : OwnersListed sys.store) :
    OwnerViews (sys.setThread t s' th') (ownersAfter M sys t o s') where
  within := h.within.act _ _
  last := ownersAfter_last h
  lock := h.lock_after hinv hown
  own := fun _ _ _ hk howner => h.own_after hinv hown hlisted hk howner
  others := fun _ _ _ hk howner => h.others_after hinv hown hlisted hk howner
  gone := fun _ hgone => h.gone_after hinv hown hlisted hgone
  granted := fun _ _ _ _ hg horigin => h.granted_after hinv hown hlisted hg horigin

/-- Nothing is stored, and nobody forgets anything. -/
theorem OwnerViews.congr {sys' : System} {M' : Memory PageId Owner Party} (h : OwnerViews sys M)
    (howner : sys'.store.page.owner = sys.store.page.owner)
    (hcentral : sys'.store.central = sys.store.central)
    (hheap : ∀ u, (sys'.threads u).heap = (sys.threads u).heap)
    (hpc : ∀ u, (sys'.threads u).pc = .unmapHeap → (sys.threads u).pc = .unmapHeap)
    (hwithin : M'.Within) (hhistory : ∀ q, M'.history q = M.history q)
    (hknown : ∀ a q, M.known a q ≤ M'.known a q)
    (hgranted : ∀ p g q i, sys'.store.grants p = some g → g.origin = .small q i →
      M'.Past (g.holder.party p) q .null) : OwnerViews sys' M' where
  within := hwithin
  last := by
    intro q
    rw [hhistory, howner]
    exact h.last q
  lock := by
    intro q
    rw [hcentral]
    exact (h.lock q).mono hwithin (hhistory q) (hknown _ q)
  own := by
    intro u k q hk hq
    rw [hheap] at hk
    rw [howner] at hq
    exact (h.own u k q hk hq).mono hwithin (hhistory q) (hknown _ q)
  others := by
    intro u k q hk hq
    rw [hheap] at hk
    rw [howner] at hq
    exact (h.others u k q hk hq).mono (l := []) (by rw [hhistory, List.append_nil]) (by simp)
      (hknown _ q)
  gone := by
    intro k hgone q
    refine (h.gone k (fun u hu => hpc u (hgone u ?_)) q).mono (l := [])
      (by rw [hhistory, List.append_nil]) (by simp) (hknown _ q)
    rw [hheap]
    exact hu
  granted := hgranted

/-- The first part of a call. -/
theorem OwnerViews.call (h : OwnerViews sys M) (hinv : SysInv ps sys G) {call : Call}
    {sys' : System} (hstep : Step ps sys (.call t call) sys') :
    OwnerViews sys' (M.act (.thread t) (call.exchange (ownerStores sys.store sys'.store))) := by
  obtain ⟨⟨_, _, hok⟩, hrun⟩ := hstep
  rw [exec_call] at hrun
  cases hrun
  obtain ⟨hheap, hpc⟩ := enterThread_running (sys.threads t) call ps sys.store
  refine h.congr rfl rfl (fun u => ?_) (fun u hu => ?_) (h.within.act _ _)
    (fun q => Memory.act_history (ownerStores_same rfl)) (fun a q => Call.known_le h.within a) ?_
  · by_cases hu : u = t
    · subst hu
      exact (congrArg Thread.heap (Function.update_self ..)).trans hheap
    · exact congrArg Thread.heap (Function.update_of_ne hu ..)
  · by_cases hut : u = t
    · subst hut
      exact absurd ((congrArg Thread.pc (Function.update_self ..)).symm.trans hu) hpc
    · exact (congrArg Thread.pc (Function.update_of_ne hut ..)).symm.trans hu
  · intro p g q i hg horigin
    rcases enterGrants_cases hg with hsame | ⟨g₀, hg₀, hp, ho, _, hholder⟩
    · exact (h.granted p g q i hsame horigin).mono (l := [])
        (by rw [Memory.act_history (ownerStores_same rfl), List.append_nil]) (by simp)
        (Call.known_le h.within _)
    · have hpast := h.granted p g₀ q i hg₀ (ho.symm.trans horigin)
      rw [hok.given hinv.data.inv hp hg₀] at hpast hholder
      refine hpast.mono (l := [])
        (by rw [Memory.act_history (ownerStores_same rfl), List.append_nil]) (by simp) ?_
      rcases hholder with hclient | hthread
      · rw [hclient]
        exact Call.known_le h.within _
      · rw [Holder.party_of_thread hthread]
        exact Call.known_self h.within hp

end Step

section Runs

variable {ps : PageSize} {sys : System} {M : Memory PageId Owner Party}

theorem Recorded.ownerViews {P : System → Label → Prop} (h : Recorded ps P
    (observe fun sys _ sys' => ownerStores sys.store sys'.store) ownerMemory sys M) :
    OwnerViews sys M := by
  induction h with
  | init => exact .init
  | @step sys sys' M l hrun hstep _ ih =>
      obtain ⟨G, hinv⟩ := hrun.reachableBy.reachable.inv
      by_cases hthread : ∃ t o, l = .step t o
      · obtain ⟨t, o, rfl⟩ := hthread
        obtain ⟨s', th', G', hown, rfl⟩ := hinv.own_step hstep
        exact ih.step hinv hown hrun.reachableBy.reachable.ownersListed
      · push Not at hthread
        by_cases hcall : ∃ t call, l = .call t call
        · obtain ⟨t, call, rfl⟩ := hcall
          exact ih.call hinv hstep
        · push Not at hcall
          have hsame : observe (fun sys _ sys' => ownerStores sys.store sys'.store) M sys l sys' =
              M := by
            cases l with
            | step t o => exact absurd rfl (hthread t o)
            | call t call => exact absurd rfl (hcall t call)
            | spawn | guardExit | finish | write | foreignMap | foreignUnmap | foreignWrite => rfl
          obtain ⟨hgrants, hthreads⟩ := exec_outside hthread hcall hstep.2
          have hstore := exec_store hthread hstep.2
          rw [hsame]
          refine ih.congr (by rw [hstore]) (by rw [hstore]) (fun u => (hthreads u).1)
            (fun u hu => ?_) ih.within (fun q => rfl) (fun a q => Nat.le_refl _) ?_
          · rcases (hthreads u).2 with hpc | hpc | ⟨c, p, hpc⟩
            · exact hpc.symm.trans hu
            · cases hpc.symm.trans hu
            · cases hpc.symm.trans hu
          · rw [hgrants]
            exact ih.granted

/-- A relaxed load of `Page::owner` in `heap_free` decides as if it saw the last store.
In every run and whatever thread frees whatever block of a page: all values that the
memory model lets the load return give the same answer to the comparison with
`t_heap`, and it is the right one. Every thread that stores an owner knows all earlier
stores to it, so that their modification order is the order of the run. -/
theorem relaxed_owner_loads_decide_right (h : Recorded ps (fun _ _ => True)
    (observe fun sys _ sys' => ownerStores sys.store sys'.store) ownerMemory sys M) :
    (∀ t p result v, (sys.threads t).pc = .free p result → isLarge sys.store.os.mem p = false →
      M.Readable (.thread t) (pageOf p) v →
      (v = Owner.ofHeap (sys.threads t).heap ↔
        sys.store.page.owner (pageOf p) = Owner.ofHeap (sys.threads t).heap)) ∧
    ∀ t o sys' q, Step ps sys (.step t o) sys' →
      sys'.store.page.owner q ≠ sys.store.page.owner q →
      M.reach (.thread t) ((sys.threads t).learns sys.store) q + 1 = (M.history q).length := by
  have hviews := h.ownerViews
  obtain ⟨G, hinv⟩ := h.reachableBy.reachable.inv
  constructor
  · intro t p result v hpc hsmall hread
    obtain ⟨g, hg, hholder⟩ := ((hinv.threads t).holders p (.freeing t) rfl).mpr (by rw [hpc]; rfl)
    cases ho : g.origin with
    | large b =>
        rw [(hinv.data.inv.decode_large hg ho).2] at hsmall
        cases hsmall
    | small pg i =>
        have hnull := hviews.granted p g pg i hg ho
        rw [hholder] at hnull
        rw [(hinv.data.inv.decode_small hg ho).2.2] at hread ⊢
        have howner := hinv.owner_of_grant hg ho
        cases hheap : (sys.threads t).heap with
        | none =>
            refine iff_of_false ?_ howner
            rintro rfl
            exact hnull hread
        | some k =>
            by_cases hown : sys.store.page.owner pg = .heap k
            · refine iff_of_true ?_ hown
              rw [(hviews.own t k pg hheap hown).readable_iff, hviews.last, hown] at hread
              exact (Option.some.inj hread).symm
            · refine iff_of_false ?_ hown
              rintro rfl
              exact hviews.others t k pg hheap hown hread
  · intro t o sys' q hstep hq
    obtain ⟨s', th', G', hown, rfl⟩ := hinv.own_step hstep
    have hlock := hviews.lock q
    have hlt := hviews.within.reach_lt (.thread t) ((sys.threads t).learns sys.store) q
    have hcentral : (sys.threads t).pc.locks = true ∨ (sys.threads t).pc.locked = true := by
      by_contra hnot
      push Not at hnot
      exact hq (congrFun ((stepThread_owner hown.run).unlocked (Bool.eq_false_iff.mpr hnot.1)
        (Bool.eq_false_iff.mpr hnot.2)) q)
    have hle := Memory.le_reach_of (x := q) (hinv.locker_learned hown.ok hcentral) (M := M)
    unfold Memory.Current at hlock
    omega

/-- A thread that has no heap frees a block of another, and reads no null. -/
theorem relaxed_owner_loads_decide_right_remote : ∃ sys M, Recorded page4k (fun _ _ => True)
    (observe fun sys _ sys' => ownerStores sys.store sys'.store) ownerMemory sys M ∧
    (sys.threads 1).pc = .free (2 ^ 43 + 63 * pageSize) 0 ∧ (sys.threads 1).heap = none ∧
    ∀ v, M.Readable (.thread 1) (pageOf (2 ^ 43 + 63 * pageSize)) v → v ≠ .null := by
  obtain ⟨w, hrun, hcheck⟩ := schedule_reaches page4k (P := fun _ _ => True) (fun _ _ => true)
    (observe fun sys _ sys' => ownerStores sys.store sys'.store) ownerMemory
    (firstMalloc 0 16 ++ [.spawn 1, .call 1 (.free (2 ^ 43 + 63 * pageSize))])
    (fun w => (w.sys.threads 1).pc == .free (2 ^ 43 + 63 * pageSize) 0 &&
      (w.sys.threads 1).heap == none && !isLarge w.sys.store.os.mem (2 ^ 43 + 63 * pageSize) &&
      w.sys.store.page.owner (pageOf (2 ^ 43 + 63 * pageSize)) != .null)
    (fun _ _ _ => trivial) (by decide +kernel)
  simp only [Bool.and_eq_true, beq_iff_eq, Bool.not_eq_true', bne_iff_ne] at hcheck
  obtain ⟨⟨⟨hpc, hheap⟩, hsmall⟩, howner⟩ := hcheck
  refine ⟨w.sys, w.log, hrun, hpc, hheap, fun v hread hnull => ?_⟩
  have hdecide := (relaxed_owner_loads_decide_right hrun).1 1 _ 0 v hpc hsmall hread
  rw [hheap] at hdecide
  exact howner (hdecide.mp hnull)

end Runs

end HMalloc
