import HMalloc.Agreement
import HMalloc.AllocRuns

/-!
A thread inside a call can always take its next step: no step of an allocation
call or of a free reads through a null pointer. There are two exceptions. A call
of the region registry may probe a full table for ever, and `heap_malloc` reads
through the heap that `heap_create` could not map.
-/

namespace HMalloc

open Bytes Linked

/-- The steps inside the region registry's mutex. -/
def Thread.atRegions (s : Store) (th : Thread) : Bool :=
  match th.pc with
  | .registerSegment _ _ _ | .unregisterSegment _ _ | .registerLarge _ _ _ _ => true
  | .free p _ => isLarge s.os.mem p
  | _ => false

/-- A call of the region registry that does not return. In a reachable state this
takes a full table. -/
def RegistryStuck (ps : PageSize) (o : Oracle) (s : Store) : Pc → Prop
  | .registerSegment _ _ b | .registerLarge _ _ _ b => storeRegister ps o s b = none
  | .unregisterSegment b _ => regionUnregister s.registry b = none
  | .free p _ => isLarge s.os.mem p = true ∧ regionUnregister s.registry (regionBase p) = none
  | _ => False

theorem RegistryStuck.atRegions {ps : PageSize} {o : Oracle} {s : Store} {th : Thread}
    (h : RegistryStuck ps o s th.pc) : th.atRegions s = true := by
  unfold Thread.atRegions
  cases hpc : th.pc <;> rw [hpc] at h <;> first | rfl | exact h.1 | cases h

/-- `heap_create` gets no memory for the heap of a thread that has none. -/
def HeapRefused (ps : PageSize) (o : Oracle) (s : Store) (t : Nat) (th : Thread) : Prop :=
  (∃ q c, th.pc = .small q c) ∧ th.heap = none ∧
    (osAllocAligned ps o.mapping s.os (heapBytes ps) ps.bytes (.heap t)).1 = none

/-- Only a full table keeps a call of the region registry from returning. -/
theorem Reachable.registryStuck_full {ps : PageSize} {sys : System} (h : Reachable ps sys)
    {o : Oracle} {t : Nat} (hstuck : RegistryStuck ps o sys.store (sys.threads t).pc) :
    sys.store.registry.Full := by
  obtain ⟨G, hinv⟩ := h.inv
  have hdata := hinv.data.inv
  have hok := hinv.threads t
  by_contra hfull
  -- The bases the steps hand to the registry are those of segments and large regions.
  have hregister : ∀ b r, sys.store.os.regions b = some r → r.purpose.Tagged →
      storeRegister ps o sys.store b ≠ none := by
    intro b r hb htag
    obtain ⟨w, r', hrun⟩ := regionRegister_ends _ (osTables_refusesEmpty ps) h.registry_inv
      (fun hok => not_not.mp (fun hroom => hfull ⟨hok.slots_ne, hroom⟩))
      ⟨sys.store.os, o.tables, True⟩ (hdata.regions.isKey hb htag)
    simp [storeRegister, hrun]
  have hunregister : ∀ b r, sys.store.os.regions b = some r → r.purpose.Tagged →
      regionUnregister sys.store.registry b ≠ none := by
    intro b r hb htag
    obtain ⟨r', hrun⟩ := h.registry_inv.unregister_ends hfull (hdata.regions.isKey hb htag).2.1
    simp [hrun]
  cases hpc : (sys.threads t).pc with
  | registerSegment q c b =>
      rw [hpc] at hstuck
      exact hregister b _ (hok.lock_at hpc).2.2 (Or.inl rfl) hstuck
  | registerLarge q offset mmapSize b =>
      rw [hpc] at hstuck
      have hpointers := hok.pointers_at hpc
      exact hregister b _ hpointers.1 (Or.inr ⟨offset, rfl⟩) hstuck
  | unregisterSegment b after =>
      rw [hpc] at hstuck
      exact hunregister b _ (hdata.lists.places.dying b (hok.lock_at hpc).1).1 (Or.inl rfl) hstuck
  | free p result =>
      rw [hpc] at hstuck
      obtain ⟨hlarge, hnone⟩ := hstuck
      obtain ⟨g, hg, _⟩ := (hok.holders p (.freeing t) rfl).mpr (by rw [hpc]; rfl)
      cases ho : g.origin with
      | small pg i => simp [(hdata.decode_small hg ho).2.1] at hlarge
      | large b =>
          obtain ⟨size, offset, hregion, _⟩ := hdata.grants.large p g b hg ho
          rw [(hdata.decode_large hg ho).1] at hnone
          exact hunregister b _ hregion (Or.inr ⟨offset, rfl⟩) hnone
  | _ =>
      rw [hpc] at hstuck
      exact hstuck

/-- A registry without a table, or with an empty slot in it, lets every call return. -/
theorem Reachable.not_registryStuck {ps : PageSize} {sys : System} (h : Reachable ps sys)
    (hspare : sys.store.registry.Spare) (o : Oracle) (t : Nat) :
    ¬ RegistryStuck ps o sys.store (sys.threads t).pc :=
  fun hstuck => hspare.not_full (h.registryStuck_full hstuck)

section Steps

variable {ps : PageSize} {o : Oracle} {s : Store} {G : Ghost} {t : Nat} {th : Thread} {q : Request}
  {c : Nat}

theorem small_advances (hpc : th.pc = .small q c) (hheap : ¬ HeapRefused ps o s t th) :
    ∃ r, stepSmall ps o s t th q c = some r := by
  cases hth : th.heap with
  | none =>
      have hne : (osAllocAligned ps o.mapping s.os (heapBytes ps) ps.bytes (.heap t)).1 ≠ none :=
        fun hnone => hheap ⟨⟨q, c, hpc⟩, hth, hnone⟩
      obtain ⟨h, hh⟩ := Option.ne_none_iff_exists'.mp hne
      generalize hmap : osAllocAligned ps o.mapping s.os (heapBytes ps) ps.bytes (.heap t) = r at hh
      obtain ⟨base, os⟩ := r
      cases hh
      simp only [stepSmall, hth, hmap]
      exact ⟨_, rfl⟩
  | some k =>
      rw [stepSmall_some ps o s t q c hth]
      split
      · rename_i hfree
        simp only [pagePop, if_neg hfree, Option.bind_some]
        exact ⟨_, rfl⟩
      · split <;> exact ⟨_, rfl⟩

theorem walk_advances (hc : Consistent ps s G) (h : ThreadOk ps s G t th) {p : PageId}
    (hpc : th.pc = .walk q c p) : ∃ r, stepWalk s t th q c p = some r := by
  obtain ⟨k, hheap, _, l, r, hsplit, _⟩ := h.heap_at hpc rfl rfl
  obtain ⟨hp, hloc, _⟩ := hc.inv.own_page (show p ∈ G.cls k c by simp [hsplit])
  obtain ⟨available, s₁, g, hmake, _, _, _, hfree, _⟩ := hc.inv.makeAvailable hp (by simp [hloc])
  rw [stepWalk_eq hheap hmake]
  cases available with
  | true =>
      have hne : (heapRotateToFront s₁ k c p).page.free p ≠ 0 := by
        obtain ⟨next, prev, slot, hrotate, _⟩ := heapRotateToFront_shape s₁ k c p
        rw [hrotate]
        exact hfree rfl
      simp only [if_true, pagePop, if_neg hne, Option.bind_some]
      exact ⟨_, rfl⟩
  | false =>
      simp only [Bool.false_eq_true, if_false]
      cases s₁.page.next p <;> exact ⟨_, rfl⟩

theorem free_advances (hc : Consistent ps s G) (h : ThreadOk ps s G t th) {p result : Nat}
    (hpc : th.pc = .free p result) (hreg : ¬ RegistryStuck ps o s th.pc) :
    ∃ r, stepFree s th p result = some r := by
  obtain ⟨g, hg, _⟩ := (h.holders p (.freeing t) rfl).mpr (by rw [hpc]; rfl)
  rw [hpc] at hreg
  cases ho : g.origin with
  | large b =>
      obtain ⟨_, hlarge⟩ := hc.inv.decode_large hg ho
      have hne : regionUnregister s.registry (regionBase p) ≠ none :=
        fun hnone => hreg ⟨hlarge, hnone⟩
      obtain ⟨r, hr⟩ := Option.ne_none_iff_exists'.mp hne
      simp only [stepFree, hlarge, if_true, hr]
      exact ⟨_, rfl⟩
  | small pg i =>
      obtain ⟨_, hlarge, hpage⟩ := hc.inv.decode_small hg ho
      by_cases hown : s.page.owner pg = Owner.ofHeap th.heap
      · rcases hc.inv.owner_of_grant hg ho with ⟨k, c, _, howner, hclass⟩ | habandoned
        · have hheap : th.heap = some k := by
            cases hth : th.heap with
            | none =>
                rw [hth, howner] at hown
                cases hown
            | some a =>
                rw [hth, howner] at hown
                cases hown
                rfl
          rw [stepFree_local s result hlarge hpage hheap howner hclass]
          split <;> exact ⟨_, rfl⟩
        · rw [habandoned] at hown
          cases hth : th.heap <;> rw [hth] at hown <;> cases hown
      · unfold stepFree
        simp only [hlarge, hpage, if_neg hown]
        exact ⟨_, rfl⟩

end Steps

/-- In every state a thread that is in an allocation call or in a free can go on,
once it may take the lock, unless the region registry does not return or
`heap_create` has no memory. -/
theorem SysInv.advances {ps : PageSize} {sys : System} {G : Ghost} (hinv : SysInv ps sys G)
    {t : Nat} {o : Oracle}
    (hcall : (sys.threads t).pc.goal ≠ none ∨ (sys.threads t).pc.isFree = true)
    (hok : StepOk ps o sys.store (sys.threads t))
    (hreg : ¬ RegistryStuck ps o sys.store (sys.threads t).pc)
    (hheap : ¬ HeapRefused ps o sys.store t (sys.threads t)) :
    ∃ sys', Step ps sys (.step t o) sys' := by
  have hth := hinv.threads t
  suffices hrun : ∃ r, stepThread ps o sys.store t (sys.threads t) = some r by
    obtain ⟨⟨s', th'⟩, hrun⟩ := hrun
    refine ⟨sys.setThread t s' th', hok, ?_⟩
    simp only [exec, hrun]
    rfl
  unfold stepThread
  unfold StepOk at hok
  cases hpc : (sys.threads t).pc with
  | small q c => exact small_advances hpc hheap
  | walk q c p => exact walk_advances hinv.data hth hpc
  | acquire q c =>
      rw [hpc] at hok
      obtain ⟨k, hk, _⟩ := hth.heap_at hpc rfl rfl
      obtain ⟨s', th', _, hrun, _⟩ := acquire_outcome hinv.data hth hpc hok hk
      exact ⟨_, hrun⟩
  | sweep q c cur =>
      obtain ⟨k, hk, _⟩ := hth.heap_at hpc rfl rfl
      obtain ⟨s', th', _, hrun, _⟩ := sweep_outcome hinv.data hth hpc hk
      exact ⟨_, hrun⟩
  | registerSegment q c b =>
      rw [hpc] at hok hreg
      obtain ⟨k, hk, _⟩ := hth.heap_at hpc rfl rfl
      obtain ⟨⟨w, r⟩, hr⟩ := Option.ne_none_iff_exists'.mp hreg
      obtain ⟨s', th', _, hrun, _⟩ := registerSegment_outcome hinv.data hth hpc hr (hok w r hr) hk
      exact ⟨_, hrun⟩
  | unregisterSegment b after =>
      rw [hpc] at hreg
      obtain ⟨r, hr⟩ := Option.ne_none_iff_exists'.mp hreg
      simp only [stepUnregisterSegment, hr]
      exact ⟨_, rfl⟩
  | unmapSegment b after =>
      rw [hpc] at hcall
      cases after with
      | freed | sweeping => exact ⟨_, rfl⟩
      | destroying => rcases hcall with h | h <;> simp [Pc.goal, After.goal, Pc.isFree] at h
  | registerLarge q offset mmapSize b =>
      rw [hpc] at hreg
      obtain ⟨⟨w, r⟩, hr⟩ := Option.ne_none_iff_exists'.mp hreg
      simp only [stepRegisterLarge, hr]
      exact ⟨_, rfl⟩
  | free p result => exact free_advances hinv.data hth hpc hreg
  | release pg result =>
      rw [hpc] at hok
      obtain ⟨s', th', _, hrun, _⟩ := release_outcome hinv.data hth hpc hok
      exact ⟨_, hrun⟩
  | linkHeap | mapSegment | large | remote | unmapLarge => exact ⟨_, rfl⟩
  | idle | destroy | hand | unlinkHeap | unmapHeap =>
      rw [hpc] at hcall
      rcases hcall with h | h <;> simp [Pc.goal, Pc.isFree] at h

end HMalloc
