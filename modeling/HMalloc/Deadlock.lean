import HMalloc.Advance

/-!
No deadlock. A thread waits only for `g_central.mtx`, and the thread that has the
lock is at a program counter at which it waits for nothing: it can take its next
step whatever the kernel answers. The steps of `heap_destroy` are among those
that can be taken.
-/

namespace HMalloc

open Bytes Linked

/-- The program counters at which a thread is about to lock `g_central.mtx`. -/
def Pc.locks : Pc → Bool
  | .acquire _ _ | .release _ _ | .hand _ _ _ => true
  | _ => false

/-- Thread `t` waits for the lock. -/
def System.Waits (sys : System) (t : Nat) : Prop :=
  (sys.threads t).pc.locks = true ∧ sys.store.central.mtx ≠ none

/-- A thread that goes into the critical section has found it free. -/
theorem mtx_of_locks {ps : PageSize} {o : Oracle} {s : Store} {th : Thread}
    (hok : StepOk ps o s th) (hlocks : th.pc.locks = true) : s.central.mtx = none := by
  unfold StepOk at hok
  cases hpc : th.pc <;> rw [hpc] at hlocks hok <;> first | exact hok | cases hlocks

section Exit

variable {ps : PageSize} {o : Oracle} {s : Store} {G : Ghost} {t c : Nat} {th : Thread}

theorem stepAfter_advances {after : After} (h : after.needsHeap = true → th.heap ≠ none) :
    ∃ r, stepAfter s th after = some r := by
  cases after with
  | freed | sweeping => exact ⟨_, rfl⟩
  | destroying c next =>
      obtain ⟨k, hheap⟩ := Option.ne_none_iff_exists'.mp (h rfl)
      simp only [stepAfter, hheap]
      exact ⟨_, rfl⟩

theorem destroy_advances (hc : Consistent ps s G) (h : ThreadOk ps s G t th) {pg : PageId}
    (hpc : th.pc = .destroy c pg) : ∃ r, stepDestroy s th c pg = some r := by
  obtain ⟨k, _, hleave⟩ : ∃ k, th.heap = some k ∧ Leaving s G k c (some pg) :=
    h.heap_at hpc rfl rfl
  have hpg : pg ∈ G.cls k c := List.mem_of_head? hleave.list.head_eq.symm
  obtain ⟨hp, hloc, _⟩ := hc.inv.own_page hpg
  obtain ⟨s₁, hcollect, _⟩ := hc.inv.collect hp (by simp [hloc])
  simp only [stepDestroy, hcollect]
  exact ⟨_, rfl⟩

theorem hand_advances (hc : Consistent ps s G) (h : ThreadOk ps s G t th) {pg : PageId}
    {next : Option PageId} (hpc : th.pc = .hand c pg next) (hm : s.central.mtx = none) :
    ∃ r, stepHand s t th c pg next = some r := by
  obtain ⟨k, hheap, hleave, _⟩ := h.heap_at hpc rfl rfl
  have hpg : pg ∈ G.cls k c := List.mem_of_head? hleave.list.head_eq.symm
  have hneeds : After.needsHeap (.destroying c next) = true → th.heap ≠ none :=
    fun _ => by simp [hheap]
  unfold stepHand
  split
  · rename_i hused
    obtain ⟨s₁, dead, _, hrelease, _⟩ :=
      hc.inv.releasePage_handed hc.limbo (hc.dying hm) hpg hused
    simp only [hrelease, Option.bind_eq_bind, Option.bind_some]
    cases dead with
    | none => exact stepAfter_advances hneeds
    | some b => exact ⟨_, rfl⟩
  · exact stepAfter_advances hneeds

end Exit

section System

variable {ps : PageSize} {sys : System} {G : Ghost} {t : Nat} {o : Oracle}

/-- A thread that waits for nothing takes its next step, be it in a call or in
the destructor of its `HeapGuard`, with the two exceptions of `SysInv.advances`. -/
theorem SysInv.goes_on (hinv : SysInv ps sys G) (hok : StepOk ps o sys.store (sys.threads t))
    (hreg : ¬ RegistryStuck ps o sys.store (sys.threads t).pc)
    (hheap : ¬ HeapRefused ps o sys.store t (sys.threads t)) :
    ∃ sys', Step ps sys (.step t o) sys' := by
  by_cases hcall : (sys.threads t).pc.goal ≠ none ∨ (sys.threads t).pc.isFree = true
  · exact hinv.advances hcall hok hreg hheap
  have hth := hinv.threads t
  suffices hrun : ∃ r, stepThread ps o sys.store t (sys.threads t) = some r by
    obtain ⟨⟨s', th'⟩, hrun⟩ := hrun
    refine ⟨sys.setThread t s' th', hok, ?_⟩
    simp only [exec, hrun]
    rfl
  have hbusy := StepOk.busy hok
  unfold stepThread
  unfold StepOk at hok
  cases hpc : (sys.threads t).pc with
  | idle => exact absurd hpc hbusy
  | destroy c pg => exact destroy_advances hinv.data hth hpc
  | hand c pg next =>
      rw [hpc] at hok
      exact hand_advances hinv.data hth hpc hok
  | unlinkHeap =>
      obtain ⟨k, hk⟩ := Option.ne_none_iff_exists'.mp (hth.needs (by rw [hpc]; rfl))
      simp only [stepUnlinkHeap, hk]
      exact ⟨_, rfl⟩
  | unmapHeap =>
      obtain ⟨k, hk⟩ := Option.ne_none_iff_exists'.mp (hth.needs (by rw [hpc]; rfl))
      simp only [stepUnmapHeap, hk]
      exact ⟨_, rfl⟩
  | unregisterSegment b after =>
      rw [hpc] at hreg
      obtain ⟨r, hr⟩ := Option.ne_none_iff_exists'.mp hreg
      simp only [stepUnregisterSegment, hr]
      exact ⟨_, rfl⟩
  | unmapSegment b after =>
      refine stepAfter_advances (fun hneeds => hth.needs ?_)
      rw [hpc]
      exact hneeds
  | small | linkHeap | walk | acquire | sweep | mapSegment | registerSegment | large
  | registerLarge | free | remote | release | unmapLarge =>
      rw [hpc] at hcall
      exact absurd (by simp [Pc.goal, Pc.isFree]) hcall

/-- The kernel refuses all memory. -/
def Oracle.refusing : Oracle := ⟨none, [], false⟩

/-- A thread that does not wait needs nothing but an answer of the kernel, and a
kernel that refuses is an answer. -/
theorem stepOk_refusing (hbusy : (sys.threads t).pc ≠ .idle) (hwaits : ¬ sys.Waits t) :
    StepOk ps .refusing sys.store (sys.threads t) := by
  unfold System.Waits at hwaits
  unfold StepOk
  cases hpc : (sys.threads t).pc with
  | idle => exact absurd hpc hbusy
  | small => exact fun _ => kernelOk_refused _ _ _ _
  | mapSegment | large => exact kernelOk_refused _ _ _ _
  | registerSegment | registerLarge => exact fun w r hreg => storeRegister_refused rfl hreg
  | acquire | release | hand =>
      rw [hpc] at hwaits
      exact not_not.mp fun hm => hwaits ⟨rfl, hm⟩
  | linkHeap | walk | sweep | unregisterSegment | unmapSegment | free | remote | unmapLarge
  | destroy | unlinkHeap | unmapHeap => trivial

/-- The thread that has the lock is inside the critical section and does not wait. -/
theorem SysInv.holder_goes_on (hinv : SysInv ps sys G) (h : sys.store.central.mtx = some t) :
    (sys.threads t).pc ≠ .idle ∧ ¬ sys.Waits t := by
  have hlocked := (hinv.threads t).mtx.mp h
  unfold System.Waits
  cases hpc : (sys.threads t).pc <;> rw [hpc] at hlocked <;> simp [Pc.locked, Pc.locks] at *

/-- Whenever a thread is in a call or in the destructor of its `HeapGuard`, it can
take its next step, or it waits for the lock and the thread that has the lock can.
Nothing is needed for it of the other threads; the kernel may refuse memory. Only
a registry that probes for ever and a heap that could not be mapped stop the
thread. -/
theorem some_thread_goes_on (ps : PageSize) (hreach : Reachable ps sys)
    (hbusy : (sys.threads t).pc ≠ .idle) :
    ∃ u, (u = t ∨ sys.Waits t ∧ sys.store.central.mtx = some u) ∧
      (sys.threads u).pc ≠ .idle ∧ ¬ sys.Waits u ∧
      StepOk ps .refusing sys.store (sys.threads u) ∧
      ∀ o, StepOk ps o sys.store (sys.threads u) →
        (∃ sys', Step ps sys (.step u o) sys') ∨
          RegistryStuck ps o sys.store (sys.threads u).pc ∨
          HeapRefused ps o sys.store u (sys.threads u) := by
  obtain ⟨G, hinv⟩ := hreach.inv
  have hgoes : ∀ u o, StepOk ps o sys.store (sys.threads u) →
      (∃ sys', Step ps sys (.step u o) sys') ∨
        RegistryStuck ps o sys.store (sys.threads u).pc ∨
        HeapRefused ps o sys.store u (sys.threads u) := by
    intro u o hok
    by_cases hreg : RegistryStuck ps o sys.store (sys.threads u).pc
    · exact Or.inr (Or.inl hreg)
    by_cases hheap : HeapRefused ps o sys.store u (sys.threads u)
    · exact Or.inr (Or.inr hheap)
    · exact Or.inl (hinv.goes_on hok hreg hheap)
  by_cases hwaits : sys.Waits t
  · obtain ⟨u, hu⟩ := Option.ne_none_iff_exists'.mp hwaits.2
    obtain ⟨hbusy', hfree⟩ := hinv.holder_goes_on hu
    exact ⟨u, Or.inr ⟨hwaits, hu⟩, hbusy', hfree, stepOk_refusing hbusy' hfree, hgoes u⟩
  · exact ⟨t, Or.inl rfl, hbusy, hwaits, stepOk_refusing hbusy hwaits, hgoes t⟩

/-- Thread 1 waits for the lock while thread 0 sweeps with it; thread 0 goes on. -/
theorem some_thread_goes_on_sweeping : ∃ sys sys', Reachable page4k sys ∧ sys.Waits 1 ∧
    sys.store.central.mtx = some 0 ∧ Step page4k sys (.step 0 .refusing) sys' := by
  obtain ⟨sys, hreach, hcheck⟩ := schedule_reachable page4k
    [.spawn 0, .call 0 (.malloc 16), .step 0 true, .step 0 false, .step 0 false, .step 0 false,
      .spawn 1, .call 1 (.malloc 16), .step 1 true, .step 1 false, .step 1 false]
    (fun sys => (sys.threads 0).pc == .sweep ⟨16, false, none⟩ 0 none &&
      (sys.threads 1).pc == .acquire ⟨16, false, none⟩ 0 && sys.store.central.mtx == some 0)
    (by decide +kernel)
  simp only [Bool.and_eq_true, beq_iff_eq] at hcheck
  obtain ⟨⟨hsweep, hacquire⟩, hmtx⟩ := hcheck
  have hwaits : sys.Waits 1 := ⟨by rw [hacquire]; rfl, by simp [hmtx]⟩
  obtain ⟨u, hu, _, hfree, hok, hgoes⟩ := some_thread_goes_on page4k (t := 1) hreach
    (by simp [hacquire])
  obtain rfl : u = 0 := by
    rcases hu with rfl | ⟨_, hu⟩
    · exact absurd hwaits hfree
    · exact Option.some.inj (hu.symm.trans hmtx)
  rcases hgoes _ hok with ⟨sys', hstep⟩ | hreg | ⟨⟨q, c, hsmall⟩, _⟩
  · exact ⟨sys, sys', hreach, hwaits, hmtx, hstep⟩
  · rw [hsweep] at hreg
    exact hreg.elim
  · rw [hsweep] at hsmall
    cases hsmall

end System

end HMalloc
