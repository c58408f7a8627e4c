import HMalloc.Realloc
import HMalloc.Returning

/-!
Allocation calls when the kernel refuses memory. A mapping can fail at four
places: the heap of a thread, a segment, a large region and the table of the
registry. At the last three the call goes on or returns null. At the first one
`heap_create` returns null as well, but `heap_malloc` reads `h->pages` before
`heap_malloc_slow` checks for it.
-/

namespace HMalloc

open Bytes Linked

/-- The size an allocation call asks for. -/
def Call.size : Call → Nat
  | .malloc n | .realloc _ n | .alignedAlloc _ n => n
  | .calloc nmemb n => nmemb * n
  | .free _ => 0

/-- The alignment it asks for. -/
def Call.alignment : Call → Nat
  | .alignedAlloc alignment _ => alignment
  | _ => allocAlign

/-- What an allocation call returns: null, or a live pointer that is aligned and
long enough. -/
def MeetsContract (s : Store) (call : Call) (p : Nat) : Prop :=
  p = 0 ∨ call.alignment ∣ p ∧ call.size ≤ usableSize s p ∧ ∃ g, Live s p g

section Calls

variable {ps : PageSize} {t : Nat} {call : Call} {sys₀ sys : System} {p : Nat}

/-- A grant of the client meets the contract of a call that asked for no more. -/
theorem Inv.contract {s : Store} {G : Ghost} (hinv : Inv ps s G) {g : Grant}
    (hg : s.grants p = some g) (hh : g.holder = .client) (halign : call.alignment ∣ p)
    (hsize : call.size ≤ g.usable) : MeetsContract s call p :=
  Or.inr ⟨halign, by rw [hinv.usableSize_eq hg]; exact hsize, g, hg, Or.inl hh⟩

/-- A block that a call has obtained meets its contract. -/
theorem Obtained.contract {goal : Goal} {mem₀ : Mem} {s : Store} {G : Ghost}
    (h : Obtained goal mem₀ s p .client) (hinv : Inv ps s G) (hsize : goal.request.size = call.size)
    (halign : call.alignment = allocAlign ∨ call.alignment ∣ p) : MeetsContract s call p := by
  obtain ⟨g, hg, hh, hfits⟩ := h.grant
  refine hinv.contract hg hh ?_ (hsize ▸ hinv.fits_usable hg hfits)
  rcases halign with heq | hdvd
  · rw [heq]
    exact hinv.grant_aligned hg
  · exact hdvd

/-- What a call returns that is answered by `hm_malloc`. -/
theorem Returns.malloc_contract (h : Returns ps t call sys₀ sys p) (hr : Reachable ps sys₀)
    {q : Request} (hentry : enter ps sys₀.store call = hmMalloc ps q) (hword : q.size < 2 ^ 64)
    (hsize : q.size = call.size) (halign : call.alignment = allocAlign) :
    MeetsContract sys.store call p := by
  by_cases hp : p = 0
  · exact Or.inl hp
  obtain ⟨G, hinv⟩ := (h.during.reachable hr).inv
  rcases h.malloc hp hentry hword with ⟨_, _, hgoto⟩ | ⟨_, hgoto⟩
  · exact (h.obtained hr hp hgoto rfl).contract hinv.data.inv hsize (Or.inl halign)
  · exact (h.obtained hr hp hgoto rfl).contract hinv.data.inv hsize (Or.inl halign)

theorem Returns.calloc_contract {nmemb size : Nat}
    (h : Returns ps t (.calloc nmemb size) sys₀ sys p) (hr : Reachable ps sys₀) :
    MeetsContract sys.store (.calloc nmemb size) p := by
  by_cases hp : p = 0
  · exact Or.inl hp
  obtain ⟨G, hinv⟩ := (h.during.reachable hr).inv
  by_cases hrefused : nmemb = 0 ∨ size = 0 ∨ sizeMax < nmemb * size
  · have hzero := (h.during.refused (hmCalloc_refused ps hrefused)).1.result
    exact absurd (h.result.symm.trans hzero) hp
  have hentry : enter ps sys₀.store (.calloc nmemb size) = _ := hmCalloc_exact ps hrefused
  split at hentry
  · exact (h.obtained hr hp hentry rfl).contract hinv.data.inv rfl (Or.inl rfl)
  · rename_i hbig
    have hmax : sizeMax = 2 ^ 64 - 1 := rfl
    have hle : nmemb * size ≤ sizeMax := by
      by_contra hgt
      exact hrefused (Or.inr (Or.inr (by omega)))
    have hgoto := h.large hp hentry .least (by simp only; omega) (by simp only; omega)
    exact (h.obtained hr hp hgoto rfl).contract hinv.data.inv rfl (Or.inl rfl)

theorem Returns.aligned_contract {alignment size : Nat}
    (h : Returns ps t (.alignedAlloc alignment size) sys₀ sys p) (hr : Reachable ps sys₀) :
    MeetsContract sys.store (.alignedAlloc alignment size) p := by
  by_cases hp : p = 0
  · exact Or.inl hp
  obtain ⟨G, hinv⟩ := (h.during.reachable hr).inv
  by_cases hrefused : size = 0 ∨ (¬ ∃ k, alignment = 2 ^ k) ∨ segmentSize / 2 < alignment
  · have hzero := (h.during.refused (hmAlignedAlloc_refused ps hrefused)).1.result
    exact absurd (h.result.symm.trans hzero) hp
  push Not at hrefused
  obtain ⟨hsize, ⟨k, rfl⟩, hk⟩ := hrefused
  obtain ⟨halign, goal, hgoal, hobt⟩ :=
    h.aligned hr hp hinv.data.inv hk hsize h.during.allowed.2.2.2
  exact hobt.contract hinv.data.inv (by rw [hgoal]; rfl) (Or.inr halign)

/-- `hm_realloc` to size zero frees its block and returns null. -/
theorem During.freed {ptr : Nat} (h : During ps t call sys₀ sys) (hr : Reachable ps sys₀)
    (hentry : enter ps sys₀.store call = .goto (.free ptr 0)) :
    (sys.threads t).pc.isFree = true ∧ (sys.threads t).pc.returns = 0 ∨
      (sys.threads t).pc = .idle ∧ (sys.threads t).result = 0 := by
  refine h.induct (R := fun sys => (sys.threads t).pc.isFree = true ∧
    (sys.threads t).pc.returns = 0 ∨ (sys.threads t).pc = .idle ∧ (sys.threads t).result = 0)
    hr ?_ ?_ ?_
  · rintro sys ⟨_, hrun⟩
    rw [exec_call, hentry] at hrun
    cases hrun
    simp only [System.setThread, Function.update_self]
    exact Or.inl ⟨rfl, rfl⟩
  · intro sys G o s' th' G' _ _ _ hfree hown
    simp only [System.setThread, Function.update_self]
    rcases hfree with ⟨hfree, hzero⟩ | ⟨hidle, _⟩
    · rcases (stepThread_free hfree hown.run).goes with ⟨hfree', hsame, _⟩ | ⟨hidle, hresult, _⟩
      · exact Or.inl ⟨hfree', hsame.trans hzero⟩
      · exact Or.inr ⟨hidle, hresult.trans hzero⟩
    · exact absurd hidle hown.busy
  · intro sys G sys' G' _ _ _ hfree hby
    rw [hby.pc, hby.result]
    exact hfree

theorem Returns.realloc_contract {ptr n : Nat} (h : Returns ps t (.realloc ptr n) sys₀ sys p)
    (hr : Reachable ps sys₀) : MeetsContract sys.store (.realloc ptr n) p := by
  obtain ⟨G, hinv⟩ := (h.during.reachable hr).inv
  obtain ⟨hword, hptr⟩ : n < 2 ^ 64 ∧ (ptr = 0 ∨ ∃ g, sys₀.store.grants ptr = some g ∧
    g.holder = .client) := h.during.allowed.2.2
  by_cases hnull : ptr = 0
  · have hentry : enter ps sys₀.store (.realloc ptr n) = hmMalloc ps ⟨n, false, none⟩ :=
      if_pos hnull
    exact h.malloc_contract hr hentry hword rfl rfl
  by_cases hn : n = 0
  · have hentry : enter ps sys₀.store (.realloc ptr n) = .goto (.free ptr 0) :=
      (if_neg hnull).trans (if_pos hn)
    rcases h.during.freed hr hentry with ⟨hfree, _⟩ | ⟨_, hzero⟩
    · rw [h.idle] at hfree
      cases hfree
    · exact Or.inl (h.result.symm.trans hzero)
  obtain ⟨g, hg, hh⟩ := hptr.resolve_left hnull
  by_cases hp : p = 0
  · exact Or.inl hp
  rcases h.during.realloc_cases hr (Nat.pos_of_ne_zero hn) hg with
    ⟨hkeeps, hentry⟩ | hentry | ⟨pc, goal, hm⟩
  · obtain ⟨hresult, hstore⟩ := h.during.kept hnull hg hentry
    obtain rfl : p = ptr := h.result.symm.trans hresult
    have hg' : sys.store.grants p = some { g with size := n } := by
      rw [hstore]
      exact Function.update_self ..
    exact hinv.data.inv.contract hg' hh (hinv.data.inv.grant_aligned hg') hkeeps.1
  · exact absurd (h.result.symm.trans (h.during.refused hentry).1.result) hp
  · have hobt := h.obtained hr hp hm.entry hm.asks
    exact hobt.contract hinv.data.inv (by rw [hm.request]; rfl) (Or.inl rfl)

/-- What an allocation call returns meets its contract. -/
theorem Returns.contract (h : Returns ps t call sys₀ sys p) (hr : Reachable ps sys₀)
    (hcall : ∀ ptr, call ≠ .free ptr) : MeetsContract sys.store call p := by
  cases call with
  | malloc size => exact h.malloc_contract hr rfl h.during.allowed.2.2 rfl rfl
  | calloc nmemb size => exact h.calloc_contract hr
  | realloc ptr size => exact h.realloc_contract hr
  | alignedAlloc alignment size => exact h.aligned_contract hr
  | free ptr => exact absurd rfl (hcall ptr)

end Calls

/-- Running out of memory does not crash an allocation call, as long as the heap
of the thread can be mapped. From every reachable state, for every thread, every
allocation call and whatever the kernel answers: in every state of the call the
thread can take its next step, without a read through a null pointer, unless it
has no heap and `heap_create` gets no memory, or the region registry does not
return; what the call returns is null or meets the contract; and the call does
return, unless it is left without a turn or its compare-exchange always fails. -/
theorem out_of_memory_handled (ps : PageSize) {sys₀ : System} (hr : Reachable ps sys₀) (t : Nat)
    (call : Call) (hcall : ∀ ptr, call ≠ .free ptr) :
    (∀ sys, During ps t call sys₀ sys → (sys.threads t).pc ≠ .idle →
      ∀ o, StepOk ps o sys.store (sys.threads t) →
        ¬ HeapRefused ps o sys.store t (sys.threads t) →
        ¬ RegistryStuck ps o sys.store (sys.threads t).pc →
        ∃ sys', Step ps sys (.step t o) sys') ∧
    (∀ sys p, Returns ps t call sys₀ sys p → MeetsContract sys.store call p) ∧
    (∀ (run : Nat → System) (label : Nat → Label), During ps t call sys₀ (run 0) →
      (∀ n, Step ps (run n) (label n) (run (n + 1))) →
      (∀ n, ((run n).threads t).pc ≠ .idle) →
      ∃ m, ∀ n, m ≤ n → ∀ o, label n = .step t o →
        Retries ((run n).threads t).pc ((run (n + 1)).threads t).pc) := by
  refine ⟨fun sys h hbusy o hok hheap hreg => ?_, fun sys p h => h.contract hr hcall,
    fun run label h hrun hbusy => h.returns hr rfl hrun hbusy⟩
  obtain ⟨G, r, hinv, hat⟩ := h.callAt hr
  exact hinv.advances (hat.busy hbusy) hok hreg hheap

/-- A second `hm_malloc` of 16 bytes needs no memory of the kernel. -/
theorem out_of_memory_handled_second : ∃ sys₀ sys sys', Reachable page4k sys₀ ∧
    During page4k 0 (.malloc 16) sys₀ sys ∧ (sys.threads 0).pc ≠ .idle ∧
    Step page4k sys (.step 0 ⟨none, [], false⟩) sys' ∧ Returns page4k 0 (.malloc 16) sys₀ sys'
      (sys'.threads 0).result ∧
    MeetsContract sys'.store (.malloc 16) (sys'.threads 0).result := by
  have hrun : callSchedule page4k 0 (.malloc 16) (firstMalloc 0 16) [] (fun _ sys =>
      (sys.threads 0).pc == .small ⟨16, false, none⟩ 0 && (sys.threads 0).heap != none &&
        (exec page4k sys (.step 0 ⟨none, [], false⟩)).any (fun sys' =>
          (sys'.threads 0).pc == .idle)) = true := by
    decide +kernel
  obtain ⟨sys₀, sys, hr, hd, hcheck⟩ := callSchedule_during hrun
  simp only [Bool.and_eq_true, beq_iff_eq, bne_iff_ne, Option.any_eq_true] at hcheck
  obtain ⟨⟨hpc, hheap⟩, sys₁, hexec, hidle⟩ := hcheck
  have hbusy : (sys.threads 0).pc ≠ .idle := by
    rw [hpc]
    simp
  obtain ⟨hgo, hcontract, _⟩ := out_of_memory_handled page4k hr 0 (.malloc 16) (by simp)
  obtain ⟨sys', hstep⟩ := hgo sys hd hbusy ⟨none, [], false⟩
    (by simp only [StepOk, hpc]; exact fun hnone => absurd hnone hheap)
    (fun hrefused => hheap hrefused.2.1) (by rw [hpc]; exact id)
  obtain rfl : sys₁ = sys' := Option.some.inj (hexec.symm.trans hstep.2)
  have hret : Returns page4k 0 (.malloc 16) sys₀ sys₁ (sys₁.threads 0).result :=
    ⟨hd.step hbusy hstep, hidle, rfl⟩
  exact ⟨sys₀, sys, sys₁, hr, hd, hbusy, hstep, hret, hcontract sys₁ _ hret⟩

/-- The first `hm_malloc` of a thread, when the kernel has no memory for its
heap: `heap_malloc` reads through a null pointer. -/
theorem heap_malloc_reads_null : ∃ sys₀ sys, Reachable page4k sys₀ ∧
    During page4k 0 (.malloc 16) sys₀ sys ∧ (sys.threads 0).pc = .small ⟨16, false, none⟩ 0 ∧
    StepOk page4k ⟨none, [], false⟩ sys.store (sys.threads 0) ∧
    stepThread page4k ⟨none, [], false⟩ sys.store 0 (sys.threads 0) = none := by
  have hrun : callSchedule page4k 0 (.malloc 16) [.spawn 0] [] (fun _ sys =>
      (sys.threads 0).pc == .small ⟨16, false, none⟩ 0 && (sys.threads 0).heap == none &&
        (stepThread page4k ⟨none, [], false⟩ sys.store 0 (sys.threads 0)).isNone) = true := by
    decide +kernel
  obtain ⟨sys₀, sys, hr, hd, hcheck⟩ := callSchedule_during hrun
  simp only [Bool.and_eq_true, beq_iff_eq, Option.isNone_iff_eq_none] at hcheck
  obtain ⟨⟨hpc, hheap⟩, hnull⟩ := hcheck
  refine ⟨sys₀, sys, hr, hd, hpc, ?_, hnull⟩
  simp only [StepOk, hpc]
  intro _ base hbase
  cases hbase

end HMalloc
