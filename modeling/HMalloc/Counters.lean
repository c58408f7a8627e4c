import HMalloc.Agreement
import HMalloc.Schedule
import HMalloc.Stats

/-!
The call counters of a build with `HMALLOC_STATS`. Each heap counts the calls of
`heap_malloc` made on it, and `hm_stats` adds up the heaps in the registry. The
sum is the number of all calls as long as no heap leaves the registry: a thread
that exits takes its counts with it.
-/

namespace HMalloc

open Bytes Handover

/-- One call of `heap_malloc`. -/
def HeapCounts.one (fast : Bool) : HeapCounts := ⟨1, fast.toNat, (!fast).toNat⟩

/-- The counters of the heaps, and the calls made so far by all threads: all of
them, those served by the fast pop and those that went to
`heap_malloc_slow`. -/
structure CallLog where
  counts : Nat → HeapCounts
  total : HeapCounts

def CallLog.start : CallLog := ⟨fun _ => .zero, .zero⟩

/-- A call of `heap_malloc` on heap `h`. -/
def CallLog.count (log : CallLog) (h : Nat) (fast : Bool) : CallLog where
  counts := Function.update log.counts h ((log.counts h).add (.one fast))
  total := ⟨log.total.nMalloc + 1, log.total.nFast + fast.toNat, log.total.nSlow + (!fast).toNat⟩

/-- What a step does to the counters: `heap_create` makes a heap with zero
counters, and `heap_malloc` counts on the heap it has got. -/
def CallLog.note (log : CallLog) (sys : System) (l : Label) (_ : System) : CallLog :=
  match l with
  | .step t _ =>
      match (sys.threads t).pc, (sys.threads t).heap with
      | .linkHeap _ _ h, _ => { log with counts := Function.update log.counts h .zero }
      | .small _ c, some h => log.count h (sys.store.page.free (sys.store.slot h c) != 0)
      | _, _ => log
  | _ => log

/-- A counter of a heap. -/
inductive Counter where
  | malloc
  | fast
  | slow

def HeapCounts.get (a : HeapCounts) : Counter → Nat
  | .malloc => a.nMalloc
  | .fast => a.nFast
  | .slow => a.nSlow

theorem HeapCounts.get_zero (c : Counter) : HeapCounts.zero.get c = 0 := by
  cases c <;> rfl

theorem HeapCounts.get_add (a b : HeapCounts) (c : Counter) :
    (a.add b).get c = (a.get c + b.get c) % 2 ^ 64 := by
  cases c <;> simp [HeapCounts.add, HeapCounts.get, Word.add]

theorem CallLog.count_total (log : CallLog) (h : Nat) (fast : Bool) (c : Counter) :
    (log.count h fast).total.get c = log.total.get c + (HeapCounts.one fast).get c := by
  cases c <;> rfl

/-- The sum over the heaps in the registry. -/
theorem heapGlobalCounts_get (heaps : List Nat) (counts : Nat → HeapCounts) (c : Counter) :
    (heapGlobalCounts heaps counts).get c =
      (heaps.map (fun h => (counts h).get c)).sum % 2 ^ 64 := by
  have hfold : ∀ (heaps : List Nat) (a : HeapCounts), a.get c < 2 ^ 64 →
      (heaps.foldl (fun sum h => sum.add (counts h)) a).get c =
        (a.get c + (heaps.map (fun h => (counts h).get c)).sum) % 2 ^ 64 := by
    intro heaps
    induction heaps with
    | nil =>
        intro a ha
        exact (Nat.mod_eq_of_lt ha).symm
    | cons h heaps ih =>
        intro a _
        rw [List.foldl_cons, ih _ (by rw [HeapCounts.get_add]; exact Nat.mod_lt _ (by decide)),
          HeapCounts.get_add, List.map_cons, List.sum_cons, Nat.mod_add_mod, Nat.add_assoc]
  unfold heapGlobalCounts
  rw [hfold heaps _ (by rw [HeapCounts.get_zero]; decide), HeapCounts.get_zero, Nat.zero_add]

/-- The heaps in the registry have counted every call. -/
def CallLog.Sums (log : CallLog) (heaps : List Nat) : Prop :=
  ∀ c, (heaps.map (fun h => (log.counts h).get c)).sum ≡ log.total.get c [MOD 2 ^ 64]

theorem CallLog.Sums.count {log : CallLog} {heaps : List Nat} (hsums : log.Sums heaps)
    (hnod : heaps.Nodup) {h : Nat} (hmem : h ∈ heaps) (fast : Bool) :
    (log.count h fast).Sums heaps := by
  intro c
  have hupdate := Count.sum_update hnod hmem (fun h => (log.counts h).get c)
    (((log.counts h).add (.one fast)).get c)
  have hfun : (fun k => ((log.count h fast).counts k).get c) =
      Function.update (fun h => (log.counts h).get c) h
        (((log.counts h).add (.one fast)).get c) := by
    funext k
    by_cases hk : k = h
    · subst hk
      simp [CallLog.count]
    · simp [CallLog.count, Function.update_of_ne hk]
  rw [hfun, CallLog.count_total]
  refine Nat.ModEq.add_right_cancel' ((log.counts h).get c) ?_
  rw [hupdate, HeapCounts.get_add]
  calc (heaps.map fun h => (log.counts h).get c).sum +
        ((log.counts h).get c + (HeapCounts.one fast).get c) % 2 ^ 64
      ≡ log.total.get c + ((log.counts h).get c + (HeapCounts.one fast).get c) [MOD 2 ^ 64] :=
        (hsums c).add (Nat.mod_modEq _ _)
    _ = log.total.get c + (HeapCounts.one fast).get c + (log.counts h).get c := by omega

theorem CallLog.Sums.link {log : CallLog} {heaps : List Nat} (hsums : log.Sums heaps) {h : Nat}
    (hnot : h ∉ heaps) :
    ({ log with counts := Function.update log.counts h .zero } : CallLog).Sums (h :: heaps) := by
  intro c
  have hrest : ∀ k ∈ heaps, ((Function.update log.counts h HeapCounts.zero k).get c) =
      (log.counts k).get c := by
    intro k hk
    have hne : k ≠ h := fun heq => hnot (heq ▸ hk)
    rw [Function.update_of_ne hne]
  simp only [List.map_cons, List.sum_cons, Function.update_self, HeapCounts.get_zero, Nat.zero_add]
  rw [Count.sum_map_congr hrest]
  exact hsums c

/-- No heap leaves the registry in this step. -/
def HeapsKept (sys : System) : Label → Prop
  | .step t _ => (sys.threads t).pc ≠ .unlinkHeap
  | _ => True

section Runs

variable {ps : PageSize} {sys sys' : System} {G : Ghost} {log : CallLog}

/-- What a step does to the heap registry. -/
theorem Effect.heaps {o : Oracle} {s s' : Store} {t : Nat} {th th' : Thread}
    (h : Effect ps o s t th s' th') :
    (∃ q c k, th.pc = .linkHeap q c k ∧ s'.heapRegistry = k :: s.heapRegistry) ∨
      th.pc = .unlinkHeap ∨
      s'.heapRegistry = s.heapRegistry ∧ ∀ q c k, th.pc ≠ .linkHeap q c k := by
  cases h with
  | quiet plain hq _ =>
      refine Or.inr (Or.inr ⟨hq.heaps, fun q c k hpc => ?_⟩)
      have := plain.transit
      simp [Thread.transit, hpc] at this
  | linkHeap hpc => exact Or.inl ⟨_, _, _, hpc, rfl⟩
  | unlinkHeap hpc _ => exact Or.inr (Or.inl hpc)
  | mapHeap hpc _ _ hq | mapSegment hpc _ hq | registerSegment hpc _ hq _ | unmapSegment hpc hq _
  | mapLarge hpc _ hq | registerLarge hpc _ hq _ | unmapLarge hpc hq _ =>
      exact Or.inr (Or.inr ⟨hq.heaps, by simp [hpc]⟩)
  | unregisterSegment hpc _ | dropLarge hpc _ _ | unmapHeap hpc _ =>
      exact Or.inr (Or.inr ⟨rfl, by simp [hpc]⟩)

/-- A heap that its thread is not working on is in the registry. -/
theorem HeapsListed.mem_of_heap (h : HeapsListed sys) (hinv : SysInv ps sys G) {t k : Nat}
    (hhome : (sys.threads t).home = some k) (ht : (sys.threads t).transit = none) :
    k ∈ sys.store.heapRegistry := by
  have hregion := ((hinv.threads t).home k (heapBytes ps)).mpr ⟨rfl, hhome⟩
  refine (h.agree k).mpr ⟨⟨_, hregion, t, rfl⟩, fun u hu => ?_⟩
  cases (hinv.threads u).holding hinv.data.inv hu with
  | heap hh =>
      rw [hregion] at hh
      cases hh
      exact absurd (ht.symm.trans hu) (by simp)
  | segment hh =>
      rw [IsSegment, hregion] at hh
      exact absurd (congrArg Region.purpose (Option.some.inj hh)) (by simp)
  | large hh =>
      rw [hregion] at hh
      exact absurd (congrArg Region.purpose (Option.some.inj hh)) (by simp)

/-- A step that counts is a call of `heap_malloc` on a heap in the registry. -/
theorem CallLog.Sums.step {l : Label} (hsums : log.Sums sys.store.heapRegistry)
    (hinv : SysInv ps sys G) (hlisted : HeapsListed sys) (hstep : Step ps sys l sys')
    (hkept : HeapsKept sys l) : (log.note sys l sys').Sums sys'.store.heapRegistry := by
  by_cases hl : ∃ t o, l = .step t o
  · obtain ⟨t, o, rfl⟩ := hl
    obtain ⟨hok, hrun⟩ := hstep
    obtain ⟨s', th', hthread, rfl⟩ := exec_step hrun
    change (log.note sys _ _).Sums s'.heapRegistry
    rcases (stepThread_effect (StepOk.busy hok) hthread).heaps with
      ⟨q, c, k, hpc, hheaps⟩ | hpc | ⟨hheaps, hnot⟩
    · have htransit : (sys.threads t).transit = some k := by simp [Thread.transit, hpc]
      have hout : k ∉ sys.store.heapRegistry := fun hmem => ((hlisted.agree k).mp hmem).2 t htransit
      rw [hheaps]
      simp only [CallLog.note, hpc]
      exact hsums.link hout
    · exact absurd hpc hkept
    · rw [hheaps]
      unfold CallLog.note
      dsimp only
      split
      · rename_i hpc
        exact absurd hpc (hnot _ _ _)
      · rename_i q c h hpc hheap
        have hhome : (sys.threads t).home = some h :=
          (Thread.home_of_linked (by rw [hpc]; rfl)).trans hheap
        have hmem := hlisted.mem_of_heap hinv hhome (by simp [Thread.transit, hpc])
        exact hsums.count hlisted.nodup hmem _
      · exact hsums
  · push Not at hl
    have hnote : log.note sys l sys' = log := by
      unfold CallLog.note
      split
      · rename_i t o
        exact absurd rfl (hl t o)
      · rfl
    rw [hnote, exec_store hl hstep.2]
    exact hsums

/-- A step raises the totals or leaves them alone. -/
theorem CallLog.note_total (log : CallLog) (sys : System) (l : Label) (sys' : System) :
    (log.note sys l sys').total = log.total ∨
      ∃ h fast, log.note sys l sys' = log.count h fast := by
  unfold CallLog.note
  split
  · split
    · exact Or.inl rfl
    · exact Or.inr ⟨_, _, rfl⟩
    · exact Or.inl rfl
  · exact Or.inl rfl

theorem CallLog.note_get (log : CallLog) (sys : System) (l : Label) (sys' : System) (c : Counter) :
    log.total.get c ≤ (log.note sys l sys').total.get c := by
  rcases log.note_total sys l sys' with hsame | ⟨h, fast, hcount⟩
  · rw [hsame]
  · rw [hcount, CallLog.count_total]
    exact Nat.le_add_right _ _

/-- Every call is served by the fast pop or goes to the slow path. -/
theorem CallLog.note_split (sys : System) (l : Label) (sys' : System)
    (h : log.total.nFast + log.total.nSlow = log.total.nMalloc) :
    (log.note sys l sys').total.nFast + (log.note sys l sys').total.nSlow =
      (log.note sys l sys').total.nMalloc := by
  rcases log.note_total sys l sys' with hsame | ⟨k, fast, hcount⟩
  · rw [hsame]
    exact h
  · rw [hcount]
    cases fast <;> simp only [CallLog.count, Bool.toNat_true, Bool.toNat_false, Bool.not_true,
      Bool.not_false] <;> omega

theorem Recorded.sums (h : Recorded ps HeapsKept CallLog.note .start sys log) :
    log.Sums sys.store.heapRegistry ∧
      log.total.nFast + log.total.nSlow = log.total.nMalloc := by
  induction h with
  | init => exact ⟨fun c => by cases c <;> rfl, rfl⟩
  | step hrun hstep hl ih =>
      have hreach := hrun.reachableBy.reachable
      obtain ⟨G, hinv⟩ := hreach.inv
      exact ⟨ih.1.step hinv hreach.heapsListed hstep hl, CallLog.note_split _ _ _ ih.2⟩

/-- What `hm_stats` reports of a counter. -/
theorem Recorded.reports (h : Recorded ps HeapsKept CallLog.note .start sys log)
    (hlt : log.total.nMalloc < 2 ^ 64) (c : Counter) :
    (heapGlobalCounts sys.store.heapRegistry log.counts).get c = log.total.get c := by
  obtain ⟨hsums, hsplit⟩ := h.sums
  have hle : log.total.get c < 2 ^ 64 := by
    cases c <;> simp only [HeapCounts.get] <;> omega
  rw [heapGlobalCounts_get, hsums c, Nat.mod_eq_of_lt hle]

end Runs

theorem Onward.total_le {ps : PageSize} {P : System → Label → Prop} {log log' : CallLog}
    {sys sys' : System} (h : Onward ps P CallLog.note sys log sys' log') (c : Counter) :
    log.total.get c ≤ log'.total.get c := by
  induction h with
  | refl => exact Nat.le_refl _
  | step _ _ _ ih => exact ih.trans (CallLog.note_get ..)

/-- The call counters report totals while no heap leaves the registry. In every
such run of any number of threads, with less than `2^64` calls of `heap_malloc`
so far: the counters of `hm_stats` are the numbers of all these calls, of those
served by the fast pop and of those that went to `heap_malloc_slow`, and none is
lower in a later state. -/
theorem call_counters_total (ps : PageSize) {sys : System} {log : CallLog}
    (h : Recorded ps HeapsKept CallLog.note .start sys log)
    (hlt : log.total.nMalloc < 2 ^ 64) :
    (hmStats sys.store log.counts).mallocCount = log.total.nMalloc ∧
    (hmStats sys.store log.counts).fastPathCount = log.total.nFast ∧
    (hmStats sys.store log.counts).slowPathCount = log.total.nSlow ∧
    ∀ sys' log', Onward ps HeapsKept CallLog.note sys log sys' log' →
      log'.total.nMalloc < 2 ^ 64 →
      (hmStats sys.store log.counts).mallocCount ≤ (hmStats sys'.store log'.counts).mallocCount ∧
      (hmStats sys.store log.counts).fastPathCount ≤
        (hmStats sys'.store log'.counts).fastPathCount ∧
      (hmStats sys.store log.counts).slowPathCount ≤
        (hmStats sys'.store log'.counts).slowPathCount := by
  refine ⟨h.reports hlt .malloc, h.reports hlt .fast, h.reports hlt .slow, ?_⟩
  intro sys' log' hon hlt'
  have hreports : ∀ c, (heapGlobalCounts sys.store.heapRegistry log.counts).get c ≤
      (heapGlobalCounts sys'.store.heapRegistry log'.counts).get c := by
    intro c
    rw [h.reports hlt c, (hon.recorded h).reports hlt' c]
    exact hon.total_le c
  exact ⟨hreports .malloc, hreports .fast, hreports .slow⟩

/-- The condition of a run, as a check of a computed one. -/
def keepsHeaps {σ : Type} (w : World σ) (a : Act) : Bool :=
  match a with
  | .step t _ => (w.sys.threads t).pc != .unlinkHeap
  | _ => true

theorem keepsHeaps_ok {σ : Type} {w : World σ} {a : Act} (h : keepsHeaps w a = true) :
    HeapsKept w.sys (a.label w) := by
  cases a with
  | step t maps =>
      simp only [keepsHeaps, bne_iff_ne] at h
      exact h
  | spawn | call | guardExit | finish => trivial

/-- Two calls of a thread, the second one served by the fast pop. -/
theorem call_counters_total_two : ∃ sys log, Recorded page4k HeapsKept CallLog.note .start sys log ∧
    (hmStats sys.store log.counts).mallocCount = 2 ∧
    (hmStats sys.store log.counts).fastPathCount = 1 ∧
    (hmStats sys.store log.counts).slowPathCount = 1 := by
  obtain ⟨w, hrun, hcheck⟩ := schedule_reaches page4k keepsHeaps CallLog.note .start
    (firstMalloc 0 16 ++ [.call 0 (.malloc 16), .step 0 false])
    (fun w => w.log.total == ⟨2, 1, 1⟩) (fun _ _ => keepsHeaps_ok) (by decide +kernel)
  have htotal : w.log.total = ⟨2, 1, 1⟩ := eq_of_beq hcheck
  obtain ⟨hmalloc, hfast, hslow, _⟩ := call_counters_total page4k hrun (by rw [htotal]; decide)
  rw [htotal] at hmalloc hfast hslow
  exact ⟨w.sys, w.log, hrun, hmalloc, hfast, hslow⟩

/-- A thread makes one call and exits: `hm_stats` reports one call before and none
after. -/
theorem exit_lowers_counters : ∃ sys log sys' log',
    Recorded page4k (fun _ _ => True) CallLog.note .start sys log ∧
    (∀ t, (sys.threads t).pc = .idle) ∧ (hmStats sys.store log.counts).mallocCount = 1 ∧
    Onward page4k (fun _ _ => True) CallLog.note sys log sys' log' ∧
    (∀ t, (sys'.threads t).pc = .idle) ∧ log'.total.nMalloc = 1 ∧
    (hmStats sys'.store log'.counts).mallocCount = 0 := by
  have hrun : ((schedule page4k (fun _ _ => true) CallLog.note (firstMalloc 0 16)
      (World.init .start)).any fun w₁ => w₁.quiet (firstMalloc 0 16) &&
        (hmStats w₁.sys.store w₁.log.counts).mallocCount == 1 &&
        (schedule page4k (fun _ _ => true) CallLog.note (exitActs 0) w₁).any fun w₂ =>
          w₂.quiet (exitActs 0) && w₂.log.total.nMalloc == 1 &&
            (hmStats w₂.sys.store w₂.log.counts).mallocCount == 0) = true := by
    decide +kernel
  simp only [Option.any_eq_true, Bool.and_eq_true, beq_iff_eq] at hrun
  obtain ⟨w₁, hfirst, ⟨hquiet₁, hone⟩, w₂, hsecond, ⟨hquiet₂, htotal⟩, hzero⟩ := hrun
  have hinit : Recorded page4k (fun _ _ => True) CallLog.note .start System.init .start := .init
  obtain ⟨hb, hrec⟩ := schedule_recorded (fun _ _ _ => trivial) (fun x hx => by cases hx) hinit
    hfirst
  have hidle := World.quiet_idle hfirst (fun _ => rfl) hquiet₁
  obtain ⟨_, hon⟩ := schedule_induct
    (R := fun w => Onward page4k (fun _ _ => True) CallLog.note w₁.sys w₁.log w.sys w.log)
    (fun _ _ _ _ h _ hstep => .step h hstep trivial) hb .refl hsecond
  exact ⟨w₁.sys, w₁.log, w₂.sys, w₂.log, hrec, hidle, hone, hon,
    World.quiet_idle hsecond hidle hquiet₂, htotal, hzero⟩

end HMalloc
