import HMalloc.Safety
import HMalloc.Schedule

/-!
What a heap keeps. Behind the head of a class list no page is drained, and a
class list is never longer than the largest number of blocks the class has had
in use at one time makes necessary.
-/

namespace HMalloc

open Bytes Linked

section Drained

variable {ps : PageSize} {s : Store} {G : Ghost}

/-- All blocks of the pages `l` have been freed, and no freed block waits on a
`thread_free` list. -/
def Drained (s : Store) (l : List PageId) : Prop :=
  (∀ p g pg i, s.grants p = some g → g.origin = .small pg i → pg ∉ l) ∧
    ∀ pg ∈ l, s.page.threadFree pg = 0

/-- A page whose blocks have all come back counts none in use. -/
theorem Inv.used_of_drained (hinv : Inv ps s G) {k c : Nat} {pg : PageId} (hpg : pg ∈ G.cls k c)
    (hout : ∀ p g i, s.grants p = some g → g.origin ≠ .small pg i)
    (hremote : s.page.threadFree pg = 0) : s.page.used pg = 0 := by
  obtain ⟨hp, hloc⟩ := (hinv.lists.places.cls k c pg).mp hpg
  have hok := (hinv.pages pg hp).loc
  rw [LocOk, hloc] at hok
  obtain ⟨_, _, hserve⟩ := hok
  have hnone : (G.page pg).out = [] := by
    rw [List.eq_nil_iff_forall_not_mem]
    intro p hmem
    obtain ⟨g, i, hg, ho⟩ := hinv.grants.out pg p hp hmem
    exact hout p g i hg ho
  have hempty : (G.page pg).remote = [] := by
    have hchain : Chain (link s.os.mem) (ptr (s.page.threadFree pg)) (G.page pg).remote :=
      hserve.remote
    rw [hremote, ptr_zero] at hchain
    exact Chain.nil_of_none hchain
  have hused : s.page.used pg = (G.page pg).out.length + (G.page pg).remote.length := hserve.used
  rw [hused, hnone, hempty]
  rfl

/-- Behind the head of a class list every page has blocks in use. So a class
all of whose blocks have been freed keeps at most one page. -/
theorem drained_pages_leave {sys : System} (h : Reachable ps sys) {t k : Nat}
    (hidle : (sys.threads t).pc = .idle) (hheap : (sys.threads t).heap = some k) (c : Nat) :
    ∃ l, sys.store.ClassList k c l ∧ (∀ pg ∈ l.tail, 0 < sys.store.page.used pg) ∧
      (Drained sys.store l → l.length ≤ 1) := by
  obtain ⟨G, hG⟩ := h.inv
  have hserve : Serving sys.store G k none := (hG.threads t).lists_at hidle rfl hheap
  have htail : ∀ pg ∈ (G.cls k c).tail, 0 < sys.store.page.used pg :=
    fun pg hpg => Nat.pos_of_ne_zero (hserve.occupied c pg hpg (by simp))
  refine ⟨G.cls k c, hserve.lists c, htail, ?_⟩
  rintro ⟨hout, hremote⟩
  -- A second page would be drained and yet have blocks in use.
  by_contra hlong
  obtain ⟨pg, hpg⟩ := List.exists_mem_of_length_pos (l := (G.cls k c).tail)
    (by rw [List.length_tail]; omega)
  have hmem := List.mem_of_mem_tail hpg
  have hzero := hG.data.inv.used_of_drained hmem
    (fun p g i hg ho => hout p g pg i hg ho hmem) (hremote pg hmem)
  exact absurd (htail pg hpg) (by omega)

/-- Five requests of 16384 bytes. A page has four such blocks, so that the fifth
request takes a second page. -/
def fiveRequests : List Act :=
  firstMalloc 0 16384 ++
    [.call 0 (.malloc 16384), .step 0 false, .step 0 false,
      .call 0 (.malloc 16384), .step 0 false, .step 0 false,
      .call 0 (.malloc 16384), .step 0 false, .step 0 false,
      .call 0 (.malloc 16384), .step 0 false, .step 0 false, .step 0 false]

set_option maxRecDepth 2000

/-- After the fifth request the class has a second page, and the full one behind it
is not drained. -/
theorem drained_pages_leave_fifth : ∃ (sys : System) (k : Nat) (l : List PageId),
    Reachable page4k sys ∧ (sys.threads 0).pc = .idle ∧ (sys.threads 0).heap = some k ∧
      sys.store.ClassList k 35 l ∧ l = [⟨2 ^ 43, 62⟩, ⟨2 ^ 43, 63⟩] ∧
      (∀ pg ∈ l.tail, 0 < sys.store.page.used pg) ∧ ¬ Drained sys.store l := by
  obtain ⟨sys, hreach, hcheck⟩ := schedule_reachable page4k fiveRequests
    (fun sys => (sys.threads 0).pc == .idle && (sys.threads 0).heap == some (3 * 2 ^ 40) &&
      sys.store.classHead (3 * 2 ^ 40) 35 == some ⟨2 ^ 43, 62⟩ &&
      sys.store.page.next ⟨2 ^ 43, 62⟩ == some ⟨2 ^ 43, 63⟩ &&
      sys.store.page.next ⟨2 ^ 43, 63⟩ == none)
    (by decide +kernel)
  simp only [Bool.and_eq_true, beq_iff_eq] at hcheck
  obtain ⟨⟨⟨⟨hidle, hheap⟩, hhead⟩, hnext⟩, hlast⟩ := hcheck
  obtain ⟨l, hl, htail, hdrained⟩ := drained_pages_leave hreach hidle hheap 35
  obtain rfl : l = [⟨2 ^ 43, 62⟩, ⟨2 ^ 43, 63⟩] := hl.toChain.unique ⟨hhead, hnext, hlast⟩
  exact ⟨sys, _, _, hreach, hidle, hheap, hl, rfl, htail,
    fun h => absurd (hdrained h) (by decide)⟩

end Drained

section Peak

/-- A heap is mapped at `h`. -/
def Store.hasHeap (s : Store) (h : Nat) : Bool :=
  (s.os.regions h).any (fun r => match r.purpose with
    | .heap _ => true
    | _ => false)

/-- All states of a run so far, the latest first. -/
abbrev History (ps : PageSize) : System → List System → Prop :=
  Recorded ps (fun _ _ => True) (fun run _ _ sys => sys :: run) [System.init]

/-- The states since the heap at `h` was created. -/
def lifetime (h : Nat) (run : List System) : List System :=
  run.takeWhile (fun sys => sys.store.hasHeap h)

/-- The sum of `used` over the pages of class `c` of heap `h` is `n`. -/
def InUse (s : Store) (h c n : Nat) : Prop :=
  ∃ l, s.ClassList h c l ∧ (l.map s.page.used).sum = n

/-- The blocks in use along a list of at most `n` pages. -/
def countUsed (s : Store) : Nat → Option PageId → Option Nat
  | _, none => some 0
  | 0, some _ => none
  | n + 1, some pg => (countUsed s n (s.page.next pg)).map (s.page.used pg + ·)

theorem countUsed_eq {s : Store} {n m : Nat} {head : Option PageId} {l : List PageId}
    (h : countUsed s n head = some m) (hl : Chain s.page.next head l) :
    (l.map s.page.used).sum = m := by
  induction l generalizing n m head with
  | nil =>
      obtain rfl : head = none := hl
      rw [countUsed] at h
      cases h
      rfl
  | cons pg l ih =>
      obtain ⟨rfl, hrest⟩ := hl
      cases n with
      | zero => cases h
      | succ n =>
          simp only [countUsed, Option.map_eq_some_iff] at h
          obtain ⟨k, hk, rfl⟩ := h
          rw [List.map_cons, List.sum_cons, ih hk hrest]

/-- The number of pages that hold `n` blocks of class `c`. -/
def pagesFor (c n : Nat) : Nat :=
  (n + (pageSize / classToSize c - 1)) / (pageSize / classToSize c)

/-- One block more than `m` full pages needs another page. -/
theorem succ_le_pagesFor {c m n : Nat} (hc : c < numSizeClasses)
    (h : m * (pageSize / classToSize c) + 1 ≤ n) : m + 1 ≤ pagesFor c n := by
  have hpos := classCapacity_pos hc
  unfold pagesFor
  rw [Nat.le_div_iff_mul_le hpos, Nat.add_mul, Nat.one_mul]
  omega

variable {ps : PageSize} {sys sys' : System} {G G' : Ghost}

theorem SysInv.hasHeap (h : SysInv ps sys G) {k c : Nat} (hne : G.cls k c ≠ []) :
    sys.store.hasHeap k = true := by
  obtain ⟨t, size, hregion⟩ := h.data.homes k c hne
  simp [Store.hasHeap, hregion]

/-- The class lists are within the peaks of the run. -/
def WithinPeaks (G : Ghost) (run : List System) : Prop :=
  ∀ k c, c < numSizeClasses → ∀ peak,
    (∀ sys ∈ lifetime k run, ∀ n, InUse sys.store k c n → n ≤ peak) →
    (G.cls k c).length ≤ pagesFor c peak

theorem WithinPeaks.step {run : List System} (h : WithinPeaks G run) (hinv : SysInv ps sys' G')
    (hgrow : Growth G sys'.store G') : WithinPeaks G' (sys' :: run) := by
  intro k c hc peak hpeak
  by_cases hne : G'.cls k c = []
  · rw [hne]
    exact Nat.zero_le _
  have hlife : lifetime k (sys' :: run) = sys' :: lifetime k run :=
    List.takeWhile_cons_of_pos (hinv.hasHeap hne)
  rw [hlife] at hpeak
  rcases hgrow k c with hle | ⟨hlen, hlist, hsum⟩
  · exact hle.trans (h k c hc peak (fun sys₀ hmem => hpeak sys₀ (List.mem_cons_of_mem _ hmem)))
  · -- The list has grown: the state just reached has the blocks that need it.
    have hused := hpeak sys' List.mem_cons_self _ ⟨_, hlist, hsum⟩
    rw [hlen]
    exact succ_le_pagesFor hc hused

theorem History.withinPeaks {run : List System} (h : History ps sys run) :
    ∃ G, SysInv ps sys G ∧ WithinPeaks G run := by
  induction h with
  | init => exact ⟨Ghost.init, SysInv.init ps, fun k c hc peak _ => Nat.zero_le _⟩
  | step _ hstep _ ih =>
      obtain ⟨G, hG, hpeaks⟩ := ih
      obtain ⟨G', hG', hgrow⟩ := hG.step hstep
      exact ⟨G', hG', hpeaks.step hG' hgrow⟩

/-- A class list of a heap has no more pages than the peak number of blocks in
use during the heap's life needs. -/
theorem pages_within_peak {run : List System} (h : History ps sys run) {t k c peak : Nat}
    (hidle : (sys.threads t).pc = .idle) (hheap : (sys.threads t).heap = some k)
    (hc : c < numSizeClasses)
    (hpeak : ∀ sys₀ ∈ lifetime k run, ∀ n, InUse sys₀.store k c n → n ≤ peak) :
    ∃ l, sys.store.ClassList k c l ∧ l.length ≤ pagesFor c peak := by
  obtain ⟨G, hG, hpeaks⟩ := History.withinPeaks h
  have hserve : Serving sys.store G k none := (hG.threads t).lists_at hidle rfl hheap
  exact ⟨G.cls k c, hserve.lists c, hpeaks k c hc peak hpeak⟩

set_option maxRecDepth 2000

/-- At most five blocks of 16384 bytes were in use, and the two pages are what they
need. -/
theorem pages_within_peak_fifth : ∃ (sys : System) (run : List System) (k : Nat),
    History page4k sys run ∧ (sys.threads 0).pc = .idle ∧ (sys.threads 0).heap = some k ∧
      (∀ sys₀ ∈ lifetime k run, ∀ n, InUse sys₀.store k 35 n → n ≤ 5) ∧ pagesFor 35 5 = 2 ∧
      ∃ l, sys.store.ClassList k 35 l ∧ l.length ≤ pagesFor 35 5 := by
  obtain ⟨w, hrun, hcheck⟩ := schedule_reaches (P := fun _ _ => True) page4k (fun _ _ => true)
    (fun run _ _ sys => sys :: run) [System.init] fiveRequests
    (fun w => (w.sys.threads 0).pc == .idle && (w.sys.threads 0).heap == some (3 * 2 ^ 40) &&
      (lifetime (3 * 2 ^ 40) w.log).all fun sys =>
        (countUsed sys.store 2 (sys.store.classHead (3 * 2 ^ 40) 35)).any (· ≤ 5))
    (fun _ _ _ => trivial) (by decide +kernel)
  simp only [Bool.and_eq_true, beq_iff_eq, List.all_eq_true, Option.any_eq_true,
    decide_eq_true_eq] at hcheck
  obtain ⟨⟨hidle, hheap⟩, hused⟩ := hcheck
  have hpeak : ∀ sys₀ ∈ lifetime (3 * 2 ^ 40) w.log, ∀ n, InUse sys₀.store (3 * 2 ^ 40) 35 n →
      n ≤ 5 := by
    rintro sys₀ hmem n ⟨l, hl, rfl⟩
    obtain ⟨m, hm, hle⟩ := hused sys₀ hmem
    rw [countUsed_eq hm hl.toChain]
    exact hle
  exact ⟨w.sys, w.log, _, hrun, hidle, hheap, hpeak, by decide,
    pages_within_peak hrun hidle hheap (by decide) hpeak⟩

end Peak

end HMalloc
