import HMalloc.AtomicHeap
import HMalloc.Quiescence

/-!
The allocator as its clients see it, and the refinement mapping to the atomic
heap (`System.atomic`): the blocks are read off the pointers that are handed out,
with their contents in memory, and the state of each call off the program
counter.
-/

namespace HMalloc

open Bytes Linked

/-- A pointer that is handed out is a block of the atomic heap from the moment the
call that allocates it has acted to the moment it is passed to a free. -/
def Grant.shown (threads : Nat → Thread) (g : Grant) : Bool :=
  match g.holder with
  | .client | .moving _ => true
  | .freeing _ => false
  | .fresh t => (threads t).pc.isFree

def Grant.block (g : Grant) (mem : Mem) (p : Nat) : Block :=
  ⟨g.size, (List.range g.usable).map fun i => mem (p + i)⟩

def System.block (sys : System) (p : Nat) : Option Block :=
  (sys.store.grants p).bind fun g =>
    if g.shown sys.threads then some (g.block sys.store.os.mem p) else none

def Thread.phase (th : Thread) : Phase :=
  match th.pc.goal, th.call with
  | some _, some call => .asked call
  | _, _ => if th.pc.isFree then .answered th.pc.returns else .idle

/-- The refinement mapping. -/
def System.atomic (sys : System) : AtomicHeap := ⟨sys.block, fun t => (sys.threads t).phase⟩

/-- The thread is in a call of its client, not in the destructor of its
`HeapGuard`. -/
def Pc.inCall (pc : Pc) : Bool := pc.goal.isSome || pc.isFree

/-- The call of thread `t` has returned. -/
def System.returned (sys : System) (t : Nat) : List Event :=
  if (sys.threads t).pc = .idle then [.ret t (sys.threads t).result] else []

/-- What clients see of a step. -/
def events (sys : System) (l : Label) (sys' : System) : List Event :=
  match l with
  | .call t call => .call t call :: sys'.returned t
  | .step t _ => if (sys.threads t).pc.inCall then sys'.returned t else []
  | .write p i v => [.write p i v]
  | _ => []

/-- The allocator, as its clients see it. -/
def allocator (ps : PageSize) : Refinement.Machine System Event where
  start := System.init
  step := fun sys es sys' => ∃ l, Step ps sys l sys' ∧ es = events sys l sys'

section Mapping

variable {sys sys' : System} {t p : Nat} {g g' : Grant} {mem mem' : Mem} {s' : Store}
  {th th' : Thread}

@[simp] theorem Grant.block_size : (g.block mem p).size = g.size := rfl

@[simp] theorem Grant.block_length : (g.block mem p).bytes.length = g.usable := by
  simp [Grant.block]

theorem Grant.block_getD {i : Nat} (hi : i < g.usable) :
    (g.block mem p).bytes.getD i 0 = mem (p + i) := by
  simp [Grant.block, hi]

theorem Grant.block_congr (hsize : g'.size = g.size) (husable : g'.usable = g.usable)
    (hmem : ∀ i < g.usable, mem' (p + i) = mem (p + i)) : g'.block mem' p = g.block mem p := by
  unfold Grant.block
  rw [hsize, husable]
  refine congrArg _ (List.map_congr_left fun i hi => hmem i (List.mem_range.mp hi))

theorem System.block_shown (hg : sys.store.grants p = some g) (hs : g.shown sys.threads = true) :
    sys.block p = some (g.block sys.store.os.mem p) := by
  simp [System.block, hg, hs]

theorem System.block_hidden (hg : ∀ g, sys.store.grants p = some g → g.shown sys.threads = false) :
    sys.block p = none := by
  unfold System.block
  cases h : sys.store.grants p with
  | none => rfl
  | some g => simp [hg g h]

theorem System.block_eq_some {b : Block} (h : sys.block p = some b) :
    ∃ g, sys.store.grants p = some g ∧ g.shown sys.threads = true ∧
      b = g.block sys.store.os.mem p := by
  unfold System.block at h
  rw [Option.bind_eq_some_iff] at h
  obtain ⟨g, hg, h⟩ := h
  split at h
  · rename_i hs
    exact ⟨g, hg, hs, (Option.some.inj h).symm⟩
  · cases h

/-- A block is as it was. -/
theorem System.block_eq (hg : sys'.store.grants p = sys.store.grants p)
    (hshown : ∀ g, sys.store.grants p = some g → g.shown sys'.threads = g.shown sys.threads)
    (hbytes : ∀ g, sys.store.grants p = some g → g.shown sys.threads = true →
      ∀ i < g.usable, sys'.store.os.mem (p + i) = sys.store.os.mem (p + i)) :
    sys'.block p = sys.block p := by
  cases h : sys.store.grants p with
  | none =>
      unfold System.block
      rw [hg, h]
      rfl
  | some g =>
      cases hs : g.shown sys.threads with
      | true =>
          rw [System.block_shown h hs,
            System.block_shown (hg.trans h) ((hshown g h).trans hs)]
          exact congrArg some (Grant.block_congr rfl rfl (hbytes g h hs))
      | false =>
          have hbefore : sys.block p = none := by
            refine System.block_hidden fun g₁ hg₁ => ?_
            cases h.symm.trans hg₁
            exact hs
          rw [hbefore]
          refine System.block_hidden fun g₁ hg₁ => ?_
          cases h.symm.trans (hg.symm.trans hg₁)
          exact (hshown g h).trans hs

/-- A step of thread `t` shows and hides only what the thread has obtained. -/
theorem Grant.shown_setThread
    (h : g.holder = .fresh t → th'.pc.isFree = (sys.threads t).pc.isFree) :
    g.shown (sys.setThread t s' th').threads = g.shown sys.threads := by
  unfold Grant.shown
  cases hh : g.holder with
  | client | moving | freeing => rfl
  | fresh u =>
      by_cases hu : u = t
      · subst hu
        simp only [System.setThread, Function.update_self]
        exact h hh
      · simp only [System.setThread, Function.update_of_ne hu]

theorem Pc.goal_of_isFree {pc : Pc} (h : pc.isFree = true) : pc.goal = none := by
  cases pc with
  | unregisterSegment b after | unmapSegment b after => cases after <;> first | rfl | cases h
  | free | remote | release | unmapLarge => rfl
  | idle | small | linkHeap | walk | acquire | sweep | mapSegment | registerSegment | large
  | registerLarge | destroy | hand | unlinkHeap | unmapHeap => cases h

theorem Pc.isFree_of_goal {pc : Pc} {goal : Goal} (h : pc.goal = some goal) :
    pc.isFree = false := by
  by_contra hfree
  rw [Pc.goal_of_isFree (by simpa using hfree)] at h
  cases h

theorem Thread.phase_asked {goal : Goal} {call : Call} (hgoal : th.pc.goal = some goal)
    (hcall : th.call = some call) : th.phase = .asked call := by
  unfold Thread.phase
  rw [hgoal, hcall]

theorem Thread.phase_free (h : th.pc.isFree = true) : th.phase = .answered th.pc.returns := by
  unfold Thread.phase
  rw [Pc.goal_of_isFree h]
  exact if_pos h

theorem Thread.phase_idle (hgoal : th.pc.goal = none) (hfree : th.pc.isFree = false) :
    th.phase = .idle := by
  unfold Thread.phase
  rw [hgoal, hfree]
  rfl

theorem System.phase_setThread (sys : System) (t : Nat) (s' : Store) (th' : Thread) :
    (fun u => ((sys.setThread t s' th').threads u).phase) =
      Function.update (fun u => (sys.threads u).phase) t th'.phase := by
  funext u
  by_cases hu : u = t
  · subst hu
    simp [System.setThread]
  · simp [System.setThread, Function.update_of_ne hu]

/-- The mapping after a step of thread `t`. -/
theorem System.atomic_setThread {blocks : Nat → Option Block}
    (hblocks : ∀ p, (sys.setThread t s' th').block p = blocks p) :
    (sys.setThread t s' th').atomic = ⟨blocks, Function.update sys.atomic.phase t th'.phase⟩ :=
  AtomicHeap.ext (funext hblocks) (System.phase_setThread ..)

/-- A step that is none of the atomic heap. -/
theorem System.atomic_same (hblocks : ∀ p, (sys.setThread t s' th').block p = sys.block p)
    (hphase : th'.phase = (sys.threads t).phase) :
    (sys.setThread t s' th').atomic = sys.atomic := by
  rw [System.atomic_setThread hblocks, hphase]
  exact AtomicHeap.ext rfl (Function.update_eq_self ..)

end Mapping

section Calls

variable {ps : PageSize} {o : Oracle} {s s' : Store} {t : Nat} {th th' : Thread} {call : Call}
  {goal : Goal}

theorem stepAfter_call {after : After} (h : stepAfter s th after = some (s', th')) :
    th'.call = th.call := by
  cases after with
  | freed | sweeping =>
      cases h
      rfl
  | destroying c next =>
      simp only [stepAfter, Option.bind_eq_bind, Option.bind_eq_some_iff] at h
      obtain ⟨k, _, h⟩ := h
      obtain ⟨slot, pc, heq, _⟩ := destroyNext_shape
        { s with central := { s.central with mtx := none } } th k c next
      cases heq.symm.trans (Option.some.inj h)
      rfl

theorem afterPool_call {dead : Option Nat} {after : After}
    (h : afterPool s t th dead after = some (s', th')) : th'.call = th.call := by
  cases dead with
  | none => exact stepAfter_call h
  | some b =>
      cases h
      rfl

theorem deliver_call (q : Request) (b usable : Nat) (origin : Origin) :
    (deliver s t th q b usable origin).2.call = th.call := by
  unfold deliver
  cases q.old <;> rfl

theorem failAlloc_call (q : Request) : (failAlloc s th q).2.call = th.call := by
  rw [(failAlloc_eq s th q).2]
  rfl

theorem AcquireEnd.call_eq {q : Request} {c : Nat} (h : AcquireEnd s t th q c s' th') :
    th'.call = th.call := by
  cases h with
  | served => exact deliver_call ..
  | failed => exact failAlloc_call _

/-- A thread remembers its call. -/
theorem stepThread_call (hrun : stepThread ps o s t th = some (s', th')) :
    th'.call = th.call := by
  cases stepThread_cases hrun with
  | serve | walkServe | registerLarge => exact deliver_call ..
  | acquire _ _ hend | sweepAcquire _ _ _ hend | registerSegment _ _ hend => exact hend.call_eq
  | segmentRefused | largeRefused => exact failAlloc_call _
  | unmapSegment _ hafter | handAbandon _ _ hafter => exact stepAfter_call hafter
  | release _ _ _ hafter | handRelease _ _ _ hafter => exact afterPool_call hafter
  | idle | createHeap | enterWalk | enterAcquire | linkHeap | walkNext | walkEnd | lock | sweepOn
  | sweepDrop | sweepMap | mapSegment | unregisterSegment | mapLarge | dropLarge | freeLocal
  | freeDrained | freeRemote | exchange | retry | unmapLarge | destroy | unlinkHeap | unmapHeap =>
      rfl

theorem During.call_eq {sys₀ sys : System} (h : During ps t call sys₀ sys) :
    (sys.threads t).call = some call := by
  induction h with
  | start hstep =>
      have hrun := hstep.2
      rw [exec_call] at hrun
      cases hrun
      simp only [System.setThread, Function.update_self]
      cases enter ps sys₀.store call <;> rfl
  | @step sys sys' l _ hbusy hstep ih =>
      by_cases hl : l.thread = some t
      · cases l with
        | spawn u | finish u =>
            obtain rfl : u = t := Option.some.inj hl
            have hrun := hstep.2
            cases hrun
            simpa [System.setThread] using ih
        | step u o =>
            obtain rfl : u = t := Option.some.inj hl
            obtain ⟨s', th', hrun, rfl⟩ := exec_step hstep.2
            simp only [System.setThread, Function.update_self]
            exact (stepThread_call hrun).trans ih
        | call u c | guardExit u =>
            obtain rfl : u = t := Option.some.inj hl
            exact absurd hstep.1.2.1 hbusy
        | write | foreignMap | foreignUnmap | foreignWrite => cases hl
      · rw [exec_threads hstep.2 hl]
        exact ih

/-- What an allocation call is after, by the call. -/
structure Entered (call : Call) (goal : Goal) : Prop where
  size : goal.request.size = call.size
  pos : 0 < call.size
  given : goal.request.old.map Prod.fst = call.given
  released : call.released = none
  zeroed : ∀ nmemb n, call = .calloc nmemb n →
    goal.request.clear = true ∨ ∃ q offset mmapSize, goal = .large q offset mmapSize

theorem Asks.request {q : Request} {pc : Pc} (h : Asks q (.goto pc)) (hgoal : pc.goal = some goal) :
    goal.request = q := by
  cases h <;> cases hgoal <;> rfl

theorem hmMalloc_pos {q : Request} {pc : Pc} (h : hmMalloc ps q = .goto pc) : 0 < q.size := by
  unfold hmMalloc at h
  split at h
  · cases h
  · rename_i hne
    omega

/-- A call that is answered by `hm_malloc`. -/
theorem hmMalloc_entered {q : Request} {pc : Pc} (hlt : q.size < 2 ^ 64)
    (hentry : hmMalloc ps q = .goto pc) (hgoal : pc.goal = some goal) (hsize : q.size = call.size)
    (hgiven : q.old.map Prod.fst = call.given) (hreleased : call.released = none)
    (hcalloc : ∀ nmemb n, call ≠ .calloc nmemb n) : Entered call goal := by
  have hasks := hmMalloc_asks ps hlt
  rw [hentry] at hasks
  have hrequest := hasks.request hgoal
  have hpos := hmMalloc_pos hentry
  refine ⟨by rw [hrequest]; exact hsize, by omega, by rw [hrequest]; exact hgiven, hreleased,
    fun nmemb n heq => absurd heq (hcalloc nmemb n)⟩

theorem hmCalloc_entered {nmemb n : Nat} {pc : Pc}
    (hentry : hmCalloc ps nmemb n = .goto pc) (hgoal : pc.goal = some goal) :
    Entered (.calloc nmemb n) goal := by
  by_cases hrefused : nmemb = 0 ∨ n = 0 ∨ sizeMax < nmemb * n
  · rw [hmCalloc_refused ps hrefused] at hentry
    cases hentry
  rw [hmCalloc_exact ps hrefused] at hentry
  push Not at hrefused
  have hpos : 0 < nmemb * n :=
    Nat.mul_pos (Nat.pos_of_ne_zero hrefused.1) (Nat.pos_of_ne_zero hrefused.2.1)
  have hmax : sizeMax = 2 ^ 64 - 1 := rfl
  split at hentry
  · cases hentry
    cases hgoal
    exact ⟨rfl, hpos, rfl, rfl, fun _ _ _ => Or.inl rfl⟩
  · rw [allocLarge_eq .least hpos (show nmemb * n < 2 ^ 64 by omega)] at hentry
    split at hentry
    · cases hentry
      cases hgoal
      exact ⟨rfl, hpos, rfl, rfl, fun _ _ _ => Or.inr ⟨_, _, _, rfl⟩⟩
    · cases hentry

/-- Where an allocation call goes first says what it is after. -/
theorem enter_entered {pc : Pc} (hok : CallOk s call) (hentry : enter ps s call = .goto pc)
    (hgoal : pc.goal = some goal) : Entered call goal := by
  cases call with
  | malloc n =>
      exact hmMalloc_entered (show n < 2 ^ 64 from hok) hentry hgoal rfl rfl rfl (by simp)
  | calloc nmemb n => exact hmCalloc_entered hentry hgoal
  | realloc p n =>
      have hentry' : hmRealloc ps s p n = .goto pc := hentry
      unfold hmRealloc at hentry'
      dsimp only at hentry'
      split at hentry'
      · rename_i hnull
        refine hmMalloc_entered hok.1 hentry' hgoal rfl ?_ ?_ (by simp)
        · simp [Call.given, hnull, ptr]
        · simp [Call.released, hnull, ptr]
      · rename_i hnull
        split at hentry'
        · cases hentry'
          cases hgoal
        · rename_i hn
          split at hentry'
          · cases hentry'
          · refine hmMalloc_entered hok.1 hentry' hgoal rfl ?_ ?_ (by simp)
            · simp [Call.given, ptr_of_ne hnull]
            · simp [Call.released, hn]
  | alignedAlloc alignment n =>
      have hasks : Asks _ (hmAlignedAlloc ps alignment n) := hmAlignedAlloc_asks ps hok.2
      have hentry' : hmAlignedAlloc ps alignment n = .goto pc := hentry
      rw [hentry'] at hasks
      have hrequest := hasks.request hgoal
      have hpos : 0 < n := by
        unfold hmAlignedAlloc at hentry'
        dsimp only at hentry'
        split at hentry'
        · cases hentry'
        · omega
      exact ⟨by rw [hrequest]; rfl, hpos, by rw [hrequest]; rfl, rfl, by simp⟩
  | free p =>
      have hentry' : (if p = 0 then Entry.ret 0 else .goto (.free p 0)) = .goto pc := hentry
      split at hentry'
      · cases hentry'
      · cases hentry'
        cases hgoal

end Calls

end HMalloc
