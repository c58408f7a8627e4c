import HMalloc.AtomicSteps
import HMalloc.Lib.Views
import HMalloc.Ownership
import HMalloc.Realloc
import HMalloc.ThreadExit

/-!
How threads learn of each other's writes. The steps of the model interleave, as if
every load saw the last store. The code asks for less: `Page::owner` is read and
written relaxed, a push to `thread_free` is a release, the exchange that collects it
an acquire, and the rest is under one of three mutexes. `observe` keeps, beside a run,
what each thread must have seen of a set of locations by these orders alone.

Of the program it is assumed that a thread that passes a pointer to `hm_free` or
`hm_realloc` has it, by some synchronisation of its own, from the call that returned
it. Nothing is assumed of a thread's start, or of the kernel.
-/

namespace HMalloc

open Bytes Views

/-- The threads and what they synchronise through: the mutexes of the central heap, the
heap registry and the region registry, a pointer that is passed on, and the list of
blocks freed by other threads of a page. -/
inductive Party where
  | thread (t : Nat)
  | central
  | heaps
  | regions
  | pointer (p : Nat)
  | threadFree (pg : PageId)
  deriving DecidableEq

/-- The steps inside `registry_mtx()`. -/
def Pc.atHeaps : Pc → Bool
  | .linkHeap _ _ _ | .unlinkHeap => true
  | _ => false

/-- The page whose `thread_free` is exchanged for null. A page just taken from the
pool has had null stored there before. -/
def Thread.collects (s : Store) (th : Thread) : Option PageId :=
  match th.pc with
  | .walk _ _ p => if s.page.free p = 0 then some p else none
  | .destroy _ p => some p
  | .sweep _ _ cur => cursorRead s cur
  | _ => none

/-- The page whose `thread_free` gets a block. -/
def Thread.pushes (o : Oracle) (s : Store) (th : Thread) : Option PageId :=
  match th.pc with
  | .remote p head _ =>
      if s.page.threadFree (pageOf p) = head ∧ o.spurious = false then some (pageOf p) else none
  | _ => none

/-- The client has the pointer. -/
def Store.given (s : Store) (p : Nat) : Bool := (s.grants p).any fun g => g.holder == .client

theorem Store.given_iff {s : Store} {p : Nat} :
    s.given p = true ↔ ∃ g, s.grants p = some g ∧ g.holder = .client := by
  unfold Store.given
  cases s.grants p <;> simp

/-- The mutexes the step locks and the exchange with `memory_order_acquire`. -/
def Thread.learns (s : Store) (th : Thread) : List Party :=
  (if th.pc.locks then [.central] else []) ++ (if th.pc.atHeaps then [.heaps] else []) ++
    (if th.atRegions s then [.regions] else []) ++ (th.collects s).toList.map .threadFree

/-- The mutexes the step unlocks, and the pointer it returns. -/
def Thread.tells (t : Nat) (th : Thread) (s s' : Store) : Party → Bool
  | .central => (th.pc.locks || th.pc.locked) && s'.central.mtx != some t
  | .heaps => th.pc.atHeaps
  | .regions => th.atRegions s
  | .pointer p => s'.given p && !s.given p
  | .thread _ | .threadFree _ => false

/-- The compare-exchange with `memory_order_release`. -/
def Thread.adds (o : Oracle) (s : Store) (th : Thread) : Party → Bool
  | .threadFree pg => th.pushes o s == some pg
  | _ => false

/-- The relaxed store of null in `central_acquire_page`. -/
def Thread.clears (s : Store) (th : Thread) : Party → Bool
  | .threadFree pg => th.pageEvent s == some (.take pg)
  | _ => false

/-- The pointer a call is given. -/
def Call.receives : Call → List Party
  | .free p | .realloc p _ => [.pointer p]
  | _ => []

section Observe

variable {ι ν : Type}

/-- The exchange of a step of thread `t`. -/
def Thread.exchange (t : Nat) (o : Oracle) (th : Thread) (s s' : Store) (writes : ι → Option ν) :
    Exchange ι ν Party where
  learns := th.learns s
  writes := writes
  tells := th.tells t s s'
  adds := th.adds o s
  clears := th.clears s

/-- The exchange of the first part of a call. -/
def Call.exchange (call : Call) (writes : ι → Option ν) : Exchange ι ν Party where
  learns := call.receives
  writes := writes
  tells := fun _ => false
  adds := fun _ => false
  clears := fun _ => false

/-- What is known after a label that writes the given locations. -/
def observe (writes : System → Label → System → ι → Option ν) (M : Memory ι ν Party)
    (sys : System) (l : Label) (sys' : System) : Memory ι ν Party :=
  match l with
  | .call t call => M.act (.thread t) (call.exchange (writes sys l sys'))
  | .step t o => M.act (.thread t)
      ((sys.threads t).exchange t o sys.store sys'.store (writes sys l sys'))
  | _ => M

end Observe

section Learns

variable {s s' : Store} {t : Nat} {o : Oracle} {th : Thread}

theorem Thread.learns_central (h : th.pc.locks = true) : .central ∈ th.learns s := by
  simp [Thread.learns, h]

theorem Thread.learns_heaps (h : th.pc.atHeaps = true) : .heaps ∈ th.learns s := by
  simp [Thread.learns, h]

theorem Thread.learns_threadFree {pg : PageId} (h : th.collects s = some pg) :
    .threadFree pg ∈ th.learns s := by
  simp [Thread.learns, h]

end Learns

section Acts

variable {ι ν : Type} {M : Memory ι ν Party} {s s' : Store} {t u : Nat} {o : Oracle} {th : Thread}
  {w : ι → Option ν} {x : ι} {a : Party}

/-- A step of a thread, as its own view has it. -/
theorem Thread.known_self (hM : M.Within) (ha : a = .thread t ∨ a ∈ th.learns s) :
    M.known a x ≤ (M.act (.thread t) (th.exchange t o s s' w)).known (.thread t) x :=
  hM.le_act_self ha

/-- The other threads see nothing of it at once. -/
theorem Thread.known_other (hu : u ≠ t) :
    (M.act (.thread t) (th.exchange t o s s' w)).known (.thread u) x = M.known (.thread u) x :=
  Memory.act_other (fun heq => hu (Party.thread.inj heq)) rfl rfl rfl x

theorem Thread.known_thread (hM : M.Within) (u : Nat) :
    M.known (.thread u) x ≤
      (M.act (.thread t) (th.exchange t o s s' w)).known (.thread u) x := by
  by_cases hu : u = t
  · rw [hu]
    exact Thread.known_self hM (Or.inl rfl)
  · rw [Thread.known_other hu]

theorem Thread.known_heaps (hM : M.Within) :
    M.known .heaps x ≤ (M.act (.thread t) (th.exchange t o s s' w)).known .heaps x :=
  hM.le_act rfl fun h => Thread.learns_heaps h

/-- A pointer that is not returned in the step keeps what it carries. -/
theorem Thread.known_pointer {p : Nat} (h : (s'.given p && !s.given p) = false) :
    (M.act (.thread t) (th.exchange t o s s' w)).known (.pointer p) x = M.known (.pointer p) x :=
  Memory.act_other (by simp) h rfl rfl x

/-- Whoever is told knows what the thread knows. -/
theorem Thread.known_told (h : th.tells t s s' a = true ∨ th.adds o s a = true) :
    (M.act (.thread t) (th.exchange t o s s' w)).known (.thread t) x ≤
      (M.act (.thread t) (th.exchange t o s s' w)).known a x :=
  Memory.after_le_act h

end Acts

/-- Who knows what is known under the lock of the central heap: the thread that has
it, or the mutex. -/
def Central.locker (central : Central) : Party :=
  match central.mtx with
  | none => .central
  | some t => .thread t

/-- Outside the critical section the locker hears of nothing, and forgets nothing. -/
theorem Thread.known_locker {ι ν : Type} {M : Memory ι ν Party} {s s' : Store} {t : Nat}
    {o : Oracle} {th : Thread} {w : ι → Option ν} {x : ι} (hM : M.Within) (central : Central)
    (hlocks : th.pc.locks = false) (hlocked : th.pc.locked = false) :
    M.known central.locker x ≤
      (M.act (.thread t) (th.exchange t o s s' w)).known central.locker x := by
  unfold Central.locker
  cases central.mtx with
  | none =>
      refine Nat.le_of_eq (Memory.act_other (by simp) ?_ rfl rfl x).symm
      simp [Thread.exchange, Thread.tells, hlocks, hlocked]
  | some u => exact Thread.known_thread hM u

/-- Who has a pointer: the thread that works on it, or whoever it is passed to. -/
def Holder.party (p : Nat) : Holder → Party
  | .client => .pointer p
  | .moving t | .freeing t | .fresh t => .thread t

theorem Holder.party_of_thread {holder : Holder} {t : Nat} (h : holder.thread = some t) (p : Nat) :
    holder.party p = .thread t := by
  cases holder with
  | client => cases h
  | moving | freeing | fresh =>
      cases h
      rfl

theorem Holder.client_of_thread {holder : Holder} (h : holder.thread = none) :
    holder = .client := by
  cases holder with
  | client => rfl
  | moving | freeing | fresh => cases h

section Steps

variable {ps : PageSize} {sys sys' : System} {G G' : Ghost} {t u : Nat} {o : Oracle} {s' : Store}
  {th' : Thread} {l : Label}

theorem System.setThread_self : (sys.setThread t s' th').threads t = th' :=
  Function.update_self ..

theorem System.setThread_of_ne (hu : u ≠ t) :
    (sys.setThread t s' th').threads u = sys.threads u :=
  Function.update_of_ne hu ..

/-- Only pages of mapped segments have an owner, in every reachable state. -/
theorem Reachable.ownersListed (h : Reachable ps sys) : OwnersListed sys.store := by
  induction h with
  | init => exact fun pg hne => absurd rfl hne
  | @step sys sys' l hreach hstep ih =>
      obtain ⟨G, hinv⟩ := hreach.inv
      by_cases hthread : ∃ u o, l = .step u o
      · obtain ⟨u, o, rfl⟩ := hthread
        obtain ⟨s', th', G', hown, rfl⟩ := hinv.own_step hstep
        exact ih.step hinv.data (hinv.threads u) hown.ok (stepThread_owner hown.run)
          (stepThread_effect hown.busy hown.run)
      · push Not at hthread
        obtain ⟨hpage, hregions⟩ := hinv.owns_outside hstep hthread
        intro pg hne
        rw [hpage] at hne
        obtain ⟨hseg, hindex⟩ := ih pg hne
        exact ⟨(hregions pg.seg _ (by simp)).mpr hseg, hindex⟩

/-- The pointers of clients are not touched by a step of a thread. -/
theorem OwnStep.client_kept (hown : OwnStep ps t sys G o s' th' G') (hinv : SysInv ps sys G)
    {p : Nat} {g : Grant} (hg : sys.store.grants p = some g) (hh : g.holder = .client) :
    s'.grants p = some g := by
  have hth := hinv.threads t
  cases hgoal : (sys.threads t).pc.goal with
  | some goal =>
      exact (stepThread_alloc hinv.data hth hown.ok hgoal hown.run hown.outcome).client hinv.data
        hth hown.ok hgoal hg hh
  | none =>
      cases hfree : (sys.threads t).pc.isFree with
      | true => exact (stepThread_free hfree hown.run).client hth hg hh
      | false =>
          obtain ⟨hgrants, _⟩ := stepThread_exit hgoal hfree hown.run
          rw [hgrants]
          exact hg

/-- Where a pointer that is live after a step of thread `t` comes from. -/
inductive GrantStep (t : Nat) (th : Thread) (s : Store) (G' : Ghost) (s' : Store) (th' : Thread)
    (p : Nat) (g' : Grant) : Prop where
  | same (h : s.grants p = some g')
  /-- It was the thread's already. -/
  | turned {g : Grant} (h : s.grants p = some g) (hold : g.holder.thread = some t)
  /-- A page of the thread serves it. -/
  | served {k c i : Nat} {pg : PageId} (h : s.grants p = none) (hheap : th.heap = some k)
      (hheap' : th'.heap = some k) (hpg : pg ∈ G'.cls k c) (horigin : g'.origin = .small pg i)
  /-- It lies in a new region. -/
  | mapped {q : Request} {offset size b : Nat} (h : s.grants p = none)
      (hpc' : th'.pc = .registerLarge q offset size b) (horigin : g'.origin = .large b)

theorem setHolder_of_none {grants : Nat → Option Grant} {p : Nat} (h : grants p = none) (x : Nat)
    (holder : Holder) : setHolder grants x holder p = none := by
  by_cases hp : p = x
  · subst hp
    rw [setHolder_self, h]
    rfl
  · rw [setHolder_of_ne _ _ hp, h]

/-- The one pointer that `deliver` makes. -/
theorem deliver_made {s₁ : Store} {th : Thread} {q : Request} {b usable p : Nat} {origin : Origin}
    {g' : Grant} (hnone : s₁.grants p = none)
    (hg' : (deliver s₁ t th q b usable origin).1.grants p = some g') (hold : ∀ old u,
      q.old = some (old, u) → p ≠ old) : p = b ∧ g'.origin = origin := by
  by_cases hp : p = b
  · subst hp
    refine ⟨rfl, ?_⟩
    unfold deliver at hg'
    cases ho : q.old with
    | none =>
        simp only [ho, Function.update_self] at hg'
        cases hg'
        rfl
    | some r =>
        obtain ⟨old, u⟩ := r
        simp only [ho, setHolder_of_ne _ _ (hold old u ho), Function.update_self] at hg'
        cases hg'
        rfl
  · rw [deliver_grants _ _ _ _ _ _ _ hp hold, hnone] at hg'
    cases hg'

/-- The page of a block that a step has served is in a class list. -/
theorem Serving.served_page (h : Serving s' G' u none) (hinv : Inv ps s' G') {c i p : Nat}
    {pg : PageId} {g' : Grant} (hslot : s'.slot u c = pg) (hg' : s'.grants p = some g')
    (horigin : g'.origin = .small pg i) : pg ∈ G'.cls u c := by
  have hne : s'.slot u c ≠ emptyPage := by
    rw [hslot]
    exact (hinv.smallGrant hg' horigin).page.ne_emptyPage hinv.regions
  have hmem := h.head_mem hne
  rwa [hslot] at hmem

theorem OwnStep.grant_new (hown : OwnStep ps t sys G o s' th' G') (hinv : SysInv ps sys G)
    {p : Nat} {g' : Grant} (hnone : sys.store.grants p = none) (hg' : s'.grants p = some g') :
    GrantStep t (sys.threads t) sys.store G' s' th' p g' := by
  have hth := hinv.threads t
  cases hgoal : (sys.threads t).pc.goal with
  | none =>
      have hgone : s'.grants p = none := by
        cases hfree : (sys.threads t).pc.isFree with
        | true => exact (stepThread_free hfree hown.run).gone hth hnone
        | false => rw [(stepThread_exit hgoal hfree hown.run).1, hnone]
      cases hgone.symm.trans hg'
  | some goal =>
      have hold : ∀ old u, goal.request.old = some (old, u) → p ≠ old := by
        rintro old u ho rfl
        obtain ⟨g, hg, _⟩ := hth.old_grant hgoal ho
        cases hnone.symm.trans hg
      cases stepThread_alloc hinv.data hth hown.ok hgoal hown.run hown.outcome with
      | goes _ _ hgrants =>
          rw [hgrants, hnone] at hg'
          cases hg'
      | @maps q offset mmapSize b os _ hpc hmap hmem hgrants =>
          by_cases hp : p = b + offset
          · rw [hgrants, hp, Function.update_self] at hg'
            cases hg'
            exact .mapped hnone rfl rfl
          · rw [hgrants, Function.update_of_ne hp, hnone] at hg'
            cases hg'
      | @fails s₁ hgrants =>
          have hnone' : (failAlloc s₁ (sys.threads t) goal.request).1.grants p = none := by
            unfold failAlloc
            cases goal.request.old with
            | none => rw [hgrants, hnone]
            | some r => exact setHolder_of_none (by rw [hgrants, hnone]) _ _
          cases hnone'.symm.trans hg'
      | @serves q c k b pg s₁ hgoal' hheap hgrants hslot _ =>
          subst hgoal'
          obtain ⟨rfl, horigin⟩ := deliver_made (by rw [hgrants, hnone]) hg' hold
          have hserving := deliver_serving rfl hheap hown.outcome
          have hslot' := congrFun (congrFun (deliverBlock_rest (s := s₁) t (sys.threads t) q pg
            p).2.2 k) c
          exact .served hnone hheap
            ((deliver_effect s₁ t (sys.threads t) q p _ _).2.heap.trans hheap)
            (hserving.served_page hown.outcome.data.inv (hslot'.trans hslot) hg' horigin) horigin
      | @registers q offset mmapSize b w r hpc hreg =>
          obtain rfl : goal = .large q offset mmapSize := by
            rw [hpc] at hgoal
            exact (Option.some.inj hgoal).symm
          have hstill : ({ sys.store with os := w.os, registry := r } : Store).grants p = none :=
            hnone
          obtain ⟨rfl, _⟩ := deliver_made hstill hg' hold
          obtain ⟨_, g, hg, _⟩ := hth.pointers_at hpc
          cases hnone.symm.trans hg

/-- Every pointer that is live after a step of a thread is one of these. -/
theorem OwnStep.grantStep (hown : OwnStep ps t sys G o s' th' G') (hinv : SysInv ps sys G)
    {p : Nat} {g' : Grant} (hg' : s'.grants p = some g') :
    GrantStep t (sys.threads t) sys.store G' s' th' p g' := by
  cases hg : sys.store.grants p with
  | none => exact hown.grant_new hinv hg hg'
  | some g =>
      cases hthread : g.holder.thread with
      | none =>
          have hkept := hown.client_kept hinv hg (Holder.client_of_thread hthread)
          rw [hkept] at hg'
          cases hg'
          exact .same hg
      | some u =>
          by_cases hu : u = t
          · exact .turned hg (hu ▸ hthread)
          · have hkept := (hown.outcome.frame.holders u hu p g hthread).mpr hg
            rw [hkept] at hg'
            cases hg'
            exact .same hg

/-- A pointer that a step of thread `t` changes ends with the thread or its client. -/
theorem OwnStep.holder_after (hown : OwnStep ps t sys G o s' th' G') {p : Nat} {g' : Grant}
    (hg' : s'.grants p = some g') (hne : sys.store.grants p ≠ some g') :
    g'.holder = .client ∨ g'.holder.thread = some t := by
  cases hthread : g'.holder.thread with
  | none => exact Or.inl (Holder.client_of_thread hthread)
  | some u =>
      by_cases hu : u = t
      · exact Or.inr (congrArg some hu)
      · exact absurd ((hown.outcome.frame.holders u hu p g' hthread).mp hg') hne

end Steps

section Calls

variable {ps : PageSize} {s : Store} {G : Ghost} {t p : Nat} {call : Call} {entry : Entry}
  {g : Grant}

theorem setHolder_cases {grants : Nat → Option Grant} {x : Nat} {holder : Holder}
    (h : setHolder grants x holder p = some g) :
    grants p = some g ∨ p = x ∧ ∃ g₀, grants p = some g₀ ∧ g = { g₀ with holder := holder } := by
  by_cases hp : p = x
  · subst hp
    rw [setHolder_self, Option.map_eq_some_iff] at h
    obtain ⟨g₀, hg₀, heq⟩ := h
    exact Or.inr ⟨rfl, g₀, hg₀, heq.symm⟩
  · rw [setHolder_of_ne _ _ hp] at h
    exact Or.inl h

/-- A call changes hands of the pointer it is given, and of no other. -/
theorem enterGrants_cases (h : enterGrants s t call entry p = some g) :
    s.grants p = some g ∨ ∃ g₀, s.grants p = some g₀ ∧ .pointer p ∈ call.receives ∧
      g.origin = g₀.origin ∧ g.usable = g₀.usable ∧
      (g.holder = g₀.holder ∨ g.holder.thread = some t) := by
  have hset : ∀ {x holder}, holder.thread = some t → .pointer x ∈ call.receives →
      setHolder s.grants x holder p = some g →
      s.grants p = some g ∨ ∃ g₀, s.grants p = some g₀ ∧ .pointer p ∈ call.receives ∧
        g.origin = g₀.origin ∧ g.usable = g₀.usable ∧
        (g.holder = g₀.holder ∨ g.holder.thread = some t) := by
    intro x holder hthread hx hg
    rcases setHolder_cases hg with hsame | ⟨rfl, g₀, hg₀, rfl⟩
    · exact Or.inl hsame
    · exact Or.inr ⟨g₀, hg₀, hx, rfl, rfl, Or.inr hthread⟩
  unfold enterGrants at h
  split at h
  · exact hset rfl (List.mem_singleton.mpr rfl) h
  · split at h
    · exact Or.inl h
    · refine hset ?_ (List.mem_singleton.mpr rfl) h
      split <;> rfl
  · rename_i ptr size result
    split at h
    · exact Or.inl h
    · by_cases hp : p = ptr
      · subst hp
        rw [Function.update_self, Option.map_eq_some_iff] at h
        obtain ⟨g₀, hg₀, rfl⟩ := h
        exact Or.inr ⟨g₀, hg₀, List.mem_singleton.mpr rfl, rfl, rfl, Or.inl rfl⟩
      · rw [Function.update_of_ne hp] at h
        exact Or.inl h
  · exact Or.inl h

/-- The pointer a call is given is the client's. -/
theorem CallOk.given (hok : CallOk s call) (hinv : Inv ps s G) (hp : .pointer p ∈ call.receives)
    (hg : s.grants p = some g) : g.holder = .client := by
  have hlive : ∀ {x}, x = 0 ∨ (∃ g, s.grants x = some g ∧ g.holder = .client) → p = x →
      g.holder = .client := by
    rintro x hx rfl
    obtain ⟨g', hg', hclient⟩ := hx.resolve_left (hinv.grant_ne_zero hg)
    rw [hg] at hg'
    cases hg'
    exact hclient
  cases call with
  | free x => exact hlive hok (Party.pointer.inj (List.mem_singleton.mp hp))
  | realloc x size => exact hlive hok.2 (Party.pointer.inj (List.mem_singleton.mp hp))
  | malloc | calloc | alignedAlloc => cases hp

variable {ι ν : Type} {M : Memory ι ν Party} {w : ι → Option ν} {x : ι} {a : Party}

/-- The first part of a call tells nobody anything. -/
theorem Call.known_le (hM : M.Within) (a : Party) :
    M.known a x ≤ (M.act (.thread t) (call.exchange w)).known a x :=
  hM.le_act rfl fun h => by cases h

theorem Call.known_self (hM : M.Within) (ha : a ∈ call.receives) :
    M.known a x ≤ (M.act (.thread t) (call.exchange w)).known (.thread t) x :=
  hM.le_act_self (Or.inr ha)

theorem enterThread_running (th : Thread) (call : Call) (ps : PageSize) (s : Store) :
    (enterThread th call (enter ps s call)).heap = th.heap ∧
      (enterThread th call (enter ps s call)).pc ≠ .unmapHeap := by
  have hstarts := enter_starts ps s call
  cases hentry : enter ps s call with
  | ret result => exact ⟨rfl, by simp [enterThread, Thread.ret]⟩
  | goto pc =>
      rw [hentry] at hstarts
      refine ⟨rfl, ?_⟩
      rcases hstarts with ⟨q, c, rfl⟩ | ⟨q, offset, size, rfl⟩ | ⟨p, rfl⟩ <;> simp [enterThread]

end Calls

/-- What happens that is no step and no call changes no pointer and no heap. -/
theorem exec_outside {ps : PageSize} {sys sys' : System} {l : Label}
    (hstep : ∀ t o, l ≠ .step t o) (hcall : ∀ t call, l ≠ .call t call)
    (hrun : exec ps sys l = some sys') : sys'.store.grants = sys.store.grants ∧
      ∀ u, (sys'.threads u).heap = (sys.threads u).heap ∧
        ((sys'.threads u).pc = (sys.threads u).pc ∨ (sys'.threads u).pc = .unlinkHeap ∨
          ∃ c p, (sys'.threads u).pc = .destroy c p) := by
  have hset : ∀ t th, th.heap = (sys.threads t).heap → (th.pc = (sys.threads t).pc ∨
      th.pc = .unlinkHeap ∨ ∃ c p, th.pc = .destroy c p) →
      ∀ u, ((sys.setThread t sys.store th).threads u).heap = (sys.threads u).heap ∧
        (((sys.setThread t sys.store th).threads u).pc = (sys.threads u).pc ∨
          ((sys.setThread t sys.store th).threads u).pc = .unlinkHeap ∨
          ∃ c p, ((sys.setThread t sys.store th).threads u).pc = .destroy c p) := by
    intro t th hheap hpc u
    by_cases hu : u = t
    · subst hu
      rw [System.setThread_self]
      exact ⟨hheap, hpc⟩
    · rw [System.setThread_of_ne hu]
      exact ⟨rfl, Or.inl rfl⟩
  cases l with
  | step t o => exact absurd rfl (hstep t o)
  | call t call => exact absurd rfl (hcall t call)
  | spawn t | finish t =>
      cases hrun
      exact ⟨rfl, hset t _ rfl (Or.inl rfl)⟩
  | guardExit t =>
      simp only [exec] at hrun
      split at hrun
      · cases hrun
        exact ⟨rfl, hset t _ rfl (Or.inl rfl)⟩
      · cases hrun
        exact ⟨rfl, hset t _ rfl (Or.inr (scanClasses_cases ..))⟩
  | write | foreignMap | foreignUnmap | foreignWrite =>
      cases hrun
      exact ⟨rfl, fun u => ⟨rfl, Or.inl rfl⟩⟩

end HMalloc
