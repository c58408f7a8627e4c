import HMalloc.AtomicSteps

/-!
The allocator is linearizable: with the calls as they are made (`EntryKind`) and
what the clients and the rest of the program do in between, every step of the
system is some steps of the atomic heap.
-/

namespace HMalloc

open Bytes Linked

section Entry

variable {ps : PageSize} {sys : System} {s : Store} {G : Ghost} {t p : Nat} {g : Grant}
  {call : Call}

/-- What a call does before its first step. -/
inductive EntryKind (s : Store) (t : Nat) (call : Call) : Entry → (Nat → Option Grant) → Prop where
  | refused (h : call.released = none) : EntryKind s t call (.ret 0) s.grants
  | kept {p n : Nat} {g : Grant} (hcall : call = .realloc p n) (hn : n ≠ 0)
      (hg : s.grants p = some g) (hclient : g.holder = .client) (hfits : n ≤ g.usable) :
      EntryKind s t call (.ret p) (Function.update s.grants p (some { g with size := n }))
  | asks {pc : Pc} {goal : Goal} {grants : Nat → Option Grant} (hgoal : pc.goal = some goal)
      (hgrants : ∀ x, grants x = s.grants x ∨ ∃ g, s.grants x = some g ∧ g.holder = .client ∧
        grants x = some { g with holder := .moving t }) :
      EntryKind s t call (.goto pc) grants
  | frees {p : Nat} {g : Grant} (h : call.released = some p) (hg : s.grants p = some g)
      (hclient : g.holder = .client) :
      EntryKind s t call (.goto (.free p 0)) (setHolder s.grants p (.freeing t))

/-- An allocation call that is given no pointer. -/
theorem Asks.entryKind {q : Request} {entry : Entry} (h : Asks q entry)
    (hreleased : call.released = none) : EntryKind s t call entry s.grants := by
  cases h with
  | refused => exact .refused hreleased
  | small | large => exact .asks rfl fun x => Or.inl rfl

theorem hmRealloc_entryKind (hinv : Inv ps s G) {n : Nat} (hok : CallOk s (.realloc p n)) :
    EntryKind s t (.realloc p n) (hmRealloc ps s p n)
      (enterGrants s t (.realloc p n) (hmRealloc ps s p n)) := by
  obtain ⟨hword, rfl | ⟨g, hg, hclient⟩⟩ := hok
  · have hasks := hmMalloc_asks ps (q := ⟨n, false, none⟩) hword
    have hentry : hmRealloc ps s 0 n = hmMalloc ps ⟨n, false, none⟩ := if_pos rfl
    rw [hentry]
    generalize hmMalloc ps ⟨n, false, none⟩ = entry at hasks
    have hsame : enterGrants s t (.realloc 0 n) entry = s.grants := by
      cases hasks <;> rfl
    rw [hsame]
    exact hasks.entryKind (by simp [Call.released, ptr])
  have hp := hinv.grant_ne_zero hg
  by_cases hn : n = 0
  · subst hn
    have hentry : hmRealloc ps s p 0 = .goto (.free p 0) := (if_neg hp).trans (if_pos rfl)
    rw [hentry]
    simp only [enterGrants, if_neg hp]
    exact .frees (by simp [Call.released, ptr_of_ne hp]) hg hclient
  rw [hinv.hmRealloc_eq hg hn]
  split
  · rename_i hkeeps
    simp only [enterGrants, if_neg hp, hg, Option.map_some]
    exact .kept rfl hn hg hclient hkeeps.1
  · have hasks := hmMalloc_asks ps (q := ⟨n, false, some (p, g.usable)⟩) hword
    -- The block that is to be moved is the thread's until it has been, or the call fails.
    have hmoves : ∀ x, setHolder s.grants p (.moving t) x = s.grants x ∨
        ∃ g, s.grants x = some g ∧ g.holder = .client ∧
          setHolder s.grants p (.moving t) x = some { g with holder := .moving t } := by
      intro x
      by_cases hx : x = p
      · subst hx
        exact Or.inr ⟨g, hg, hclient, by rw [setHolder_self, hg]; rfl⟩
      · exact Or.inl (setHolder_of_ne _ _ hx)
    generalize hmMalloc ps ⟨n, false, some (p, g.usable)⟩ = entry at hasks
    cases hasks with
    | refused => exact .refused (by simp [Call.released, hn])
    | small | large =>
        simp only [enterGrants, if_neg hp, if_neg hn]
        exact .asks rfl hmoves

theorem enter_kind (hinv : Inv ps s G) (hok : CallOk s call) :
    EntryKind s t call (enter ps s call) (enterGrants s t call (enter ps s call)) := by
  cases call with
  | malloc n =>
      exact (hmMalloc_asks ps (show (⟨n, false, none⟩ : Request).size < 2 ^ 64 from hok)).entryKind
        rfl
  | calloc nmemb n =>
      obtain ⟨q, hasks, _⟩ := hmCalloc_asks ps nmemb n
      exact hasks.entryKind rfl
  | realloc p n => exact hmRealloc_entryKind hinv hok
  | alignedAlloc alignment n =>
      exact (hmAlignedAlloc_asks ps hok.2).entryKind rfl
  | free p =>
      simp only [enter]
      split
      · rename_i hnull
        exact .refused (by simp [Call.released, hnull, ptr])
      · rename_i hne
        obtain ⟨g, hg, hclient⟩ := hok.resolve_left hne
        exact .frees (by simp [Call.released, ptr_of_ne hne]) hg hclient

theorem Thread.asked_of_phase {th : Thread} (h : th.phase = .asked call) :
    ∃ goal, th.pc.goal = some goal ∧ th.call = some call := by
  unfold Thread.phase at h
  split at h
  · rename_i goal c hgoal hcall
    cases h
    exact ⟨goal, hgoal, hcall⟩
  · split at h <;> cases h

/-- A pointer of the client is given to no call. -/
theorem Reachable.unclaimed (h : Reachable ps sys) (hg : sys.store.grants p = some g)
    (hclient : g.holder = .client) : sys.atomic.Unclaimed p := by
  intro u call hasked hgiven
  obtain ⟨goal, hgoal, hcall⟩ := Thread.asked_of_phase hasked
  obtain ⟨call', sys₀, ha⟩ := h.allocCall hgoal
  obtain rfl : call' = call := Option.some.inj (ha.during.call_eq.symm.trans hcall)
  rw [← ha.entered.given, Option.map_eq_some_iff] at hgiven
  obtain ⟨⟨old, usable⟩, hold, rfl⟩ := hgiven
  obtain ⟨G, hinv⟩ := h.inv
  obtain ⟨g', hg', hh', _⟩ := (hinv.threads u).old_grant hgoal hold
  cases hg.symm.trans hg'
  rw [hclient] at hh'
  cases hh'

/-- A call that is made leaves a block whose pointer it is not given. -/
theorem SysInv.call_block (hinv : SysInv ps sys G) (hidle : (sys.threads t).pc = .idle)
    {grants : Nat → Option Grant} {th : Thread} (hg : grants p = sys.store.grants p) :
    (sys.setThread t { sys.store with grants := grants } th).block p = sys.block p := by
  refine System.block_eq hg (fun g hg => Grant.shown_setThread fun hh => ?_) fun _ _ _ _ _ => rfl
  have hresult := (hinv.threads t).fresh_result hg hh
  rw [hidle] at hresult
  cases hresult

/-- A call is made in the atomic heap. -/
theorem Reachable.call_step (h : Reachable ps sys) (hidle : (sys.threads t).pc = .idle)
    (hok : CallOk sys.store call) : atomicHeap.Steps sys.atomic [.call t call]
      { sys.atomic with phase := Function.update sys.atomic.phase t (.asked call) } := by
  refine .single (.call ?_ fun p hgiven => ?_)
  · exact Thread.phase_idle (by rw [hidle]; rfl) (by rw [hidle]; rfl)
  obtain ⟨g, hg, hclient⟩ : ∃ g, sys.store.grants p = some g ∧ g.holder = .client := by
    cases call with
    | malloc | calloc | alignedAlloc => cases hgiven
    | free x =>
        obtain ⟨rfl, hne⟩ := ptr_eq_some.mp hgiven
        exact hok.resolve_left hne
    | realloc x n =>
        obtain ⟨rfl, hne⟩ := ptr_eq_some.mp hgiven
        exact hok.2.resolve_left hne
  refine ⟨?_, h.unclaimed hg hclient⟩
  change sys.block p ≠ none
  rw [System.block_shown hg (by simp only [Grant.shown, hclient])]
  simp

/-- A call acts as soon as it is made. -/
theorem call_serve {A : AtomicHeap} {result : Nat} {blocks : Nat → Option Block}
    (hcall : atomicHeap.Steps A [.call t call]
      { A with phase := Function.update A.phase t (.asked call) })
    (h : Serves A.blocks call result blocks) :
    atomicHeap.Steps A [.call t call] ⟨blocks, Function.update A.phase t (.answered result)⟩ := by
  have hserve := AtomicHeap.Step.serve
    (A := { A with phase := Function.update A.phase t (.asked call) }) (t := t)
    (Function.update_self ..) h
  rw [Function.update_idem] at hserve
  exact hcall.thenSilent hserve

/-- A call acts and returns as soon as it is made. -/
theorem call_serve_ret {A : AtomicHeap} {result : Nat} {blocks : Nat → Option Block}
    (hcall : atomicHeap.Steps A [.call t call]
      { A with phase := Function.update A.phase t (.asked call) })
    (h : Serves A.blocks call result blocks) :
    atomicHeap.Steps A [.call t call, .ret t result] ⟨blocks, Function.update A.phase t .idle⟩ :=
  (call_serve hcall h).trans (answered_ret ..)

/-- A call, to its first step. -/
theorem Reachable.call_steps (h : Reachable ps sys) (hidle : (sys.threads t).pc = .idle)
    (hok : CallOk sys.store call) {sys' : System} (hrun : exec ps sys (.call t call) = some sys') :
    atomicHeap.Steps sys.atomic (.call t call :: sys'.returned t) sys'.atomic := by
  obtain ⟨G, hinv⟩ := h.inv
  have hcall := h.call_step hidle hok
  rw [exec_call] at hrun
  cases hrun
  have hkind := enter_kind (t := t) hinv.data.inv hok
  generalize enterGrants sys.store t call (enter ps sys.store call) = grants at hkind ⊢
  generalize enter ps sys.store call = entry at hkind ⊢
  cases hkind with
  | refused hreleased =>
      rw [System.returned_idle sys rfl, System.atomic_setThread fun x => hinv.call_block hidle rfl]
      exact call_serve_ret hcall (.refuse hreleased)
  | @kept p n g hrealloc hn hg hclient hfits =>
      subst hrealloc
      have hb : sys.block p = some (g.block sys.store.os.mem p) :=
        System.block_shown hg (by simp only [Grant.shown, hclient])
      have hblocks : ∀ x, (sys.setThread t { sys.store with
          grants := Function.update sys.store.grants p (some { g with size := n }) }
          (enterThread (sys.threads t) (.realloc p n) (.ret p))).block x =
          Function.update sys.block p (some { g.block sys.store.os.mem p with size := n }) x := by
        intro x
        by_cases hx : x = p
        · subst hx
          rw [Function.update_self, System.block_shown (g := { g with size := n })
            (Function.update_self ..) (by simp only [Grant.shown, hclient])]
          rfl
        · rw [Function.update_of_ne hx]
          exact hinv.call_block hidle (Function.update_of_ne hx ..)
      rw [System.returned_idle sys rfl, System.atomic_setThread hblocks]
      exact call_serve_ret hcall (.keep hb hn (by rw [Grant.block_length]; exact hfits))
  | @asks pc goal grants hgoal hgrants =>
      have hblocks : ∀ x, (sys.setThread t { sys.store with grants := grants }
          (enterThread (sys.threads t) call (.goto pc))).block x = sys.block x := by
        intro x
        rcases hgrants x with hsame | ⟨g, hg, hclient, hmoves⟩
        · exact hinv.call_block hidle hsame
        · rw [System.block_shown hg (by simp only [Grant.shown, hclient]),
            System.block_shown (g := { g with holder := .moving t }) hmoves rfl]
          rfl
      have hbusy : pc ≠ .idle := by
        rintro rfl
        cases hgoal
      rw [System.returned_busy sys hbusy, System.atomic_setThread hblocks,
        Thread.phase_asked hgoal rfl]
      exact hcall
  | @frees p g hreleased hg hclient =>
      have hblocks : ∀ x, (sys.setThread t { sys.store with
          grants := setHolder sys.store.grants p (.freeing t) }
          (enterThread (sys.threads t) call (.goto (.free p 0)))).block x =
          Function.update sys.block p none x := by
        intro x
        by_cases hx : x = p
        · subst hx
          rw [Function.update_self]
          refine System.block_hidden fun g' hg' => ?_
          change setHolder sys.store.grants x (.freeing t) x = some g' at hg'
          rw [setHolder_self, hg] at hg'
          cases hg'
          rfl
        · rw [Function.update_of_ne hx]
          exact hinv.call_block hidle (setHolder_of_ne _ _ hx)
      have hb : sys.block p = some (g.block sys.store.os.mem p) :=
        System.block_shown hg (by simp only [Grant.shown, hclient])
      rw [System.returned_busy sys (by simp [enterThread]), System.atomic_setThread hblocks,
        Thread.phase_free rfl]
      exact call_serve hcall (.release hreleased hb)

end Entry

section Refines

variable {ps : PageSize} {sys sys' : System} {G : Ghost} {t p : Nat} {g : Grant}

/-- Memory changes outside all blocks. -/
theorem System.atomic_world {os : Os} (hbytes : ∀ p g, sys.store.grants p = some g →
      ∀ i < g.usable, os.mem (p + i) = sys.store.os.mem (p + i)) :
    ({ sys with store := { sys.store with os := os } } : System).atomic = sys.atomic :=
  AtomicHeap.ext (funext fun p => System.block_eq rfl (fun _ _ => rfl) fun g hg _ => hbytes p g hg)
    rfl

/-- A thread turns to something that is no call. -/
theorem System.atomic_thread {th : Thread} (hphase : th.phase = (sys.threads t).phase)
    (hfree : th.pc.isFree = (sys.threads t).pc.isFree) :
    (sys.setThread t sys.store th).atomic = sys.atomic :=
  System.atomic_same (fun _ => System.block_eq rfl
    (fun _ _ => Grant.shown_setThread fun _ => hfree) fun _ _ _ _ _ => rfl) hphase

/-- The bytes of a block of which one is written. -/
theorem Grant.block_write (mem : Mem) (g : Grant) (p i : Nat) (v : UInt8) :
    g.block (Function.update mem (p + i) v) p =
      { g.block mem p with bytes := (g.block mem p).bytes.set i v } := by
  refine congrArg (Block.mk g.size) (List.ext_getElem (by simp [Grant.block]) fun j hj _ => ?_)
  simp only [Grant.block, List.getElem_map, List.getElem_range, List.getElem_set]
  by_cases hji : i = j
  · rw [if_pos hji, hji, Function.update_self]
  · rw [if_neg hji, Function.update_of_ne (by omega)]

/-- A client writes a byte of a block. -/
theorem Reachable.write_steps (h : Reachable ps sys) {i : Nat} {v : UInt8}
    (hallowed : Allowed ps sys (.write p i v)) (hrun : exec ps sys (.write p i v) = some sys') :
    atomicHeap.Steps sys.atomic [.write p i v] sys'.atomic := by
  obtain ⟨g, hg, hclient, hi⟩ := hallowed
  obtain ⟨G, hinv⟩ := h.inv
  obtain ⟨hgrants, hthreads, hmem⟩ : sys'.store.grants = sys.store.grants ∧
      sys'.threads = sys.threads ∧
      sys'.store.os.mem = Function.update sys.store.os.mem (p + i) v := by
    cases hrun
    exact ⟨rfl, rfl, rfl⟩
  have hs : g.shown sys.threads = true := by simp only [Grant.shown, hclient]
  have hb : sys.block p = some (g.block sys.store.os.mem p) := System.block_shown hg hs
  have hblocks : sys'.block = Function.update sys.block p (some { g.block sys.store.os.mem p with
      bytes := (g.block sys.store.os.mem p).bytes.set i v }) := by
    funext x
    by_cases hx : x = p
    · subst hx
      rw [Function.update_self, System.block_shown (by rw [hgrants]; exact hg)
        (by rw [hthreads]; exact hs), hmem, Grant.block_write]
    · rw [Function.update_of_ne hx]
      refine System.block_eq (by rw [hgrants]) (fun _ _ => by rw [hthreads]) fun g' hg' _ j hj => ?_
      -- Another block does not reach the byte.
      have hd := hinv.data.inv.grants_disjoint hg' hg hx
      rw [hmem]
      exact Function.update_of_ne (by omega) ..
  have hatomic : sys'.atomic = { sys.atomic with blocks := sys'.block } := by
    refine AtomicHeap.ext rfl ?_
    simp only [System.atomic, hthreads]
  rw [hatomic, hblocks]
  exact .single (.write hb (h.unclaimed hg hclient) (by rw [Grant.block_length]; exact hi))

/-- A step of a thread. -/
theorem Reachable.own_steps (h : Reachable ps sys) {o : Oracle}
    (hstep : Step ps sys (.step t o) sys') :
    atomicHeap.Steps sys.atomic (events sys (.step t o) sys') sys'.atomic := by
  obtain ⟨G, hinv⟩ := h.inv
  obtain ⟨s', th', G', hown, rfl⟩ := hinv.own_step hstep
  simp only [events]
  cases hgoal : (sys.threads t).pc.goal with
  | some goal =>
      obtain ⟨call, sys₀, hcall⟩ := h.allocCall hgoal
      rw [if_pos (by simp [Pc.inCall, hgoal])]
      exact hown.alloc_steps hinv hcall hgoal (hcall.during.step hown.busy hstep)
  | none =>
      cases hfree : (sys.threads t).pc.isFree with
      | true =>
          rw [if_pos (by simp [Pc.inCall, hfree])]
          exact hown.free_steps hinv hfree
      | false =>
          rw [if_neg (by simp [Pc.inCall, hgoal, hfree]), hown.exit_atomic hinv hgoal hfree]
          exact .refl _

/-- What is nothing to the clients. -/
theorem Reachable.atomic_eq (h : Reachable ps sys) {l : Label} (hstep : Step ps sys l sys')
    (hcall : ∀ t call, l ≠ .call t call) (hown : ∀ t o, l ≠ .step t o)
    (hwrite : ∀ p i v, l ≠ .write p i v) : sys'.atomic = sys.atomic := by
  obtain ⟨G, hinv⟩ := h.inv
  have hdata := hinv.data.inv
  obtain ⟨hallowed, hrun⟩ := hstep
  cases l with
  | spawn t | finish t =>
      cases hrun
      exact System.atomic_thread rfl rfl
  | guardExit t =>
      obtain ⟨_, hidle, _⟩ := hallowed
      cases hheap : (sys.threads t).heap with
      | none =>
          simp only [exec, hheap] at hrun
          cases hrun
          exact System.atomic_thread rfl rfl
      | some k =>
          rw [exec_guardExit ps sys hheap] at hrun
          cases hrun
          have hwas : (sys.threads t).phase = .idle :=
            Thread.phase_idle (by rw [hidle]; rfl) (by rw [hidle]; rfl)
          rcases scanClasses_cases sys.store k numSizeClasses 0 with hpc | ⟨c, pg, hpc⟩
          · rw [hpc]
            exact System.atomic_thread (hwas ▸ Thread.phase_idle rfl rfl) (by rw [hidle]; rfl)
          · rw [hpc]
            exact System.atomic_thread (hwas ▸ Thread.phase_idle rfl rfl) (by rw [hidle]; rfl)
  | foreignMap base len =>
      obtain ⟨hne, hpos, hbound, hfresh⟩ := hallowed
      cases hrun
      have hm := Os.mapped_foreign hne hpos hbound hfresh
      exact System.atomic_world fun p g hg i hi =>
        hdata.grant_bytes_mapped hm hg (by omega) (by omega)
  | foreignUnmap base =>
      obtain ⟨size, hb⟩ := hallowed
      simp only [exec, hb] at hrun
      cases hrun
      exact System.atomic_world fun _ _ _ _ _ => rfl
  | foreignWrite base i v =>
      obtain ⟨size, hb, hi⟩ := hallowed
      cases hrun
      refine System.atomic_world fun p g hg j hj => ?_
      have hd := hdata.grant_foreign_disjoint hg hb
      exact Function.update_of_ne (by omega) ..
  | call t call => exact absurd rfl (hcall t call)
  | step t o => exact absurd rfl (hown t o)
  | write p i v => exact absurd rfl (hwrite p i v)

/-- One step of the allocator. -/
theorem Reachable.atomic_steps (h : Reachable ps sys) {l : Label} (hstep : Step ps sys l sys') :
    atomicHeap.Steps sys.atomic (events sys l sys') sys'.atomic := by
  cases l with
  | call t call => exact h.call_steps hstep.1.2.1 hstep.1.2.2 hstep.2
  | step t o => exact h.own_steps hstep
  | write p i v => exact h.write_steps hstep.1 hstep.2
  | spawn | finish | guardExit | foreignMap | foreignUnmap | foreignWrite =>
      rw [h.atomic_eq hstep (by simp) (by simp) (by simp)]
      exact .refl _

theorem emits_reachable {es : List Event} (h : (allocator ps).Emits es sys) :
    Reachable ps sys := by
  induction h with
  | refl => exact .init
  | tail _ hlast ih =>
      obtain ⟨l, hstep, _⟩ := hlast
      exact ih.step hstep

end Refines

/-- The allocator is linearizable. However the steps of all threads interleave and
whatever the kernel answers, the calls, returns and writes its clients see are
some that the atomic heap can show: every call acts at one moment between the
time it is made and the time it returns, and what it answers then is right. -/
theorem allocator_linearizable (ps : PageSize) (es : List Event) (sys : System)
    (h : (allocator ps).Emits es sys) : atomicHeap.Emits es sys.atomic := by
  refine h.map (f := System.atomic) rfl fun es sys es' sys' hrun hstep => ?_
  obtain ⟨l, hstep, rfl⟩ := hstep
  exact (emits_reachable hrun).atomic_steps hstep

/-- Thread 1 frees a block of thread 0 while thread 0 asks for another one. -/
theorem allocator_linearizable_overlap : ∃ sys, atomicHeap.Emits
    [.call 0 (.malloc 16), .ret 0 (2 ^ 43 + 63 * pageSize),
      .call 1 (.free (2 ^ 43 + 63 * pageSize)), .call 0 (.malloc 16),
      .ret 0 (2 ^ 43 + 63 * pageSize + 16), .ret 1 0] sys := by
  have hrun : ((schedule page4k (fun _ _ => true)
      (fun es sys l sys' => es ++ events sys l sys') (firstMalloc 0 16 ++
      [.spawn 1, .call 1 (.free (2 ^ 43 + 63 * pageSize)), .step 1 false, .call 0 (.malloc 16),
        .step 0 false, .step 1 false]) (World.init [])).any fun w => w.log ==
      [.call 0 (.malloc 16), .ret 0 (2 ^ 43 + 63 * pageSize),
        .call 1 (.free (2 ^ 43 + 63 * pageSize)), .call 0 (.malloc 16),
        .ret 0 (2 ^ 43 + 63 * pageSize + 16), .ret 1 0]) = true := by
    decide +kernel
  rw [Option.any_eq_true] at hrun
  obtain ⟨w, hw, hlog⟩ := hrun
  rw [beq_iff_eq] at hlog
  obtain ⟨_, hemits⟩ := schedule_induct (R := fun w => (allocator page4k).Emits w.log w.sys) (by
    intro w a _ sys h _ hstep
    exact h.tail ⟨_, hstep, rfl⟩) (w := World.init []) (fun x hx => by cases hx) (.refl _) hw
  rw [hlog] at hemits
  exact ⟨_, allocator_linearizable page4k _ _ hemits⟩

end HMalloc
