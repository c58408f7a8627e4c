import HMalloc.AtomicView

/-!
The steps a thread takes inside a call, in the atomic heap. Most are none there.
An allocation acts when its block is delivered, also one of `hm_realloc` that has
yet to free the old block; a free has acted before its first step, because nobody
may use the block once it is called.
-/

namespace HMalloc

open Bytes Linked

section Steps

variable {ps : PageSize} {sys sys₀ : System} {G G' : Ghost} {t p : Nat} {o : Oracle} {s' : Store}
  {th' : Thread} {g : Grant} {goal : Goal} {call : Call}

theorem Grant.shown_not_freeing {threads : Nat → Thread} (h : g.shown threads = true) :
    g.holder ≠ .freeing t := by
  intro hfreeing
  unfold Grant.shown at h
  rw [hfreeing] at h
  cases h

/-- The bytes of a block stay as long as it is one. -/
theorem OwnStep.shown_bytes (hown : OwnStep ps t sys G o s' th' G') (hinv : SysInv ps sys G)
    (hg : sys.store.grants p = some g) (hs : g.shown sys.threads = true) {i : Nat}
    (hi : i < g.usable) : s'.os.mem (p + i) = sys.store.os.mem (p + i) := by
  by_cases hfresh : g.holder = .fresh t
  · have hfree : (sys.threads t).pc.isFree = true := by
      unfold Grant.shown at hs
      rw [hfresh] at hs
      exact hs
    exact (stepThread_free hfree hown.run).bytes hinv.data.inv (hinv.threads t) hg
      (Grant.shown_not_freeing hs) (by omega) (by omega)
  · exact hown.outcome.frame.bytes p g hg (Grant.shown_not_freeing hs) hfresh _ (by omega)
      (by omega)

theorem OwnStep.block_eq (hown : OwnStep ps t sys G o s' th' G') (hinv : SysInv ps sys G)
    (hg : s'.grants p = sys.store.grants p)
    (hfresh : ∀ g, sys.store.grants p = some g → g.holder = .fresh t →
      th'.pc.isFree = (sys.threads t).pc.isFree) :
    (sys.setThread t s' th').block p = sys.block p :=
  System.block_eq hg (fun g h => Grant.shown_setThread (hfresh g h))
    (fun _ h hs _ hi => hown.shown_bytes hinv h hs hi)

theorem stepAfter_destroying {s : Store} {th : Thread} {c : Nat} {next : Option PageId}
    (h : stepAfter s th (.destroying c next) = some (s', th')) :
    s'.grants = s.grants ∧ th'.pc.goal = none ∧ th'.pc.isFree = false := by
  simp only [stepAfter, Option.bind_eq_bind, Option.bind_eq_some_iff] at h
  obtain ⟨k, _, h⟩ := h
  obtain ⟨slot, pc, heq, hpc⟩ := destroyNext_shape
    { s with central := { s.central with mtx := none } } th k c next
  cases heq.symm.trans (Option.some.inj h)
  rcases hpc with rfl | ⟨_, _, rfl⟩ <;> exact ⟨rfl, rfl, rfl⟩

/-- A step of the destructor of a `HeapGuard` hands nothing out and takes nothing. -/
theorem stepThread_exit {s : Store} {th : Thread} (hgoal : th.pc.goal = none)
    (hfree : th.pc.isFree = false) (hrun : stepThread ps o s t th = some (s', th')) :
    s'.grants = s.grants ∧ th'.pc.goal = none ∧ th'.pc.isFree = false := by
  cases stepThread_cases hrun with
  | idle => exact ⟨rfl, hgoal, hfree⟩
  | unlinkHeap | unmapHeap => exact ⟨rfl, rfl, rfl⟩
  | destroy _ hcollect =>
      obtain ⟨_, _, _, rfl⟩ := pageCollect_shape hcollect
      exact ⟨rfl, rfl, rfl⟩
  | @handRelease c pg next dead _ _ _ _ _ hpool hafter =>
      obtain ⟨seg, central, rfl⟩ := poolReturn_shape (show poolReturn _ pg = _ from hpool)
      cases dead with
      | none =>
          obtain ⟨hgrants, hpc⟩ := stepAfter_destroying hafter
          exact ⟨hgrants, hpc⟩
      | some b =>
          cases hafter
          exact ⟨rfl, rfl, rfl⟩
  | handAbandon _ _ hafter =>
      obtain ⟨hgrants, hpc⟩ := stepAfter_destroying hafter
      exact ⟨hgrants, hpc⟩
  | @unregisterSegment b after _ hpc =>
      rw [hpc] at hgoal hfree
      exact ⟨rfl, hgoal, hfree⟩
  | @unmapSegment b after _ _ hpc hafter =>
      rw [hpc] at hgoal hfree
      cases after with
      | freed => cases hfree
      | sweeping => cases hgoal
      | destroying c next =>
          obtain ⟨hgrants, hpc'⟩ := stepAfter_destroying hafter
          exact ⟨hgrants, hpc'⟩
  | createHeap hpc | serve hpc | enterWalk hpc | enterAcquire hpc | linkHeap hpc | walkServe hpc
  | walkNext hpc | walkEnd hpc | lock hpc | acquire hpc | sweepOn hpc | sweepDrop hpc | sweepMap hpc
  | sweepAcquire hpc | segmentRefused hpc | mapSegment hpc | registerSegment hpc | largeRefused hpc
  | mapLarge hpc | registerLarge hpc =>
      rw [hpc] at hgoal
      cases hgoal
  | dropLarge hpc | freeLocal hpc | freeDrained hpc | freeRemote hpc | exchange hpc | retry hpc
  | release hpc | unmapLarge hpc =>
      rw [hpc] at hfree
      cases hfree

/-- The destructor is nothing to the clients. -/
theorem OwnStep.exit_atomic (hown : OwnStep ps t sys G o s' th' G') (hinv : SysInv ps sys G)
    (hgoal : (sys.threads t).pc.goal = none) (hfree : (sys.threads t).pc.isFree = false) :
    (sys.setThread t s' th').atomic = sys.atomic := by
  obtain ⟨hgrants, hgoal', hfree'⟩ := stepThread_exit hgoal hfree hown.run
  refine System.atomic_same (fun p => hown.block_eq hinv (congrFun hgrants p) ?_) ?_
  · exact fun _ _ _ => hfree'.trans hfree.symm
  · rw [Thread.phase_idle hgoal' hfree', Thread.phase_idle hgoal hfree]

theorem Pc.result_of_isFree {pc : Pc} (h : pc.isFree = true) : pc.result = ptr pc.returns := by
  cases pc with
  | unregisterSegment b after | unmapSegment b after => cases after <;> rfl
  | free | remote | release | unmapLarge => rfl
  | idle | small | linkHeap | walk | acquire | sweep | mapSegment | registerSegment | large
  | registerLarge | destroy | hand | unlinkHeap | unmapHeap => cases h

/-- What a thread that frees has obtained before. -/
theorem ThreadOk.fresh_iff {s : Store} {th : Thread} (h : ThreadOk ps s G t th)
    (hfree : th.pc.isFree = true) :
    (∃ g, s.grants p = some g ∧ g.holder = .fresh t) ↔ p = th.pc.returns ∧ p ≠ 0 := by
  rw [h.holders p (.fresh t) rfl]
  change th.pc.result = some p ↔ _
  rw [Pc.result_of_isFree hfree, ptr_eq_some]
  constructor <;> rintro ⟨rfl, hne⟩ <;> exact ⟨rfl, hne⟩

/-- The pointer a free is given is no block. -/
theorem OwnStep.freeing_hidden (hown : OwnStep ps t sys G o s' th' G') (hinv : SysInv ps sys G)
    (hfree : (sys.threads t).pc.isFree = true) (hfreeing : (sys.threads t).pc.freeing = some p) :
    sys.block p = none ∧ (sys.setThread t s' th').block p = none := by
  have hf := stepThread_free hfree hown.run
  obtain ⟨g, hg, hh⟩ := ((hinv.threads t).holders p (.freeing t) rfl).mpr hfreeing
  have hne : p ≠ (sys.threads t).pc.returns := by
    intro heq
    obtain ⟨g', hg', hh'⟩ := ((hinv.threads t).fresh_iff hfree).mpr
      ⟨heq, hinv.data.inv.grant_ne_zero hg⟩
    rw [hg] at hg'
    cases hg'
    rw [hh] at hh'
    cases hh'
  constructor
  · refine System.block_hidden fun g' hg' => ?_
    rw [hg] at hg'
    cases hg'
    simp only [Grant.shown, hh]
  · refine System.block_hidden fun g' hg' => ?_
    change s'.grants p = some g' at hg'
    rcases hf.freed with hsame | hgone
    · obtain ⟨g₁, hg₁, hh₁⟩ := (hown.outcome.thread.holders p (.freeing t) rfl).mpr
        (hsame.trans hfreeing)
      rw [hg'] at hg₁
      cases hg₁
      simp only [Grant.shown, hh₁]
    · rw [hgone p hfreeing hne] at hg'
      cases hg'

/-- A step of a free changes no block: it acted when it was called. -/
theorem OwnStep.free_blocks (hown : OwnStep ps t sys G o s' th' G') (hinv : SysInv ps sys G)
    (hfree : (sys.threads t).pc.isFree = true) (p : Nat) :
    (sys.setThread t s' th').block p = sys.block p := by
  by_cases hfreeing : (sys.threads t).pc.freeing = some p
  · obtain ⟨hbefore, hafter⟩ := hown.freeing_hidden hinv hfree hfreeing
    rw [hbefore, hafter]
  rcases (stepThread_free hfree hown.run).goes with ⟨hfree', _, hgrants⟩ | ⟨_, _, hgrants⟩
  · exact hown.block_eq hinv (hgrants p hfreeing) (fun _ _ _ => hfree'.trans hfree.symm)
  have hp := hgrants p hfreeing
  split at hp
  · -- The block that `hm_realloc` returns changes hands, which the atomic heap does not see.
    rename_i hreturns
    obtain ⟨g, hg, hh⟩ := ((hinv.threads t).fresh_iff hfree).mpr hreturns
    have hs : g.shown sys.threads = true := by
      simp only [Grant.shown, hh, hfree]
    rw [hg] at hp
    rw [System.block_shown hg hs, System.block_shown (g := { g with holder := .client }) hp rfl]
    exact congrArg some (Grant.block_congr rfl rfl fun i hi => hown.shown_bytes hinv hg hs hi)
  · rename_i hnot
    refine hown.block_eq hinv hp fun g hg hh => ?_
    exact absurd (((hinv.threads t).fresh_iff hfree).mp ⟨g, hg, hh⟩) hnot

theorem System.returned_idle (sys : System) {s' : Store} (hidle : th'.pc = .idle) :
    (sys.setThread t s' th').returned t = [.ret t th'.result] := by
  simp [System.returned, System.setThread, hidle]

theorem System.returned_busy (sys : System) {s' : Store} (hbusy : th'.pc ≠ .idle) :
    (sys.setThread t s' th').returned t = [] := by
  simp [System.returned, System.setThread, hbusy]

/-- A step of a free. -/
theorem OwnStep.free_steps (hown : OwnStep ps t sys G o s' th' G') (hinv : SysInv ps sys G)
    (hfree : (sys.threads t).pc.isFree = true) :
    atomicHeap.Steps sys.atomic ((sys.setThread t s' th').returned t)
      (sys.setThread t s' th').atomic := by
  rcases (stepThread_free hfree hown.run).goes with ⟨hfree', hreturns, _⟩ | ⟨hidle, hresult, _⟩
  · have hbusy : th'.pc ≠ .idle := by
      intro heq
      rw [heq] at hfree'
      cases hfree'
    rw [System.returned_busy sys hbusy, System.atomic_same (hown.free_blocks hinv hfree) (by
      rw [Thread.phase_free hfree', Thread.phase_free hfree, hreturns])]
    exact .refl _
  · rw [System.returned_idle sys hidle, System.atomic_setThread (hown.free_blocks hinv hfree),
      Thread.phase_idle (by rw [hidle]; rfl) (by rw [hidle]; rfl), hresult]
    exact .single (.ret (Thread.phase_free hfree))

/-- The place of a new block is unused. -/
theorem OwnStep.unused (hown : OwnStep ps t sys G o s' th' G') (hg : s'.grants p = some g)
    (hnone : sys.block p = none) : Unused sys.block p g.usable := by
  have hinv := hown.outcome.data.inv
  refine ⟨hinv.grant_ne_zero hg, ?_, fun q b hq => ?_⟩
  · obtain ⟨a, r, ha, _, hle⟩ := hinv.grant_within hg
    have hrange := (hinv.regions.range a r ha).2.2
    omega
  · obtain ⟨g₀, hg₀, hs, rfl⟩ := System.block_eq_some hq
    obtain ⟨g₁, hg₁⟩ := hown.outcome.frame.kept q g₀ hg₀ (Grant.shown_not_freeing hs)
    have husable := (hown.outcome.frame.same q g₀ g₁ hg₀ hg₁).2
    have hne : q ≠ p := by
      rintro rfl
      rw [hnone] at hq
      cases hq
    have hd := hinv.grants_disjoint hg₁ hg hne
    rw [Grant.block_length]
    omega

/-- A pointer that the thread has got for itself is no block while it still asks. -/
theorem System.fresh_hidden (hgoal : (sys.threads t).pc.goal = some goal)
    (hb : ∀ g, sys.store.grants p = some g → g.holder = .fresh t) : sys.block p = none := by
  refine System.block_hidden fun g hg => ?_
  simp only [Grant.shown, hb g hg]
  exact Pc.isFree_of_goal hgoal

/-- Thread `t` is in an allocation call, made in `sys₀`. -/
structure AllocCall (ps : PageSize) (t : Nat) (call : Call) (goal : Goal) (sys₀ sys : System) :
    Prop where
  reach : Reachable ps sys₀
  during : During ps t call sys₀ sys
  entry : ∃ pc, enter ps sys₀.store call = .goto pc ∧ pc.goal = some goal

theorem AllocCall.entered (h : AllocCall ps t call goal sys₀ sys) : Entered call goal := by
  obtain ⟨pc, hentry, hgoal⟩ := h.entry
  exact enter_entered h.during.allowed.2.2 hentry hgoal

theorem AllocCall.progress (h : AllocCall ps t call goal sys₀ sys) {sys' : System}
    (hd : During ps t call sys₀ sys') :
    Progress (fun _ => True) goal sys₀.store.os.mem t sys'.store (sys'.threads t) := by
  obtain ⟨pc, hentry, hgoal⟩ := h.entry
  exact hd.progress h.reach hentry hgoal

theorem ExitAt.goal_none {n : Nat} (h : ExitAt t sys n) : (sys.threads t).pc.goal = none := by
  cases h with
  | handing hd =>
      obtain ⟨c, next, hpc, _⟩ := hd.at_pc
      cases hth : (sys.threads t).pc with
      | unregisterSegment b after | unmapSegment b after =>
          rw [hth] at hpc
          cases after <;> first | rfl | cases hpc
      | idle | small | linkHeap | walk | acquire | sweep | mapSegment | registerSegment | large
      | registerLarge | free | remote | release | unmapLarge =>
          rw [hth] at hpc
          cases hpc
      | destroy | hand | unlinkHeap | unmapHeap => rfl
  | unmapping hpc =>
      rw [hpc]
      rfl

/-- A thread that asks for a block is in an allocation call. -/
theorem Reachable.allocCall (h : Reachable ps sys) (hgoal : (sys.threads t).pc.goal = some goal) :
    ∃ call sys₀, AllocCall ps t call goal sys₀ sys := by
  rcases h.turn t with hidle | ⟨call, sys₀, hr, hd⟩ | ⟨n, hexit⟩
  · rw [hidle] at hgoal
    cases hgoal
  · refine ⟨call, sys₀, hr, hd, ?_⟩
    cases hentry : enter ps sys₀.store call with
    | ret result =>
        rw [hd.idle_of_ret hentry] at hgoal
        cases hgoal
    | goto pc =>
        refine ⟨pc, rfl, ?_⟩
        have hfrom : ∀ goal₀, pc.goal = some goal₀ → pc.goal = some goal := by
          intro goal₀ hgoal₀
          cases hd.progress hr hentry hgoal₀ with
          | asking hnow => exact hgoal₀.trans (hnow.symm.trans hgoal)
          | freeing _ hfree =>
              rw [Pc.goal_of_isFree hfree] at hgoal
              cases hgoal
          | failed hidle | done hidle =>
              rw [hidle] at hgoal
              cases hgoal
        have hstarts := enter_starts ps sys₀.store call
        rw [hentry] at hstarts
        rcases hstarts with ⟨q, c, rfl⟩ | ⟨q, offset, size, rfl⟩ | ⟨x, rfl⟩
        · exact hfrom _ rfl
        · exact hfrom _ rfl
        · rcases hd.freed hr hentry with ⟨hfree, _⟩ | ⟨hidle, _⟩
          · rw [Pc.goal_of_isFree hfree] at hgoal
            cases hgoal
          · rw [hidle] at hgoal
            cases hgoal
  · rw [hexit.goal_none] at hgoal
    cases hgoal

/-- A call that is given a pointer and does not give it up for nothing moves it. -/
theorem Entered.realloc (h : Entered call goal) {old u : Nat}
    (hold : goal.request.old = some (old, u)) : call = .realloc old goal.request.size := by
  have hgiven := h.given
  rw [hold, Option.map_some] at hgiven
  have hsize := h.size
  cases call with
  | malloc | calloc | alignedAlloc => cases hgiven
  | free x => exact absurd h.pos (by simp [Call.size])
  | realloc x n =>
      obtain ⟨rfl, _⟩ := ptr_eq_some.mp hgiven.symm
      rw [hsize]
      rfl

theorem Entered.not_free (h : Entered call goal) (x : Nat) : call ≠ .free x := by
  rintro rfl
  exact absurd h.pos (by simp [Call.size])

theorem answered_ret (blocks : Nat → Option Block) (phase : Nat → Phase) (t result : Nat) :
    atomicHeap.Steps ⟨blocks, Function.update phase t (.answered result)⟩ [.ret t result]
      ⟨blocks, Function.update phase t .idle⟩ := by
  have hret := AtomicHeap.Step.ret (A := ⟨blocks, Function.update phase t (.answered result)⟩)
    (t := t) (Function.update_self ..)
  rw [Function.update_idem] at hret
  exact .single hret

/-- A call acts and returns in one step of the code. -/
theorem serve_ret {A : AtomicHeap} {result : Nat} {blocks : Nat → Option Block}
    (hasked : A.phase t = .asked call) (h : Serves A.blocks call result blocks) :
    atomicHeap.Steps A [.ret t result] ⟨blocks, Function.update A.phase t .idle⟩ :=
  .silent (.serve hasked h) (answered_ret ..)

section Delivery

variable {s₁ : Store} {b usable : Nat} {origin : Origin}

/-- The blocks after an allocation that moves nothing has acted. -/
theorem OwnStep.new_blocks (hown : OwnStep ps t sys G o s' th' G') (hinv : SysInv ps sys G)
    (hgoal : (sys.threads t).pc.goal = some goal) (hidle : th'.pc = .idle)
    (hgrants : s'.grants = Function.update sys.store.grants b (some g))
    (hclient : g.holder = .client) (x : Nat) :
    (sys.setThread t s' th').block x =
      Function.update sys.block b (some (g.block s'.os.mem b)) x := by
  by_cases hx : x = b
  · rw [hx, Function.update_self]
    refine System.block_shown ?_ (by simp only [Grant.shown, hclient])
    exact (congrFun hgrants b).trans (Function.update_self ..)
  · rw [Function.update_of_ne hx]
    refine hown.block_eq hinv ?_ fun _ _ _ => ?_
    · rw [hgrants, Function.update_of_ne hx]
    · rw [hidle, Pc.isFree_of_goal hgoal]
      rfl

/-- The blocks after an allocation that moves the block at `old` has acted. -/
theorem OwnStep.moved_blocks (hown : OwnStep ps t sys G o s' th' G') (hinv : SysInv ps sys G)
    {old : Nat} (hne : old ≠ b) (hfree : th'.pc.isFree = true)
    (hgrants : s'.grants = setHolder (Function.update sys.store.grants b (some g)) old (.freeing t))
    (hholder : g.holder = .fresh t)
    (hfresh : ∀ x g, sys.store.grants x = some g → g.holder = .fresh t → x = b) (x : Nat) :
    (sys.setThread t s' th').block x =
      Function.update (Function.update sys.block old none) b (some (g.block s'.os.mem b)) x := by
  by_cases hx : x = b
  · rw [hx, Function.update_self]
    refine System.block_shown ?_ ?_
    · change s'.grants b = some g
      rw [hgrants, setHolder_of_ne _ _ (Ne.symm hne), Function.update_self]
    · simp only [Grant.shown, hholder, System.setThread, Function.update_self]
      exact hfree
  rw [Function.update_of_ne hx]
  by_cases hxo : x = old
  · rw [hxo, Function.update_self]
    refine System.block_hidden fun g' hg' => ?_
    change s'.grants old = some g' at hg'
    rw [hgrants, setHolder_self, Option.map_eq_some_iff] at hg'
    obtain ⟨g₀, _, rfl⟩ := hg'
    rfl
  · rw [Function.update_of_ne hxo]
    refine hown.block_eq hinv ?_ fun g' hg' hh' => absurd (hfresh x g' hg' hh') hx
    rw [hgrants, setHolder_of_ne _ _ hxo, Function.update_of_ne hx]

/-- What an allocation call has when its block has been delivered. -/
theorem AllocCall.obtained (hcall : AllocCall ps t call goal sys₀ sys)
    (hd : During ps t call sys₀ (sys.setThread t s' th'))
    (hdel : deliver s₁ t (sys.threads t) goal.request b usable origin = (s', th')) (hne : b ≠ 0) :
    Obtained goal sys₀.store.os.mem s' b
      (if goal.request.old = none then .client else .fresh t) := by
  have hp := hcall.progress hd
  rw [show (sys.setThread t s' th').threads t = th' from Function.update_self ..] at hp
  cases hold : goal.request.old with
  | none =>
      rw [deliver_of_new _ _ _ _ _ _ _ hold] at hdel
      obtain rfl : (sys.threads t).ret b = th' := congrArg Prod.snd hdel
      cases hp with
      | asking h | freeing _ h => cases h
      | failed _ h => exact absurd h hne
      | done _ h => exact h
  | some r =>
      obtain ⟨old, u⟩ := r
      rw [deliver_of_old _ _ _ _ _ _ _ hold] at hdel
      obtain rfl : ({ sys.threads t with pc := .free old b } : Thread) = th' :=
        congrArg Prod.snd hdel
      cases hp with
      | asking h | failed h | done h => cases h
      | freeing _ _ h => exact h

theorem Obtained.usable_le {mem₀ : Mem} {holder : Holder} (h : Obtained goal mem₀ s' b holder)
    (hinv : Inv ps s' G') (hg : s'.grants b = some g) : goal.request.size ≤ g.usable := by
  obtain ⟨g', hg', _, hfits⟩ := h.grant
  rw [hg] at hg'
  cases hg'
  exact hinv.fits_usable hg hfits

/-- An allocation that moves nothing acts and returns. -/
theorem OwnStep.created (hown : OwnStep ps t sys G o s' th' G') (hinv : SysInv ps sys G)
    (hcall : AllocCall ps t call goal sys₀ sys) (hgoal : (sys.threads t).pc.goal = some goal)
    (hd : During ps t call sys₀ (sys.setThread t s' th')) (hold : goal.request.old = none)
    (hdel : deliver s₁ t (sys.threads t) goal.request b usable origin = (s', th'))
    (hgrants : s₁.grants = sys.store.grants)
    (hb : ∀ g, sys.store.grants b = some g → g.holder = .fresh t) :
    atomicHeap.Steps sys.atomic ((sys.setThread t s' th').returned t)
      (sys.setThread t s' th').atomic := by
  have hentered := hcall.entered
  have hdel' := hdel
  rw [deliver_of_new _ _ _ _ _ _ _ hold, hgrants] at hdel'
  have hth : (sys.threads t).ret b = th' := congrArg Prod.snd hdel'
  have hgr : Function.update sys.store.grants b
      (some ⟨goal.request.size, usable, .client, origin⟩) = s'.grants :=
    congrArg (fun r => r.1.grants) hdel'
  have hidle : th'.pc = .idle := by rw [← hth]; rfl
  have hresult : th'.result = b := by rw [← hth]; rfl
  have hgb : s'.grants b = some ⟨goal.request.size, usable, .client, origin⟩ := by
    rw [← hgr, Function.update_self]
  have hne := hown.outcome.data.inv.grant_ne_zero hgb
  have hself : (sys.setThread t s' th').threads t = th' := Function.update_self ..
  have hreturns : Returns ps t call sys₀ (sys.setThread t s' th') b :=
    ⟨hd, by rw [hself]; exact hidle, by rw [hself]; exact hresult⟩
  obtain ⟨halign, _, _⟩ := (hreturns.contract hcall.reach hentered.not_free).resolve_left hne
  have hobt := hcall.obtained hd hdel hne
  have hlong : goal.request.size ≤ usable := hobt.usable_le hown.outcome.data.inv hgb
  have hsuits : Suits call b
      ((⟨goal.request.size, usable, .client, origin⟩ : Grant).block s'.os.mem b) := by
    refine ⟨hentered.size, hentered.pos, ?_, halign, fun nmemb n heq i hi => ?_⟩
    · rw [Grant.block_length, ← hentered.size]
      exact hlong
    · rw [← hentered.size] at hi
      rw [Grant.block_getD (show i < usable by omega)]
      rcases hentered.zeroed nmemb n heq with hclear | ⟨q, offset, mmapSize, hlarge⟩
      · exact hobt.contents.clear hclear hold i hi
      · rw [hlarge] at hold hi
        exact hobt.contents.fresh q offset mmapSize hlarge hold i hi
  have hunused := hown.unused hgb (System.fresh_hidden hgoal hb)
  have hgiven : call.given = none := by
    rw [← hentered.given, hold]
    rfl
  rw [System.returned_idle sys hidle, hresult,
    System.atomic_setThread (hown.new_blocks hinv hgoal hidle hgr.symm rfl),
    Thread.phase_idle (by rw [hidle]; rfl) (by rw [hidle]; rfl)]
  exact serve_ret (Thread.phase_asked hgoal hcall.during.call_eq)
    (.create hgiven (by rw [Grant.block_length]; exact hunused) hsuits)

/-- An allocation for `hm_realloc` acts, and has yet to free the old block. -/
theorem OwnStep.moved (hown : OwnStep ps t sys G o s' th' G') (hinv : SysInv ps sys G)
    (hcall : AllocCall ps t call goal sys₀ sys) (hgoal : (sys.threads t).pc.goal = some goal)
    (hd : During ps t call sys₀ (sys.setThread t s' th')) {old u : Nat}
    (hold : goal.request.old = some (old, u))
    (hdel : deliver s₁ t (sys.threads t) goal.request b usable origin = (s', th'))
    (hgrants : s₁.grants = sys.store.grants)
    (hb : ∀ g, sys.store.grants b = some g → g.holder = .fresh t)
    (hfresh : ∀ x g, sys.store.grants x = some g → g.holder = .fresh t → x = b) :
    atomicHeap.Steps sys.atomic ((sys.setThread t s' th').returned t)
      (sys.setThread t s' th').atomic := by
  have hentered := hcall.entered
  obtain ⟨g₀, hg₀, hh₀, hu₀⟩ := (hinv.threads t).old_grant hgoal hold
  have hnb : old ≠ b := by
    rintro rfl
    rw [hb g₀ hg₀] at hh₀
    cases hh₀
  have hdel' := hdel
  rw [deliver_of_old _ _ _ _ _ _ _ hold, hgrants] at hdel'
  have hth : { sys.threads t with pc := .free old b } = th' := congrArg Prod.snd hdel'
  have hgr : setHolder (Function.update sys.store.grants b
      (some ⟨goal.request.size, usable, .fresh t, origin⟩)) old (.freeing t) = s'.grants :=
    congrArg (fun r => r.1.grants) hdel'
  have hpc : th'.pc = .free old b := by rw [← hth]
  have hgb : s'.grants b = some ⟨goal.request.size, usable, .fresh t, origin⟩ := by
    rw [← hgr, setHolder_of_ne _ _ hnb.symm, Function.update_self]
  have hne := hown.outcome.data.inv.grant_ne_zero hgb
  have hobt := hcall.obtained hd hdel hne
  have hlong : goal.request.size ≤ usable := hobt.usable_le hown.outcome.data.inv hgb
  have hblock : sys.block old = some (g₀.block sys.store.os.mem old) :=
    System.block_shown hg₀ (by simp only [Grant.shown, hh₀])
  have hrealloc := hentered.realloc hold
  have hcopy : ∀ i < goal.request.size, i < (g₀.block sys.store.os.mem old).bytes.length →
      ((⟨goal.request.size, usable, .fresh t, origin⟩ : Grant).block s'.os.mem b).bytes.getD i 0 =
        (g₀.block sys.store.os.mem old).bytes.getD i 0 := by
    intro i hi hlen
    rw [Grant.block_length] at hlen
    rw [Grant.block_getD hlen, Grant.block_getD (show i < usable by omega),
      hobt.contents.moved old u hold i hi (by omega)]
    cases hcall.progress hcall.during with
    | asking _ hkept => exact (hkept old u hold i (by omega)).symm
    | freeing _ hfree =>
        rw [Pc.goal_of_isFree hfree] at hgoal
        cases hgoal
    | failed hidle | done hidle =>
        rw [hidle] at hgoal
        cases hgoal
  have hsuits : Suits call b
      ((⟨goal.request.size, usable, .fresh t, origin⟩ : Grant).block s'.os.mem b) := by
    refine ⟨hentered.size, hentered.pos, ?_, ?_, fun nmemb n heq => ?_⟩
    · rw [Grant.block_length, ← hentered.size]
      exact hlong
    · rw [hrealloc]
      exact hown.outcome.data.inv.grant_aligned hgb
    · rw [hrealloc] at heq
      cases heq
  have hunused := hown.unused hgb (System.fresh_hidden hgoal hb)
  rw [System.returned_busy sys (by rw [hpc]; simp),
    System.atomic_setThread (hown.moved_blocks hinv hnb (by rw [hpc]; rfl) hgr.symm rfl hfresh),
    Thread.phase_free (by rw [hpc]; rfl), hpc]
  have hasked := Thread.phase_asked hgoal hcall.during.call_eq
  rw [hrealloc] at hasked hsuits
  exact .single (.serve hasked (.move hblock (by rw [Grant.block_length]; exact hunused) hsuits
    hcopy))

/-- An allocation delivers its block. -/
theorem OwnStep.delivered (hown : OwnStep ps t sys G o s' th' G') (hinv : SysInv ps sys G)
    (hcall : AllocCall ps t call goal sys₀ sys) (hgoal : (sys.threads t).pc.goal = some goal)
    (hd : During ps t call sys₀ (sys.setThread t s' th'))
    (hdel : deliver s₁ t (sys.threads t) goal.request b usable origin = (s', th'))
    (hgrants : s₁.grants = sys.store.grants)
    (hb : ∀ g, sys.store.grants b = some g → g.holder = .fresh t)
    (hfresh : ∀ x g, sys.store.grants x = some g → g.holder = .fresh t → x = b) :
    atomicHeap.Steps sys.atomic ((sys.setThread t s' th').returned t)
      (sys.setThread t s' th').atomic := by
  cases hold : goal.request.old with
  | none => exact hown.created hinv hcall hgoal hd hold hdel hgrants hb
  | some r => exact hown.moved hinv hcall hgoal hd hold hdel hgrants hb hfresh

end Delivery

theorem Pc.result_of_small {pc : Pc} {q : Request} {c : Nat}
    (h : pc.goal = some (.small q c)) : pc.result = none := by
  cases pc with
  | unregisterSegment b after | unmapSegment b after => cases after <;> first | rfl | cases h
  | small | linkHeap | walk | acquire | sweep | mapSegment | registerSegment => rfl
  | idle | large | registerLarge | free | remote | release | unmapLarge | destroy | hand
  | unlinkHeap | unmapHeap => cases h

/-- What a thread has obtained and not returned yet. -/
theorem ThreadOk.fresh_result {s : Store} {th : Thread} (h : ThreadOk ps s G t th)
    (hg : s.grants p = some g) (hh : g.holder = .fresh t) : th.pc.result = some p :=
  (h.holders p (.fresh t) rfl).mp ⟨g, hg, hh⟩

/-- A failed allocation leaves the blocks. -/
theorem OwnStep.failed_blocks (hown : OwnStep ps t sys G o s' th' G') (hinv : SysInv ps sys G)
    (hgoal : (sys.threads t).pc.goal = some goal) {s₁ : Store}
    (hfail : failAlloc s₁ (sys.threads t) goal.request = (s', th'))
    (hgrants : s₁.grants = sys.store.grants) (x : Nat) :
    (sys.setThread t s' th').block x = sys.block x := by
  have hth : th' = (sys.threads t).ret 0 := by
    rw [← (failAlloc_eq s₁ (sys.threads t) goal.request).2, hfail]
  have hfree : th'.pc.isFree = (sys.threads t).pc.isFree := by
    rw [hth, Pc.isFree_of_goal hgoal]
    rfl
  cases hold : goal.request.old with
  | none =>
      refine hown.block_eq hinv (congrFun ?_ x) fun _ _ _ => hfree
      unfold failAlloc at hfail
      rw [hold] at hfail
      rw [← hgrants]
      exact (congrArg (fun r => r.1.grants) hfail).symm
  | some r =>
      obtain ⟨old, u⟩ := r
      have hgr : s'.grants = setHolder sys.store.grants old .client := by
        unfold failAlloc at hfail
        rw [hold] at hfail
        rw [← hgrants]
        exact (congrArg (fun r => r.1.grants) hfail).symm
      by_cases hx : x = old
      · -- The client has the block again, and the atomic heap never took it away.
        subst hx
        obtain ⟨g, hg, hh, _⟩ := (hinv.threads t).old_grant hgoal hold
        have hs : g.shown sys.threads = true := by simp only [Grant.shown, hh]
        have hg' : s'.grants x = some { g with holder := .client } := by
          rw [hgr, setHolder_self, hg]
          rfl
        rw [System.block_shown hg hs,
          System.block_shown (g := { g with holder := .client }) hg' rfl]
        exact congrArg some (Grant.block_congr rfl rfl fun i hi => hown.shown_bytes hinv hg hs hi)
      · exact hown.block_eq hinv (by rw [hgr, setHolder_of_ne _ _ hx]) fun _ _ _ => hfree

/-- A step of an allocation. -/
theorem OwnStep.alloc_steps (hown : OwnStep ps t sys G o s' th' G') (hinv : SysInv ps sys G)
    (hcall : AllocCall ps t call goal sys₀ sys) (hgoal : (sys.threads t).pc.goal = some goal)
    (hd : During ps t call sys₀ (sys.setThread t s' th')) :
    atomicHeap.Steps sys.atomic ((sys.setThread t s' th').returned t)
      (sys.setThread t s' th').atomic := by
  have hasked := Thread.phase_asked hgoal hcall.during.call_eq
  -- A step after which the thread still asks is none of the atomic heap.
  have hstays : ∀ {goal'}, th'.pc.goal = some goal' →
      (∀ x, (sys.setThread t s' th').block x = sys.block x) →
      atomicHeap.Steps sys.atomic ((sys.setThread t s' th').returned t)
        (sys.setThread t s' th').atomic := by
    intro goal' hgoal' hblocks
    have hbusy : th'.pc ≠ .idle := by
      intro heq
      rw [heq] at hgoal'
      cases hgoal'
    rw [System.returned_busy sys hbusy, System.atomic_same hblocks (by
      rw [hasked, Thread.phase_asked hgoal'
        ((stepThread_call hown.run).trans hcall.during.call_eq)])]
    exact .refl _
  have hargs := (hinv.threads t).args
  cases stepThread_alloc hinv.data (hinv.threads t) hown.ok hgoal hown.run hown.outcome with
  | goes hgoal' _ hgrants =>
      refine hstays hgoal' fun x => hown.block_eq hinv (congrFun hgrants x) fun _ _ _ => ?_
      exact (Pc.isFree_of_goal hgoal').trans (Pc.isFree_of_goal hgoal).symm
  | @maps q offset mmapSize b os _ hpc hmap hmem hgrants =>
      have hgoal' : (Pc.registerLarge q offset mmapSize b).goal = some goal := by
        rw [hpc] at hgoal
        exact hgoal
      refine hstays hgoal' fun x => ?_
      by_cases hx : x = b + offset
      · -- The new region is the thread's, and no block yet.
        rw [System.fresh_hidden hgoal, System.block_hidden]
        · intro g hg
          have hg' : s'.grants x = some g := hg
          rw [hgrants, hx, Function.update_self] at hg'
          cases hg'
          simp only [Grant.shown, System.setThread, Function.update_self]
          rfl
        · rw [hpc] at hargs
          have hfits := hargs.fits
          have hpos := hargs.pos
          have hk : KernelOk ps o.mapping sys.store.os mmapSize segmentSize := by
            have hok := hown.ok
            unfold StepOk at hok
            rwa [hpc] at hok
          have hm := osAllocAligned_mapped hk hargs.bound (by decide) hmap
          intro g hg
          rw [hx, hinv.data.inv.fresh_not_granted hm (by omega) (by omega)] at hg
          cases hg
      · refine hown.block_eq hinv ?_ fun _ _ _ => ?_
        · rw [hgrants, Function.update_of_ne hx]
        · rw [Pc.isFree_of_goal hgoal]
          rfl
  | @fails s₁ hgrants =>
      have hpc := congrArg Thread.pc (failAlloc_eq s₁ (sys.threads t) goal.request).2
      have hresult := congrArg Thread.result (failAlloc_eq s₁ (sys.threads t) goal.request).2
      rw [System.returned_idle sys hpc, hresult,
        System.atomic_setThread (hown.failed_blocks hinv hgoal rfl hgrants),
        Thread.phase_idle (by rw [hpc]; rfl) (by rw [hpc]; rfl)]
      exact serve_ret hasked (.refuse hcall.entered.released)
  | @serves q c k b pg s₁ hgoal' hheap hgrants hslot hnone =>
      subst hgoal'
      refine hown.delivered hinv hcall hgoal hd rfl hgrants (fun g hg => ?_) fun x g hg hh => ?_
      · rw [hnone] at hg
        cases hg
      · have hresult := (hinv.threads t).fresh_result hg hh
        rw [Pc.result_of_small hgoal] at hresult
        cases hresult
  | @registers q offset mmapSize b w r hpc hreg =>
      obtain rfl : goal = .large q offset mmapSize := by
        rw [hpc] at hgoal
        exact (Option.some.inj hgoal).symm
      have hresult : (sys.threads t).pc.result = some (b + offset) := by
        rw [hpc]
        rfl
      refine hown.delivered hinv hcall hgoal hd rfl rfl (fun g hg => ?_) fun x g hg hh => ?_
      · obtain ⟨g', hg', hh'⟩ :=
          ((hinv.threads t).holders (b + offset) (.fresh t) rfl).mpr hresult
        rw [hg] at hg'
        cases hg'
        exact hh'
      · exact Option.some.inj (((hinv.threads t).fresh_result hg hh).symm.trans hresult)

end Steps

end HMalloc
