import HMalloc.Requests

/-!
`hm_realloc` of a live pointer. It keeps the block in place when the new size
fits and the block is not mostly waste; else it gets a new block, copies, and
frees the old one. Between the copy and the free the old block is held by the
thread, so that it is freed as the block it was when the call started.
-/

namespace HMalloc

open Bytes Linked

section Others

variable {ps : PageSize} {free : Nat → Prop} {goal : Goal} {mem₀ : Mem} {t : Nat} {sys : System}
  {G G' : Ghost} {o : Oracle} {s' : Store} {th' : Thread}

/-- The pointers of clients are not touched by a step of an allocation. -/
theorem AllocStep.client {s : Store} {th : Thread} (ha : AllocStep ps o s t th goal s' th')
    (hc : Consistent ps s G) (h : ThreadOk ps s G t th) (hok : StepOk ps o s th)
    (hgoal : th.pc.goal = some goal) {x : Nat} {g : Grant} (hg : s.grants x = some g)
    (hh : g.holder = .client) : s'.grants x = some g := by
  have hold : ∀ old u, goal.request.old = some (old, u) → x ≠ old := by
    rintro old u ho rfl
    obtain ⟨g', hg', hh', _⟩ := h.old_grant hgoal ho
    rw [hg] at hg'
    cases hg'
    rw [hh] at hh'
    cases hh'
  have hargs := h.args
  cases ha with
  | goes _ _ hgrants => exact (congrFun hgrants x).trans hg
  | @maps q offset mmapSize b os _ hpc hmap hmem hgrants =>
      rw [hpc] at hargs
      have hk : KernelOk ps o.mapping s.os mmapSize segmentSize := by
        unfold StepOk at hok
        rwa [hpc] at hok
      have hfits := hargs.fits
      have hpos := hargs.pos
      have hne : x ≠ b + offset := by
        rintro rfl
        have hm := osAllocAligned_mapped hk hargs.bound (by decide) hmap
        have hfresh := hc.inv.fresh_not_granted hm (show b ≤ b + offset by omega) (by omega)
        rw [hfresh] at hg
        cases hg
      rw [hgrants, Function.update_of_ne hne]
      exact hg
  | fails hgrants =>
      unfold failAlloc
      cases ho : goal.request.old with
      | none => exact (congrFun hgrants x).trans hg
      | some r =>
          obtain ⟨old, u⟩ := r
          exact (setHolder_of_ne _ _ (hold old u ho)).trans ((congrFun hgrants x).trans hg)
  | @serves q c k b pg s₁ hgoal' _ hgrants _ hnone =>
      subst hgoal'
      have hne : x ≠ b := by
        rintro rfl
        rw [hnone] at hg
        cases hg
      exact (deliver_grants _ _ _ _ _ _ _ hne hold).trans ((congrFun hgrants x).trans hg)
  | @registers q offset mmapSize b w r hpc _ =>
      have hgoal' : goal = .large q offset mmapSize := by
        rw [hpc] at hgoal
        exact (Option.some.inj hgoal).symm
      subst hgoal'
      have hne : x ≠ b + offset := by
        rintro rfl
        obtain ⟨g₁, hg₁, hfresh⟩ := (h.holders (b + offset) (.fresh t) rfl).mpr (by rw [hpc]; rfl)
        rw [hg] at hg₁
        cases hg₁
        rw [hh] at hfresh
        cases hfresh
      exact (deliver_grants _ _ _ _ _ _ _ hne hold).trans hg

/-- The pointers of clients are not touched by a step of a free. -/
theorem FreeStep.client {s : Store} {th : Thread} (hf : FreeStep s th s' th')
    (h : ThreadOk ps s G t th) {x : Nat} {g : Grant} (hg : s.grants x = some g)
    (hh : g.holder = .client) : s'.grants x = some g := by
  have hne : th.pc.freeing ≠ some x := by
    intro heq
    obtain ⟨g', hg', hh'⟩ := (h.holders x (.freeing t) rfl).mpr heq
    rw [hg] at hg'
    cases hg'
    rw [hh] at hh'
    cases hh'
  rcases hf.goes with ⟨_, _, hgrants⟩ | ⟨_, _, hgrants⟩
  · exact (hgrants x hne).trans hg
  · rw [hgrants x hne, hg]
    split
    · rw [Option.map_some, ← hh]
    · rfl

/-- A free hands nothing out. -/
theorem FreeStep.gone {s : Store} {th : Thread} (hf : FreeStep s th s' th')
    (h : ThreadOk ps s G t th) {x : Nat} (hx : s.grants x = none) : s'.grants x = none := by
  have hne : th.pc.freeing ≠ some x := by
    intro heq
    obtain ⟨g, hg, _⟩ := (h.holders x (.freeing t) rfl).mpr heq
    rw [hx] at hg
    cases hg
  rcases hf.goes with ⟨_, _, hgrants⟩ | ⟨_, _, hgrants⟩
  · exact (hgrants x hne).trans hx
  · rw [hgrants x hne, hx]
    split <;> rfl

/-- A step of a call leaves alone every pointer that its thread does not hold. -/
theorem Progress.others (hp : Progress free goal mem₀ t sys.store (sys.threads t))
    (hinv : SysInv ps sys G) (hown : OwnStep ps t sys G o s' th' G') {x : Nat} {g : Grant}
    (hg : sys.store.grants x = some g) (hh : g.holder.thread ≠ some t) :
    s'.grants x = some g ∧
      ∀ y, x ≤ y → y < x + g.usable → s'.os.mem y = sys.store.os.mem y := by
  refine ⟨?_, hown.outcome.frame.bytes x g hg ?_ ?_⟩
  · cases hthread : g.holder.thread with
    | some u =>
        rw [hthread] at hh
        exact (hown.outcome.frame.holders u (fun heq => hh (by rw [heq])) x g hthread).mpr hg
    | none =>
        have hclient : g.holder = .client := by
          cases hholder : g.holder <;> rw [hholder] at hthread <;> cases hthread
        cases hp with
        | asking hgoal =>
            exact (stepThread_alloc hinv.data (hinv.threads t) hown.ok hgoal hown.run
              hown.outcome).client hinv.data (hinv.threads t) hown.ok hgoal hg hclient
        | freeing _ hfree =>
            exact (stepThread_free hfree hown.run).client (hinv.threads t) hg hclient
        | failed hidle => exact absurd hidle hown.busy
        | done hidle => exact absurd hidle hown.busy
  · intro heq
    rw [heq] at hh
    exact hh rfl
  · intro heq
    rw [heq] at hh
    exact hh rfl

end Others

section Realloc

variable {ps : PageSize} {t p n q : Nat} {sys₀ sys sys' : System} {g : Grant}

/-- The block is kept in place. -/
def Keeps (n usable : Nat) : Prop := n ≤ usable ∧ (usable ≤ smallSizeMax ∨ n > usable / 2)

instance (n usable : Nat) : Decidable (Keeps n usable) := by
  unfold Keeps
  infer_instance

/-- `hm_realloc` of a pointer that is handed out. -/
theorem Inv.hmRealloc_eq {s : Store} {G : Ghost} (hinv : Inv ps s G) (hg : s.grants p = some g)
    (hn : n ≠ 0) : hmRealloc ps s p n =
      if Keeps n g.usable then .ret p else hmMalloc ps ⟨n, false, some (p, g.usable)⟩ := by
  unfold hmRealloc
  rw [if_neg (hinv.grant_ne_zero hg), if_neg hn, hinv.usableSize_eq hg]
  rfl

/-- A block that is kept is as it was, but for the size it was asked for. -/
theorem During.kept (h : During ps t (.realloc p n) sys₀ sys) (hp : p ≠ 0)
    (hg : sys₀.store.grants p = some g)
    (hentry : enter ps sys₀.store (.realloc p n) = .ret p) :
    (sys.threads t).result = p ∧ sys.store = { sys₀.store with
      grants := Function.update sys₀.store.grants p (some { g with size := n }) } := by
  rw [h.immediate hentry]
  constructor
  · simp [System.setThread, Thread.ret]
  · simp [System.setThread, enterGrants, hp, hg]

theorem During.idle_of_ret {call : Call} {result : Nat} (h : During ps t call sys₀ sys)
    (hentry : enter ps sys₀.store call = .ret result) : (sys.threads t).pc = .idle := by
  rw [h.immediate hentry]
  simp [System.setThread, Thread.ret]

/-- What `hm_malloc` does with a request. -/
theorem hmMalloc_entry (ps : PageSize) (q : Request) (hsize : q.size < 2 ^ 64) :
    hmMalloc ps q = .ret 0 ∨
      ∃ pc goal, hmMalloc ps q = .goto pc ∧ pc.goal = some goal ∧ goal.request = q := by
  unfold hmMalloc
  split
  · exact Or.inl rfl
  rename_i hzero
  split
  · exact Or.inr ⟨_, _, rfl, rfl, rfl⟩
  · rw [allocLarge_eq .least (by omega) hsize]
    split
    · exact Or.inr ⟨_, _, rfl, rfl, rfl⟩
    · exact Or.inl rfl

/-- As long as the thread holds the old block, it is the block it was. -/
theorem During.origin {pc : Pc} {goal : Goal} (h : During ps t (.realloc p n) sys₀ sys)
    (hr : Reachable ps sys₀) (hg : sys₀.store.grants p = some g)
    (hentry : enter ps sys₀.store (.realloc p n) = .goto pc) (hgoal : pc.goal = some goal)
    (hmove : ∃ u, goal.request.old = some (p, u)) :
    ∀ g', sys.store.grants p = some g' → g'.holder.thread = some t → g'.origin = g.origin := by
  obtain ⟨u, hmove⟩ := hmove
  refine h.induct (R := fun sys => ∀ g', sys.store.grants p = some g' →
    g'.holder.thread = some t → g'.origin = g.origin) hr ?_ ?_ ?_
  · rintro sys ⟨_, hrun⟩ g' hg' _
    rw [exec_call, hentry] at hrun
    cases hrun
    simp only [System.setThread, enterGrants] at hg'
    split at hg'
    · rw [hg] at hg'
      cases hg'
      rfl
    · rw [setHolder_self, hg] at hg'
      cases hg'
      rfl
  · intro sys G o s' th' G' hd _ hinv ih hown g' hg' hh'
    change s'.grants p = some g' at hg'
    have hp := hd.progress hr hentry hgoal
    have hfrom : ∃ g₁, sys.store.grants p = some g₁ ∧ g₁.holder.thread = some t := by
      cases hgrant : sys.store.grants p with
      | some g₁ =>
          refine ⟨g₁, rfl, ?_⟩
          by_contra hother
          obtain ⟨hkept, _⟩ := hp.others hinv hown hgrant hother
          rw [hg'] at hkept
          cases hkept
          exact hother hh'
      | none =>
          -- Once it is given up the thread does not get it back.
          have hgone : s'.grants p = none := by
            cases hp with
            | asking hgoal =>
                obtain ⟨g₁, hg₁, _⟩ := (hinv.threads t).old_grant hgoal hmove
                rw [hgrant] at hg₁
                cases hg₁
            | freeing _ hfree =>
                exact (stepThread_free hfree hown.run).gone (hinv.threads t) hgrant
            | failed hidle => exact absurd hidle hown.busy
            | done hidle => exact absurd hidle hown.busy
          rw [hgone] at hg'
          cases hg'
    obtain ⟨g₁, hg₁, hh₁⟩ := hfrom
    rw [(hown.outcome.frame.same p g₁ g' hg₁ hg').1]
    exact ih g₁ hg₁ hh₁
  · intro sys G sys' G' _ hinv hbusy ih hby g' hg' hh'
    exact ih g' ((hby.held p g' hh').mp hg') hh'

/-- A call of `hm_realloc` that asks for a new block. -/
structure Moves (ps : PageSize) (s : Store) (p n usable : Nat) (pc : Pc) (goal : Goal) : Prop where
  entry : enter ps s (.realloc p n) = .goto pc
  asks : pc.goal = some goal
  request : goal.request = ⟨n, false, some (p, usable)⟩

/-- The three things a call of `hm_realloc` can do. -/
theorem During.realloc_cases (h : During ps t (.realloc p n) sys₀ sys) (hr : Reachable ps sys₀)
    (hn : 0 < n) (hg : sys₀.store.grants p = some g) :
    (Keeps n g.usable ∧ enter ps sys₀.store (.realloc p n) = .ret p) ∨
    enter ps sys₀.store (.realloc p n) = .ret 0 ∨
    ∃ pc goal, Moves ps sys₀.store p n g.usable pc goal := by
  obtain ⟨G, hinv⟩ := hr.inv
  have hentry : enter ps sys₀.store (.realloc p n) = _ :=
    hinv.data.inv.hmRealloc_eq hg (Nat.pos_iff_ne_zero.mp hn)
  have hsize : n < 2 ^ 64 := h.allowed.2.2.1
  split at hentry
  · rename_i hkeeps
    exact Or.inl ⟨hkeeps, hentry⟩
  · rcases hmMalloc_entry ps ⟨n, false, some (p, g.usable)⟩ hsize with hret | ⟨pc, goal, hgoto, hs⟩
    · exact Or.inr (Or.inl (hentry.trans hret))
    · exact Or.inr (Or.inr ⟨pc, goal, hentry.trans hgoto, hs.1, hs.2⟩)

/-- What a run of `hm_realloc` that returns a block has done. -/
theorem CallRun.moved {passed : List System} (h : CallRun ps t (.realloc p n) sys₀ sys passed)
    (hr : Reachable ps sys₀) (hidle : (sys.threads t).pc = .idle)
    (hresult : (sys.threads t).result = q) (hq : q ≠ 0) (hn : 0 < n)
    (hg : sys₀.store.grants p = some g) :
    n ≤ usableSize sys.store q ∧
    (∀ i < min n g.usable, sys.store.os.mem (q + i) = sys₀.store.os.mem (p + i)) ∧
    ((q = p ∧ sys.store = { sys₀.store with
        grants := Function.update sys₀.store.grants p (some { g with size := n }) }) ∨
      (q ≠ p ∧ (∃ g', sys.store.grants q = some g' ∧ g'.holder = .client) ∧
        FreeIn (sys :: passed) q ∧ FreeIn (sys :: passed) p)) := by
  obtain ⟨G₀, hinv₀⟩ := hr.inv
  obtain ⟨G, hinv⟩ := (h.during.reachable hr).inv
  have hp := hinv₀.data.inv.grant_ne_zero hg
  rcases h.during.realloc_cases hr hn hg with ⟨hkeeps, hentry⟩ | hentry | ⟨pc, goal, hm⟩
  · obtain ⟨hkept, hstore⟩ := h.during.kept hp hg hentry
    obtain rfl : q = p := hresult.symm.trans hkept
    have hg' : sys.store.grants q = some { g with size := n } := by
      rw [hstore]
      exact Function.update_self ..
    refine ⟨?_, ?_, Or.inl ⟨rfl, hstore⟩⟩
    · rw [hinv.data.inv.usableSize_eq hg']
      exact hkeeps.1
    · intro i _
      rw [hstore]
  · exact absurd (hresult.symm.trans (h.during.refused hentry).1.result) hq
  · obtain ⟨hobt, hfresh, hfreed⟩ := h.obtained hr hidle hresult hq hm.entry hm.asks
    have hold : goal.request.old = some (p, g.usable) := by rw [hm.request]
    have hsize : goal.request.size = n := by rw [hm.request]
    obtain ⟨hne, hgone⟩ := hfreed p g.usable hold
    obtain ⟨g', hg', hclient, _⟩ := hobt.grant
    refine ⟨hsize ▸ hobt.usable hinv.data.inv, fun i hi => ?_,
      Or.inr ⟨hne, ⟨g', hg', hclient⟩, hfresh, hgone⟩⟩
    exact hobt.contents.moved p g.usable hold i (by rw [hsize]; omega) (by omega)

/-- What a call of `hm_realloc` that returns null has done. -/
theorem Returns.unmoved (h : Returns ps t (.realloc p n) sys₀ sys 0) (hr : Reachable ps sys₀)
    (hn : 0 < n) (hg : sys₀.store.grants p = some g) (hh : g.holder = .client) :
    ∃ g', sys.store.grants p = some g' ∧ g'.holder = .client ∧ g'.usable = g.usable ∧
      ∀ i < g.usable, sys.store.os.mem (p + i) = sys₀.store.os.mem (p + i) := by
  obtain ⟨G₀, hinv₀⟩ := hr.inv
  obtain ⟨G, hinv⟩ := (h.during.reachable hr).inv
  have hp := hinv₀.data.inv.grant_ne_zero hg
  rcases h.during.realloc_cases hr hn hg with ⟨_, hentry⟩ | hentry | ⟨pc, goal, hm⟩
  · exact absurd ((h.during.kept hp hg hentry).1.symm.trans h.result) hp
  · have hstore := (h.during.refused hentry).2
    rw [hstore]
    exact ⟨g, hg, hh, rfl, fun _ _ => rfl⟩
  · have hidle := h.idle
    have hold : goal.request.old = some (p, g.usable) := by rw [hm.request]
    cases h.during.progress hr hm.entry hm.asks with
    | asking hgoal =>
        rw [hidle] at hgoal
        cases hgoal
    | freeing _ hfree =>
        rw [hidle] at hfree
        cases hfree
    | failed _ _ hkept hlive =>
        obtain ⟨g', hg', hh', hu'⟩ := hlive p g.usable hold
        exact ⟨g', hg', hh', hu', hkept p g.usable hold⟩
    | done _ hobt =>
        obtain ⟨g', hg', _⟩ := hobt.grant
        exact absurd h.result (hinv.data.inv.grant_ne_zero hg')

/-- The old block is freed as the small or large block it was. -/
theorem During.routes (h : During ps t (.realloc p n) sys₀ sys) (hr : Reachable ps sys₀)
    (hn : 0 < n) (hg : sys₀.store.grants p = some g) {r : Nat}
    (hpc : (sys.threads t).pc = .free p r) :
    (∀ pg i, g.origin = .small pg i → isLarge sys.store.os.mem p = false ∧ pageOf p = pg) ∧
      ∀ b, g.origin = .large b → isLarge sys.store.os.mem p = true ∧ regionBase p = b := by
  obtain ⟨G₀, hinv₀⟩ := hr.inv
  obtain ⟨G, hinv⟩ := (h.reachable hr).inv
  have himmediate : ∀ result, enter ps sys₀.store (.realloc p n) ≠ .ret result := by
    intro result hentry
    rw [h.idle_of_ret hentry] at hpc
    cases hpc
  rcases h.realloc_cases hr hn hg with ⟨_, hentry⟩ | hentry | ⟨pc, goal, hm⟩
  · exact absurd hentry (himmediate _)
  · exact absurd hentry (himmediate _)
  · obtain ⟨g', hg', hh'⟩ := ((hinv.threads t).holders p (.freeing t) rfl).mpr (by rw [hpc]; rfl)
    have horigin := h.origin hr hg hm.entry hm.asks ⟨g.usable, by rw [hm.request]⟩ g' hg'
      (by rw [hh']; rfl)
    refine ⟨fun pg i ho => ?_, fun b ho => ?_⟩
    · exact (hinv.data.inv.decode_small hg' (horigin.trans ho)).2
    · exact (hinv.data.inv.decode_large hg' (horigin.trans ho)).symm

/-- The pointers that the thread does not hold, in a call of `hm_realloc`. -/
theorem OfCall.others (h : OfCall ps t (.realloc p n) sys₀ sys sys') (hr : Reachable ps sys₀)
    (hn : 0 < n) (hg : sys₀.store.grants p = some g) {x : Nat} {gx : Grant} (hne : x ≠ p)
    (hx : sys.store.grants x = some gx) (hh : gx.holder.thread ≠ some t) :
    sys'.store.grants x = some gx ∧
      ∀ y, x ≤ y → y < x + gx.usable → sys'.store.os.mem y = sys.store.os.mem y := by
  cases h with
  | start hstep =>
      obtain ⟨_, hrun⟩ := hstep
      rw [exec_call] at hrun
      have hkept : ∀ entry, enterGrants sys₀.store t (.realloc p n) entry x = some gx := by
        intro entry
        cases entry with
        | ret result =>
            simp only [enterGrants]
            split
            · exact hx
            · exact (Function.update_of_ne hne ..).trans hx
        | goto pc =>
            simp only [enterGrants]
            split
            · exact hx
            · exact (setHolder_of_ne _ _ hne).trans hx
      cases hrun
      exact ⟨hkept _, fun _ _ _ => rfl⟩
  | @step _ _ o hd hstep =>
      obtain ⟨G, hinv⟩ := (hd.reachable hr).inv
      obtain ⟨s', th', G', hown, rfl⟩ := hinv.own_step hstep
      rcases hd.realloc_cases hr hn hg with ⟨_, hentry⟩ | hentry | ⟨pc, goal, hm⟩
      · exact absurd (hd.idle_of_ret hentry) hown.busy
      · exact absurd (hd.idle_of_ret hentry) hown.busy
      · exact (hd.progress hr hm.entry hm.asks).others hinv hown hx hh

/-- `hm_realloc` preserves contents or does nothing. For every reachable state,
every live pointer and every size above zero: a block that a run of the call
returns is long enough and has the contents of the old one; it is the old one
with nothing else changed, or a block that is the client's now and was free on the
way, with the old one given up on the way; a call that returns null leaves the old
block live with its contents; no step of the call touches another pointer; and
the old block is freed as what it was. -/
theorem realloc_preserves (ps : PageSize) {sys₀ : System} (hr : Reachable ps sys₀) (t p n : Nat)
    (hn : 0 < n) {g : Grant} (hg : sys₀.store.grants p = some g) (hh : g.holder = .client) :
    (∀ sys passed q, CallRun ps t (.realloc p n) sys₀ sys passed →
      (sys.threads t).pc = .idle → (sys.threads t).result = q → q ≠ 0 →
      n ≤ usableSize sys.store q ∧
      (∀ i < min n (usableSize sys₀.store p),
        sys.store.os.mem (q + i) = sys₀.store.os.mem (p + i)) ∧
      ((q = p ∧ sys.store = { sys₀.store with
          grants := Function.update sys₀.store.grants p (some { g with size := n }) }) ∨
        (q ≠ p ∧ (∃ g', sys.store.grants q = some g' ∧ g'.holder = .client) ∧
          FreeIn (sys :: passed) q ∧ FreeIn (sys :: passed) p))) ∧
    (∀ sys, Returns ps t (.realloc p n) sys₀ sys 0 →
      ∃ g', sys.store.grants p = some g' ∧ g'.holder = .client ∧
        g'.usable = usableSize sys₀.store p ∧
        ∀ i < usableSize sys₀.store p, sys.store.os.mem (p + i) = sys₀.store.os.mem (p + i)) ∧
    (∀ sys sys', OfCall ps t (.realloc p n) sys₀ sys sys' →
      ∀ x gx, x ≠ p → sys.store.grants x = some gx → gx.holder.thread ≠ some t →
        sys'.store.grants x = some gx ∧
          ∀ i < gx.usable, sys'.store.os.mem (x + i) = sys.store.os.mem (x + i)) ∧
    (∀ sys r, During ps t (.realloc p n) sys₀ sys → (sys.threads t).pc = .free p r →
      (∀ pg i, g.origin = .small pg i → isLarge sys.store.os.mem p = false ∧ pageOf p = pg) ∧
        ∀ b, g.origin = .large b → isLarge sys.store.os.mem p = true ∧ regionBase p = b) := by
  obtain ⟨G, hinv⟩ := hr.inv
  rw [hinv.data.inv.usableSize_eq hg]
  refine ⟨fun sys passed q h hidle hresult hq => h.moved hr hidle hresult hq hn hg,
    fun sys h => h.unmoved hr hn hg hh, ?_, fun sys r h hpc => h.routes hr hn hg hpc⟩
  intro sys sys' h x gx hne hx hhx
  obtain ⟨hkept, hbytes⟩ := h.others hr hn hg hne hx hhx
  exact ⟨hkept, fun i hi => hbytes _ (by omega) (by omega)⟩

/-- The first block of 16 bytes is moved to a block of 112 and given up. -/
theorem realloc_preserves_grown : ∃ sys₀ sys passed p q, Reachable page4k sys₀ ∧
    CallRun page4k 0 (.realloc p 100) sys₀ sys passed ∧ (sys.threads 0).pc = .idle ∧
      (sys.threads 0).result = q ∧ q ≠ p ∧ 100 ≤ usableSize sys.store q ∧
      (∀ i < min 100 (usableSize sys₀.store p),
        sys.store.os.mem (q + i) = sys₀.store.os.mem (p + i)) ∧
      (∃ g, sys.store.grants q = some g ∧ g.holder = .client) ∧
      FreeIn (sys :: passed) q ∧ FreeIn (sys :: passed) p := by
  have hrun : callSchedule page4k 0 (.realloc 8796097150976 100) (firstMalloc 0 16)
      [.step 0 false, .step 0 false, .step 0 false] (fun sys₀ sys =>
        (sys₀.store.grants 8796097150976).any (fun g => g.holder == .client) &&
          (sys.threads 0).pc == .idle && (sys.threads 0).result != 0 &&
          (sys.threads 0).result != 8796097150976) = true := by
    decide +kernel
  obtain ⟨sys₀, sys, hr, hd, hcheck⟩ := callSchedule_during hrun
  simp only [Bool.and_eq_true, beq_iff_eq, bne_iff_ne, Option.any_eq_true] at hcheck
  obtain ⟨⟨⟨⟨g, hg, hh⟩, hidle⟩, hne⟩, hmoved⟩ := hcheck
  obtain ⟨passed, hcall⟩ := hd.run
  obtain ⟨husable, hsame, hcases⟩ := (realloc_preserves page4k hr 0 8796097150976 100 (by decide)
    hg hh).1 sys passed _ hcall hidle rfl hne
  obtain ⟨_, hlive, hfresh, hgone⟩ := hcases.resolve_left (fun hsame => hmoved hsame.1)
  exact ⟨sys₀, sys, passed, _, _, hr, hcall, hidle, rfl, hmoved, husable, hsame, hlive, hfresh,
    hgone⟩

/-- A second call finds the block as it needs it. -/
theorem SysInv.realloc_again {G : Ghost} (hinv : SysInv ps sys G) (hn : 0 < n)
    (hg : sys.store.grants q = some g) (hsize : g.size = n) (hkeeps : Keeps n g.usable) (u : Nat) :
    exec ps sys (.call u (.realloc q n)) = some (sys.setThread u sys.store
      ({ sys.threads u with call := some (.realloc q n) }.ret q)) := by
  have hq := hinv.data.inv.grant_ne_zero hg
  have hentry : enter ps sys.store (.realloc q n) = .ret q := by
    have heq := hinv.data.inv.hmRealloc_eq hg (Nat.pos_iff_ne_zero.mp hn)
    rwa [if_pos hkeeps] at heq
  have hgrants : enterGrants sys.store u (.realloc q n) (.ret q) = sys.store.grants := by
    simp only [enterGrants, if_neg hq, hg, Option.map_some, ← hsize]
    rw [← hg, Function.update_eq_self]
  rw [exec_call, hentry, hgrants]
  rfl

/-- What a call returns is not mostly waste. -/
theorem Returns.keeps (h : Returns ps t (.realloc p n) sys₀ sys q) (hr : Reachable ps sys₀)
    (hps : ps.bytes ≤ 16384) (hq : q ≠ 0) (hn : 0 < n) (hg : sys₀.store.grants p = some g) :
    ∃ g', sys.store.grants q = some g' ∧ g'.holder = .client ∧ g'.size = n ∧
      Keeps n g'.usable := by
  obtain ⟨G₀, hinv₀⟩ := hr.inv
  have hinv := hinv₀.data.inv
  have hp := hinv.grant_ne_zero hg
  have hcall := h.during.allowed.2.2
  have hclient : g.holder = .client := by
    obtain hzero | ⟨g', hg', hh'⟩ := hcall.2
    · exact absurd hzero hp
    · rw [hg] at hg'
      cases hg'
      exact hh'
  have hentry : enter ps sys₀.store (.realloc p n) = _ :=
    hinv.hmRealloc_eq hg (Nat.pos_iff_ne_zero.mp hn)
  split at hentry
  · rename_i hkeeps
    obtain ⟨hresult, hstore⟩ := h.during.kept hp hg hentry
    obtain rfl : q = p := h.result.symm.trans hresult
    refine ⟨{ g with size := n }, ?_, hclient, rfl, hkeeps⟩
    rw [hstore]
    exact Function.update_self ..
  · have hsmall : smallSizeMax = 16384 := by decide
    have hoffset : largeOffset = 32 := by decide
    rcases h.malloc hq hentry hcall.1 with ⟨hzero, hle, hgoto⟩ | ⟨hbig, hgoto⟩
    · have hobt := h.obtained hr hq hgoto rfl
      obtain ⟨g', hg', hh', hsize, husable, _⟩ := hobt.grant
      have hfits := le_classToSize hn hle
      have hmax := (classToSize_spec (sizeClass_lt hn hle)).2.2
      exact ⟨g', hg', hh', hsize, by rw [husable]; exact hfits,
        Or.inl (by rw [husable]; exact hmax)⟩
    · have hobt := h.obtained hr hq hgoto rfl
      obtain ⟨g', hg', hh', hsize, husable, _⟩ := hobt.grant
      obtain ⟨_, hle, hlt⟩ := ceilTo_spec (largeOffset + n) ps.bytes_pos
      simp only at hbig husable
      refine ⟨g', hg', hh', hsize, ?_, Or.inr ?_⟩ <;> rw [husable] <;> omega

/-- `hm_realloc` is idempotent and bounds waste. For every page size of at most
16 KiB, every reachable state, every live pointer and every size above zero: the
block it returns is at most twice as long as asked for, or of a small size, and
a second call with the same size, from any thread, returns it at once and
changes nothing. -/
theorem realloc_idempotent (ps : PageSize) (hps : ps.bytes ≤ 16384) {sys₀ : System}
    (hr : Reachable ps sys₀) (t p n : Nat) (hn : 0 < n)
    (hlive : ∃ g, sys₀.store.grants p = some g ∧ g.holder = .client) {sys : System} {q : Nat}
    (h : Returns ps t (.realloc p n) sys₀ sys q) (hq : q ≠ 0) :
    usableSize sys.store q ≤ max smallSizeMax (2 * n) ∧ CallOk sys.store (.realloc q n) ∧
      ∀ u, exec ps sys (.call u (.realloc q n)) = some (sys.setThread u sys.store
        ({ sys.threads u with call := some (.realloc q n) }.ret q)) := by
  obtain ⟨g, hg, _⟩ := hlive
  obtain ⟨G, hinv⟩ := (h.during.reachable hr).inv
  obtain ⟨g', hg', hh', hsize, hkeeps⟩ := h.keeps hr hps hq hn hg
  refine ⟨?_, ⟨h.during.allowed.2.2.1, Or.inr ⟨g', hg', hh'⟩⟩,
    fun u => hinv.realloc_again hn hg' hsize hkeeps u⟩
  rw [hinv.data.inv.usableSize_eq hg']
  obtain ⟨_, hwaste⟩ := hkeeps
  omega

/-- The first block of 16 bytes is asked to hold 40000, twice. -/
theorem realloc_idempotent_large : ∃ sys₀ sys p q, Reachable page4k sys₀ ∧
    Returns page4k 0 (.realloc p 40000) sys₀ sys q ∧ q ≠ 0 ∧
      usableSize sys.store q ≤ max smallSizeMax 80000 ∧
      exec page4k sys (.call 0 (.realloc q 40000)) = some (sys.setThread 0 sys.store
        ({ sys.threads 0 with call := some (.realloc q 40000) }.ret q)) := by
  have hrun : callSchedule page4k 0 (.realloc 8796097150976 40000) (firstMalloc 0 16)
      [.step 0 true, .step 0 true, .step 0 false] (fun sys₀ sys =>
        (sys₀.store.grants 8796097150976).any (fun g => g.holder == .client) &&
          (sys.threads 0).pc == .idle && (sys.threads 0).result != 0) = true := by
    decide +kernel
  obtain ⟨sys₀, sys, hr, hd, hcheck⟩ := callSchedule_during hrun
  simp only [Bool.and_eq_true, beq_iff_eq, bne_iff_ne, Option.any_eq_true] at hcheck
  obtain ⟨⟨hlive, hidle⟩, hne⟩ := hcheck
  have hret : Returns page4k 0 (.realloc 8796097150976 40000) sys₀ sys (sys.threads 0).result :=
    ⟨hd, hidle, rfl⟩
  obtain ⟨hwaste, _, hagain⟩ := realloc_idempotent page4k (by decide) hr 0 8796097150976 40000
    (by decide) hlive hret hne
  exact ⟨sys₀, sys, _, _, hr, hret, hne, hwaste, hagain 0⟩

end Realloc

end HMalloc
