import HMalloc.Acquire
import HMalloc.SlowRuns

/-!
Allocation calls that return null. The walk leaves a page that cannot serve as
it was, the sweep collects abandoned pages and returns none to its pool, or a
page would be available afterwards, and the mapping that fails is the last
thing the call does. So nothing has changed but abandoned pages whose remotely
freed blocks are now on their local lists.
-/

namespace HMalloc

open Bytes Linked

/-- The calls that ask for a new block. -/
def Call.Allocates : Call → Prop
  | .malloc _ | .calloc _ _ | .alignedAlloc _ _ => True
  | .realloc _ _ | .free _ => False

/-- The states of a call of thread `t` during which nothing else happens. -/
inductive Alone (ps : PageSize) (t : Nat) (call : Call) (sys₀ : System) : System → Prop where
  | start {sys : System} (hstep : Step ps sys₀ (.call t call) sys) : Alone ps t call sys₀ sys
  | step {sys sys' : System} {o : Oracle} (h : Alone ps t call sys₀ sys)
      (hstep : Step ps sys (.step t o) sys') : Alone ps t call sys₀ sys'

/-- A page of the abandoned list. -/
structure Store.Abandoned (s : Store) (pg : PageId) : Prop where
  owner : s.page.owner pg = .abandoned
  listed : ∃ l, Chain s.page.next s.central.abandoned l ∧ pg ∈ l

/-- The page has the same fields and, if it is in use, the same free lists. -/
structure SamePage (s s' : Store) (pg : PageId) : Prop where
  row : s'.page.row pg = s.page.row pg
  blocks : s.page.inUse pg = true → ∀ l, Chain (link s.os.mem) (ptr (s.page.free pg)) l →
    Chain (link s'.os.mem) (ptr (s'.page.free pg)) l
  remote : s.page.inUse pg = true → ∀ l, Chain (link s.os.mem) (ptr (s.page.threadFree pg)) l →
    Chain (link s'.os.mem) (ptr (s'.page.threadFree pg)) l

/-- The remotely freed blocks of the page have moved to its local list. -/
structure Collected (s s' : Store) (pg : PageId) : Prop where
  row : s'.page.row pg =
    { s.page.row pg with free := s'.page.free pg, used := s'.page.used pg, threadFree := 0 }
  lists : ∃ remote blocks, Chain (link s.os.mem) (ptr (s.page.threadFree pg)) remote ∧
    Chain (link s.os.mem) (ptr (s.page.free pg)) blocks ∧
    Chain (link s'.os.mem) (ptr (s'.page.free pg)) (remote ++ blocks) ∧
    s'.page.used pg + remote.length = s.page.used pg

/-- What a failed call leaves: everything outside the pages is the same (the class
lists, the central heap with its pools and counters, both registries, the large
counters, the mappings and their accounts, the pointers handed out), every live
pointer has its contents, and every page is the same or is an abandoned one
that was collected. -/
structure Unchanged (s s' : Store) : Prop where
  rest : s' = { s with os := { s.os with mem := s'.os.mem }, page := s'.page }
  next : s'.page.next = s.page.next
  prev : s'.page.prev = s.page.prev
  pages : ∀ pg, IsPage (IsSegment s.os.regions) pg →
    SamePage s s' pg ∨ s.Abandoned pg ∧ Collected s s' pg
  bytes : ∀ p g, s.grants p = some g → ∀ x, p ≤ x → x < p + g.usable → s'.os.mem x = s.os.mem x

/-- The store while the sweep has only collected pages, with the ghost state. -/
structure Swept (s : Store) (G : Ghost) (s' : Store) (G' : Ghost) : Prop where
  rest : s' = { s with os := { s.os with mem := s'.os.mem }, page := s'.page }
  next : s'.page.next = s.page.next
  prev : s'.page.prev = s.page.prev
  bytes : ∀ p g, s.grants p = some g → ∀ x, p ≤ x → x < p + g.usable → s'.os.mem x = s.os.mem x
  ghost : G' = { G with page := G'.page }
  pages : ∀ pg, s'.page.row pg = s.page.row pg ∧ G'.page pg = G.page pg ∨
    (G.page pg).loc = .abandoned ∧ G'.page pg = (G.page pg).collected ∧ s'.page.row pg =
      { s.page.row pg with free := s'.page.free pg, used := s'.page.used pg, threadFree := 0 }

theorem pageCollect_row {s s' : Store} {pg : PageId} (h : pageCollect s pg = some s') :
    s'.page.row pg =
      { s.page.row pg with free := s'.page.free pg, used := s'.page.used pg, threadFree := 0 } := by
  obtain ⟨mem, free, used, rfl⟩ := pageCollect_shape h
  simp [Pages.row]

theorem PageGhost.collected_twice (g : PageGhost) : g.collected.collected = g.collected := rfl

section Sweeps

variable {ps : PageSize} {s s' s'' : Store} {G G' : Ghost} {pg : PageId}

theorem Swept.refl (s : Store) (G : Ghost) : Swept s G s G :=
  ⟨rfl, rfl, rfl, fun _ _ _ _ _ _ => rfl, rfl, fun _ => Or.inl ⟨rfl, rfl⟩⟩

theorem Swept.loc (h : Swept s G s' G') (q : PageId) : (G'.page q).loc = (G.page q).loc := by
  rcases h.pages q with ⟨_, hq⟩ | ⟨_, hq, _⟩ <;> rw [hq]
  rfl

/-- One more page is collected. -/
theorem Swept.visit (h : Swept s G s' G') (hloc : (G'.page pg).loc = .abandoned)
    (hcollect : pageCollect s' pg = some s'') (hstep : PageStep pg s' s'') :
    Swept s G s'' (G'.setPage pg (G'.page pg).collected) where
  rest := by
    have hrest := hstep.rest
    rw [h.rest] at hrest
    exact hrest
  next := hstep.next.trans h.next
  prev := hstep.prev.trans h.prev
  bytes := by
    intro p g hg x hlo hhi
    rw [hstep.bytes p g (by rw [h.rest]; exact hg) x hlo hhi]
    exact h.bytes p g hg x hlo hhi
  ghost := by
    rw [h.ghost]
    rfl
  pages := by
    intro q
    by_cases hq : q = pg
    · subst hq
      refine Or.inr ⟨(h.loc q).symm.trans hloc, ?_, ?_⟩
      · rw [Ghost.setPage_self]
        rcases h.pages q with ⟨_, heq⟩ | ⟨_, heq, _⟩ <;> rw [heq]
        exact PageGhost.collected_twice _
      · rw [pageCollect_row hcollect]
        rcases h.pages q with ⟨heq, _⟩ | ⟨_, _, heq⟩ <;> rw [heq]
    · rw [Ghost.setPage_of_ne G' _ hq, hstep.row q hq]
      rcases h.pages q with hsame | ⟨habandoned, hghost, hrow⟩
      · exact Or.inl hsame
      · refine Or.inr ⟨habandoned, hghost, ?_⟩
        have hfree : s''.page.free q = s'.page.free q := congrArg PageState.free (hstep.row q hq)
        have hused : s''.page.used q = s'.page.used q := congrArg PageState.used (hstep.row q hq)
        rw [hfree, hused]
        exact hrow

/-- A page is the same, or an abandoned one that was collected. -/
theorem Swept.page (h : Swept s G s' G') (hinv : Inv ps s G) (hinv' : Inv ps s' G')
    (hlimbo : G.limbo = none) (hpg : IsPage (IsSegment s.os.regions) pg) :
    SamePage s s' pg ∨ s.Abandoned pg ∧ Collected s s' pg := by
  have hpg' : IsPage (IsSegment s'.os.regions) pg := by
    rw [h.rest]
    exact hpg
  have hpage := hinv.pages pg hpg
  have hpage' := hinv'.pages pg hpg'
  rcases h.pages pg with ⟨hrow, hghost⟩ | ⟨hloc, hghost, hrow⟩
  · refine Or.inl ?_
    have hserv : s.page.inUse pg = true → InService s.os.mem (s.page.row pg) (G.page pg) ∧
        InService s'.os.mem (s'.page.row pg) (G.page pg) := by
      intro huse
      have hloc : (G.page pg).loc ≠ .pool ∧ (G.page pg).loc ≠ .limbo := by
        refine ⟨fun hpool => ?_, fun hnone => ?_⟩
        · have hcase := hpage.loc
          unfold LocOk at hcase
          rw [hpool] at hcase
          exact absurd (hcase.2.1.symm.trans huse) (by simp)
        · have hsome := (hinv.lists.places.limbo pg).mpr ⟨hpg, hnone⟩
          rw [hlimbo] at hsome
          cases hsome
      rw [hghost] at hpage'
      exact ⟨hpage.inService hloc, hpage'.inService hloc⟩
    refine ⟨hrow, fun huse l hl => ?_, fun huse l hl => ?_⟩
    · obtain ⟨hin, hin'⟩ := hserv huse
      rw [hl.unique hin.free]
      exact hin'.free
    · obtain ⟨hin, hin'⟩ := hserv huse
      rw [hl.unique hin.remote]
      exact hin'.remote
  · refine Or.inr ?_
    have hin := hpage.inService (by simp [hloc])
    have hin' := hpage'.inService (by simp [hghost, PageGhost.collected, hloc])
    rw [hghost] at hin'
    have howner : s.page.owner pg = .abandoned := by
      have hcase := hpage.loc
      unfold LocOk at hcase
      rw [hloc] at hcase
      exact hcase.1
    refine ⟨⟨howner, G.abandoned, hinv.lists.chains.abandoned,
      (hinv.lists.places.abandoned pg).mpr ⟨hpg, hloc⟩⟩, hrow, (G.page pg).remote,
      (G.page pg).free, hin.remote, hin.free, hin'.free, ?_⟩
    have hused : s.page.used pg = _ := hin.used
    have hused' : s'.page.used pg = _ := hin'.used
    rw [hused, hused']
    simp [PageGhost.collected]

/-- The lock is given up after a sweep that has found nothing. -/
theorem Swept.unchanged {t : Nat} (hmtx : s.central.mtx = none)
    (h : Swept { s with central := { s.central with mtx := some t } } G s' G')
    (hinv : Inv ps s G) (hinv' : Inv ps s' G') (hlimbo : G.limbo = none) :
    Unchanged s { s' with central := { s'.central with mtx := none } } where
  rest := by
    have hcentral : { s'.central with mtx := none } = s.central := by
      rw [h.rest]
      simp only
      rw [← hmtx]
    rw [hcentral]
    conv_lhs => rw [h.rest]
  next := h.next
  prev := h.prev
  pages := by
    intro pg hpg
    rcases h.page (hinv.setMtx (some t)) hinv' hlimbo hpg with hsame | ⟨habandoned, hcollected⟩
    · exact Or.inl ⟨hsame.row, hsame.blocks, hsame.remote⟩
    · exact Or.inr ⟨⟨habandoned.owner, habandoned.listed⟩, ⟨hcollected.row, hcollected.lists⟩⟩
  bytes := h.bytes

/-- A round of the sweep after which nothing is available has kept its page. -/
theorem Inv.visit_none (h : Inv ps s G) (hlimbo : G.limbo = none) (hdying : G.dying = none)
    {cur : Option PageId} (hcur : CursorOk G cur) (hread : cursorRead s cur = some pg)
    {next : SweepNext} (hvisit : HMalloc.sweepVisit s cur pg = some (s', next))
    (hav : s'.central.avail = none) :
    next = ⟨some pg, none⟩ ∧ (G.page pg).loc = .abandoned ∧ pageCollect s pg = some s' ∧
      PageStep pg s s' ∧ Inv ps s' (G.setPage pg (G.page pg).collected) := by
  obtain ⟨l, r, hsplit, _⟩ := h.cursor_split hcur hread
  obtain ⟨hp, hloc⟩ := (h.lists.places.abandoned pg).mp (by simp [hsplit])
  obtain ⟨s₁, s₂, next', G', hcollect, hused, hvisit', hinv, hmove, hround, hidle⟩ :=
    h.sweepVisit hlimbo hdying hcur hread
  obtain ⟨_, _, hdying', _⟩ := hround.next_ok h hlimbo hdying hcur hread
  cases hvisit.symm.trans hvisit'
  have hout : (G.page pg).out ≠ [] := by
    intro hnil
    have havail := hround.avail_ne hnil h hp hloc hinv hmove.regions hdying' hidle
    exact hinv.avail_ne_none havail hav
  obtain ⟨rfl, rfl, hstep⟩ := h.sweepVisit_kept hp hloc hout hcollect hused hvisit
  obtain ⟨s₂, hcollect₂, hinv₂, _⟩ := h.collect hp (by simp [hloc])
  have heq : some s' = some s₂ := hcollect.symm.trans hcollect₂
  cases heq
  exact ⟨rfl, hloc, hcollect₂, hstep, hinv₂⟩

end Sweeps

/-- A program counter at which an allocation call has not changed anything yet. -/
inductive Pc.Early : Pc → Prop where
  | small {q : Request} (hq : q.old = none) (c : Nat) : Pc.Early (.small q c)
  | walk {q : Request} (hq : q.old = none) (c : Nat) (p : PageId) : Pc.Early (.walk q c p)
  | acquire {q : Request} (hq : q.old = none) (c : Nat) : Pc.Early (.acquire q c)
  | large {q : Request} (hq : q.old = none) (offset mmapSize : Nat) :
      Pc.Early (.large q offset mmapSize)

/-- The sweep of a call that started in `s₀` has only collected pages so far. -/
def NothingFound (ps : PageSize) (t : Nat) (s₀ s : Store) : Prop :=
  s₀.central.mtx = none ∧ ∃ G₀ G, Inv ps s₀ G₀ ∧ G₀.limbo = none ∧ G₀.dying = none ∧ Inv ps s G ∧
    Swept { s₀ with central := { s₀.central with mtx := some t } } G₀ s G

/-- How far an allocation call has got that started in `s₀`. When it has returned
null, nothing has changed. -/
inductive FailAt (ps : PageSize) (t : Nat) (s₀ s : Store) (th : Thread) : Prop where
  | early (hpc : th.pc.Early) (hs : s = s₀)
  | sweeping {q : Request} {c : Nat} {cur : Option PageId} (hq : q.old = none)
      (hpc : th.pc = .sweep q c cur) (hs : s.central.avail = none → NothingFound ps t s₀ s)
  | dropping {q : Request} {c b : Nat} {cur : Option PageId} (hq : q.old = none)
      (hpc : th.pc = .unregisterSegment b (.sweeping q c cur) ∨
        th.pc = .unmapSegment b (.sweeping q c cur)) (hav : s.central.avail ≠ none)
  | mapping {q : Request} {c : Nat} (hq : q.old = none) (hpc : th.pc = .mapSegment q c)
      (hs : NothingFound ps t s₀ s)
  | mapped {q : Request} (hq : q.old = none) (hpc : (∃ c b, th.pc = .registerSegment q c b) ∨
      ∃ offset mmapSize b, th.pc = .registerLarge q offset mmapSize b)
  | refused (hidle : th.pc = .idle) (hs : Unchanged s₀ s)
  | served (hidle : th.pc = .idle) (hresult : th.result ≠ 0)

section Calls

variable {ps : PageSize} {t k : Nat} {s₀ : Store} {sys : System} {G G' : Ghost} {o : Oracle}
  {s' : Store} {th' : Thread} {q : Request} {c : Nat}

theorem Unchanged.refl (s : Store) : Unchanged s s :=
  ⟨rfl, rfl, rfl, fun _ _ => Or.inl ⟨rfl, fun _ _ h => h, fun _ _ h => h⟩, fun _ _ _ _ _ _ => rfl⟩

/-- A call that has a block returns it. -/
theorem FailAt.delivered {s₁ : Store} {th : Thread} {b usable : Nat} {origin : Origin}
    (hq : q.old = none) (hinv : Inv ps s' G')
    (h : deliver s₁ t th q b usable origin = (s', th')) : FailAt ps t s₀ s' th' := by
  obtain ⟨g, hg, _⟩ := deliver_origin s₁ t th q b usable origin
  rw [h] at hg
  have hne := hinv.grant_ne_zero hg
  rw [deliver_of_new _ _ _ _ _ _ _ hq] at h
  cases h
  exact .served rfl hne

theorem FailAt.failed {s₁ : Store} {th : Thread} (hq : q.old = none) (hs : Unchanged s₀ s₁)
    (h : failAlloc s₁ th q = (s', th')) : FailAt ps t s₀ s' th' := by
  unfold failAlloc at h
  rw [hq] at h
  cases h
  exact .refused rfl hs

theorem FailAt.fresh {G₁ : Ghost} {th : Thread} (hq : q.old = none) (hinv : Inv ps s' G')
    (h : FreshHead t th q k c G₁ G' s' th') : FailAt ps t s₀ s' th' := by
  obtain ⟨np, b, s₁, _, _, hdeliver⟩ := h
  exact .delivered hq hinv hdeliver

/-- The steps before the lock is taken. -/
theorem Pc.Early.own (hpc : (sys.threads t).pc.Early) (hinv : SysInv ps sys G)
    (hheap : (sys.threads t).heap = some k) (hown : OwnStep ps t sys G o s' th' G') :
    FailAt ps t sys.store s' th' := by
  have hrun := hown.run
  have hok := hown.ok
  have hinv' := hown.outcome.data.inv
  have hth := hinv.threads t
  unfold stepThread at hrun
  unfold StepOk at hok
  generalize heq : (sys.threads t).pc = pc at hpc
  rw [heq] at hrun hok
  cases hpc with
  | small hq c =>
      change stepSmall _ _ _ _ _ _ _ = _ at hrun
      rw [stepSmall_some _ _ _ _ _ _ hheap] at hrun
      split at hrun
      · simp only [Option.bind_eq_some_iff] at hrun
        obtain ⟨⟨b, s₁⟩, _, hrun⟩ := hrun
        exact .delivered hq hinv' (Option.some.inj hrun)
      · split at hrun
        · cases hrun
          exact .early (.walk hq _ _) rfl
        · cases hrun
          exact .early (.acquire hq _) rfl
  | @walk q hq c p =>
      obtain ⟨_, l, r, hsplit, _⟩ : HeapOk sys.store G k (.walk q c p) := hth.lists_at heq rfl hheap
      obtain ⟨hp, hloc, _⟩ := hinv.data.inv.own_page (show p ∈ G.cls k c by simp [hsplit])
      obtain ⟨available, s₁, g, hmake, _⟩ := hinv.data.inv.makeAvailable hp (by simp [hloc])
      obtain ⟨_, hsame⟩ := hinv.data.inv.makeAvailable_ready hp (by simp [hloc]) hmake
      change stepWalk _ _ _ _ _ _ = _ at hrun
      rw [stepWalk_eq hheap hmake] at hrun
      cases available with
      | true =>
          simp only [if_true, Option.bind_eq_some_iff] at hrun
          obtain ⟨⟨b, s₂⟩, _, hrun⟩ := hrun
          exact .delivered hq hinv' (Option.some.inj hrun)
      | false =>
          rw [hsame rfl] at hrun
          simp only [Bool.false_eq_true, if_false] at hrun
          split at hrun
          · cases hrun
            exact .early (.walk hq _ _) rfl
          · cases hrun
            exact .early (.acquire hq _) rfl
  | acquire hq c =>
      obtain ⟨s₁, th₁, G₁, hstep, hout, hfresh⟩ :=
        acquire_outcome hinv.data hth heq hok hheap
      cases hstep.symm.trans hrun
      by_cases hav : sys.store.central.avail = none
      · rw [stepAcquire, if_pos hav] at hstep
        cases hstep
        exact .sweeping hq rfl fun _ => ⟨hok, G, G, hinv.data.inv, hinv.data.limbo,
          hinv.data.dying hok, hinv.data.inv.setMtx _, .refl _ _⟩
      · exact .fresh hq hout.data.inv (hfresh hav)
  | large hq offset mmapSize =>
      have hrun' := Option.some.inj hrun
      unfold stepLarge at hrun'
      split at hrun'
      · exact .failed hq (.refl _) hrun'
      · cases hrun'
        exact .mapped hq (Or.inr ⟨_, _, _, rfl⟩)

/-- A round of the sweep. -/
theorem NothingFound.visit {cur : Option PageId} {pg : PageId} {next : SweepNext} {s : Store}
    (h : NothingFound ps t s₀ s) (hinv : Inv ps s G) (hcur : CursorOk G cur)
    (hread : cursorRead s cur = some pg) (hvisit : sweepVisit s cur pg = some (s', next))
    (hav : s'.central.avail = none) : NothingFound ps t s₀ s' := by
  obtain ⟨hmtx, G₀, G₁, hinv₀, hlimbo, hdying, hinv₁, hswept⟩ := h
  have hcur₁ : CursorOk G₁ cur := by
    intro x hx
    rw [hinv.abandoned_unique hinv₁ rfl rfl]
    exact hcur x hx
  obtain ⟨_, hloc, hcollect, hstep, hinv'⟩ := hinv₁.visit_none (by rw [hswept.ghost]; exact hlimbo)
    (by rw [hswept.ghost]; exact hdying) hcur₁ hread hvisit hav
  exact ⟨hmtx, G₀, _, hinv₀, hlimbo, hdying, hinv', hswept.visit hloc hcollect hstep⟩

/-- Every step of the thread. -/
theorem FailAt.own (hat : FailAt ps t s₀ sys.store (sys.threads t)) (hinv : SysInv ps sys G)
    (hheap : (sys.threads t).heap = some k) (hown : OwnStep ps t sys G o s' th' G') :
    FailAt ps t s₀ s' th' := by
  have hrun := hown.run
  have hok := hown.ok
  have hinv' := hown.outcome.data.inv
  have hth := hinv.threads t
  unfold stepThread at hrun
  unfold StepOk at hok
  cases hat with
  | early hpc hs =>
      subst hs
      exact hpc.own hinv hheap hown
  | @sweeping q c cur hq hpc hs =>
      rw [hpc] at hrun
      obtain ⟨hdying, hcur⟩ : G.dying = none ∧ CursorOk G cur := hth.lock_at hpc
      cases hread : cursorRead sys.store cur with
      | none =>
          obtain ⟨s₁, th₁, G₁, hstep, hout, hfresh⟩ := sweep_outcome hinv.data hth hpc hheap
          cases hstep.symm.trans hrun
          by_cases hav : sys.store.central.avail = none
          · simp only [stepSweep, hread, if_pos hav] at hstep
            cases hstep
            exact .mapping hq rfl (hs hav)
          · exact .fresh hq hout.data.inv (hfresh hread hav)
      | some pg =>
          simp only [stepSweep, hread, Option.bind_eq_bind, Option.bind_eq_some_iff] at hrun
          obtain ⟨⟨s₁, next⟩, hvisit, hrun⟩ := hrun
          have hnone : s₁.central.avail = none → next = ⟨some pg, none⟩ ∧
              NothingFound ps t s₀ s₁ := by
            intro hav
            obtain ⟨hnext, _, _, hstep, _⟩ :=
              hinv.data.inv.visit_none hinv.data.limbo hdying hcur hread hvisit hav
            have hcentral : s₁.central = sys.store.central := by rw [hstep.rest]
            exact ⟨hnext, (hs (by rw [← hcentral]; exact hav)).visit hinv.data.inv hcur hread hvisit
              hav⟩
          dsimp only at hrun
          split at hrun
          · cases hrun
            exact .sweeping hq rfl fun hav => (hnone hav).2
          · rename_i hunmap
            cases hrun
            refine .dropping hq (Or.inl rfl) fun hav => ?_
            rw [(hnone hav).1] at hunmap
            cases hunmap
  | dropping hq hpc hav =>
      rcases hpc with hpc | hpc
      · rw [hpc] at hrun
        simp only [stepUnregisterSegment, Option.bind_eq_bind, Option.bind_eq_some_iff] at hrun
        obtain ⟨r, _, hrun⟩ := hrun
        cases hrun
        exact .dropping hq (Or.inr rfl) hav
      · rw [hpc] at hrun
        cases hrun
        exact .sweeping hq rfl fun hnone => absurd hnone hav
  | mapping hq hpc hs =>
      rw [hpc] at hrun
      have hrun' := Option.some.inj hrun
      unfold stepMapSegment at hrun'
      split at hrun'
      · obtain ⟨hmtx, G₀, G₁, hinv₀, hlimbo, _, hinv₁, hswept⟩ := hs
        exact .failed hq (hswept.unchanged hmtx hinv₀ hinv₁ hlimbo) hrun'
      · cases hrun'
        exact .mapped hq (Or.inl ⟨_, _, rfl⟩)
  | mapped hq hpc =>
      rcases hpc with ⟨c, b, hpc⟩ | ⟨offset, mmapSize, b, hpc⟩
      · rw [hpc] at hrun hok
        have hrun' := hrun
        simp only [stepRegisterSegment, Option.bind_eq_bind, Option.bind_eq_some_iff] at hrun'
        obtain ⟨⟨w, r⟩, hreg, _⟩ := hrun'
        obtain ⟨s₁, th₁, G₁, hstep, hout, hfresh⟩ :=
          registerSegment_outcome hinv.data hth hpc hreg (hok w r hreg) hheap
        cases hstep.symm.trans hrun
        exact .fresh hq hout.data.inv hfresh
      · rw [hpc] at hrun
        simp only [stepRegisterLarge, Option.bind_eq_bind, Option.bind_eq_some_iff] at hrun
        obtain ⟨⟨w, r⟩, _, hrun⟩ := hrun
        exact .delivered hq hinv' (Option.some.inj hrun)
  | refused hidle => exact absurd hidle hown.busy
  | served hidle => exact absurd hidle hown.busy

theorem FailAt.linked {s : Store} {th : Thread} (hat : FailAt ps t s₀ s th) :
    th.pc.unlinked = none ∧ th.pc ≠ .unmapHeap := by
  cases hat with
  | early hpc =>
      generalize th.pc = pc at hpc
      cases hpc <;> exact ⟨rfl, by simp⟩
  | dropping _ hpc => rcases hpc with hpc | hpc <;> rw [hpc] <;> exact ⟨rfl, by simp⟩
  | mapped _ hpc =>
      rcases hpc with ⟨c, b, hpc⟩ | ⟨_, _, b, hpc⟩ <;> rw [hpc] <;> exact ⟨rfl, by simp⟩
  | sweeping _ hpc | mapping _ hpc | refused hpc | served hpc =>
      rw [hpc]
      exact ⟨rfl, by simp⟩

/-- What the calls ask for. -/
theorem Call.Allocates.asks {call : Call} (hcall : call.Allocates) (ps : PageSize) {s : Store}
    (hok : CallOk s call) : ∃ q, Asks q (enter ps s call) ∧ q.old = none := by
  cases call with
  | malloc size => exact ⟨⟨size, false, none⟩, hmMalloc_asks ps hok, rfl⟩
  | calloc nmemb size => exact hmCalloc_asks ps nmemb size
  | alignedAlloc alignment size => exact ⟨⟨size, false, none⟩, hmAlignedAlloc_asks ps hok.2, rfl⟩
  | realloc | free => exact hcall.elim

theorem enterGrants_of_allocates {s : Store} {call : Call} (hcall : call.Allocates)
    (entry : Entry) :
    enterGrants s t call entry = s.grants := by
  cases call with
  | malloc | calloc | alignedAlloc => rfl
  | realloc | free => exact hcall.elim

/-- The first part of the call. -/
theorem FailAt.start {call : Call} (hcall : call.Allocates) {sys' : System}
    (hstep : Step ps sys (.call t call) sys') :
    FailAt ps t sys.store sys'.store (sys'.threads t) ∧
      (sys'.threads t).heap = (sys.threads t).heap ∧
      ∀ u, u ≠ t → sys'.threads u = sys.threads u := by
  obtain ⟨hok, hrun⟩ := hstep
  rw [exec_call, enterGrants_of_allocates hcall] at hrun
  cases hrun
  obtain ⟨q, hask, hq⟩ := hcall.asks ps hok.2.2
  generalize enter ps sys.store call = entry at hask
  simp only [System.setThread, Function.update_self]
  refine ⟨?_, ?_, fun u hu => Function.update_of_ne hu ..⟩
  · cases hask with
    | refused => exact .refused rfl (.refl _)
    | small => exact .early (.small hq _) rfl
    | large => exact .early (.large hq _ _) rfl
  · cases entry <;> rfl

/-- Every state of an allocation call during which nothing else happens. -/
theorem Alone.failAt {call : Call} {sys₀ : System} (h : Alone ps t call sys₀ sys)
    (hcall : call.Allocates) (hr : Reachable ps sys₀) (hheap : (sys₀.threads t).heap = some k) :
    Reachable ps sys ∧ FailAt ps t sys₀.store sys.store (sys.threads t) ∧
      (sys.threads t).heap = some k ∧ ∀ u, u ≠ t → sys.threads u = sys₀.threads u := by
  induction h with
  | start hstep =>
      obtain ⟨hat, hheap', hothers⟩ := FailAt.start hcall hstep
      exact ⟨hr.step hstep, hat, hheap'.trans hheap, hothers⟩
  | @step sys sys' o _ hstep ih =>
      obtain ⟨hr', hat, hheap', hothers⟩ := ih
      obtain ⟨G, hinv⟩ := hr'.inv
      have hreach := hr'.step hstep
      obtain ⟨s', th', G', hown, rfl⟩ := hinv.own_step hstep
      have hsame := (stepThread_effect hown.busy hown.run).same_heap hat.linked.1 hat.linked.2
      simp only [System.setThread, Function.update_self]
      refine ⟨hreach, hat.own hinv hheap' hown, hsame.trans hheap', fun u hu => ?_⟩
      rw [Function.update_of_ne hu]
      exact hothers u hu

/-- A failed allocation changes nothing. From every reachable state, for every
thread that has a heap and every call of `hm_malloc`, `hm_calloc` or
`hm_aligned_alloc` during which nothing else happens: when it returns null, the
store is the one it started from, but for blocks that had been freed remotely on
abandoned pages and now are on their local lists, and so are the threads. -/
theorem failed_allocation_unchanged (ps : PageSize) {sys₀ : System} (hr : Reachable ps sys₀)
    (t : Nat) (hheap : (sys₀.threads t).heap ≠ none) (call : Call) (hcall : call.Allocates)
    (sys : System) (hrun : Alone ps t call sys₀ sys) (hidle : (sys.threads t).pc = .idle)
    (hnull : (sys.threads t).result = 0) :
    Unchanged sys₀.store sys.store ∧ (sys.threads t).heap = (sys₀.threads t).heap ∧
      ∀ u, u ≠ t → sys.threads u = sys₀.threads u := by
  obtain ⟨k, hk⟩ := Option.ne_none_iff_exists'.mp hheap
  obtain ⟨_, hat, hheap', hothers⟩ := hrun.failAt hcall hr hk
  refine ⟨?_, hheap'.trans hk.symm, hothers⟩
  cases hat with
  | early hpc =>
      rw [hidle] at hpc
      cases hpc
  | sweeping _ hpc => cases hidle.symm.trans hpc
  | dropping _ hpc => rcases hpc with hpc | hpc <;> cases hidle.symm.trans hpc
  | mapping _ hpc => cases hidle.symm.trans hpc
  | mapped _ hpc =>
      rcases hpc with ⟨_, _, hpc⟩ | ⟨_, _, _, hpc⟩ <;> cases hidle.symm.trans hpc
  | refused _ hs => exact hs
  | served _ hresult => exact absurd hnull hresult

/-- The kernel refuses a thread its first segment, and refuses it again. -/
theorem failed_allocation_unchanged_twice : ∃ sys₀ sys, Reachable page4k sys₀ ∧
    (sys₀.threads 0).heap ≠ none ∧ Alone page4k 0 (.malloc 16) sys₀ sys ∧
    Unchanged sys₀.store sys.store := by
  have hrun : callSchedule page4k 0 (.malloc 16) ((firstMalloc 0 16).take 7 ++ [.step 0 false])
      [.step 0 false, .step 0 false, .step 0 false, .step 0 false]
      (fun sys₀ sys => (sys₀.threads 0).heap.isSome && (sys.threads 0).pc == .idle &&
        (sys.threads 0).result == 0) = true := by
    decide +kernel
  obtain ⟨sys₀, sys, hr, halone, hcheck⟩ := callSchedule_run
    (R := fun sys₀ sys => Alone page4k 0 (.malloc 16) sys₀ sys) (fun _ _ hstep => .start hstep)
    (by
      intro sys₀ w a ha sys halone _ hstep
      obtain rfl : a = .step 0 false := by simpa using ha
      exact halone.step hstep) hrun
  simp only [Bool.and_eq_true, beq_iff_eq] at hcheck
  have hheap : (sys₀.threads 0).heap ≠ none := Option.isSome_iff_ne_none.mp hcheck.1.1
  exact ⟨sys₀, sys, hr, hheap, halone,
    (failed_allocation_unchanged page4k hr 0 hheap (.malloc 16) trivial sys halone hcheck.1.2
      hcheck.2).1⟩

end Calls

end HMalloc
