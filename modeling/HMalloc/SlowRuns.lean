import HMalloc.Advance
import HMalloc.FastPath

/-!
`heap_malloc_slow` from its start to its return, with the other threads at work
meanwhile. The walk visits the pages of the class in the order of the list and
stops at the first that can serve; a page is asked for only when none could.
-/

namespace HMalloc

open Bytes Linked

/-- A page can serve a block: it has one on its local list, one on its
`thread_free` list, or room in its bump area. -/
def Store.ready (s : Store) (pg : PageId) : Bool :=
  s.page.free pg != 0 || s.page.threadFree pg != 0 ||
    decide (s.page.reserved pg < s.page.capacity pg)

section Ready

variable {ps : PageSize} {s s' : Store} {G : Ghost} {pg : PageId}

/-- Collecting an empty `thread_free` list does nothing. -/
theorem pageCollect_nothing (h : s.page.threadFree pg = 0) : pageCollect s pg = some s := by
  have hsame : Function.update s.page.threadFree pg 0 = s.page.threadFree := by
    rw [← h]
    exact Function.update_eq_self ..
  unfold pageCollect
  rw [h, hsame, if_pos rfl]

theorem pageCollect_free (h : s.page.threadFree pg ≠ 0) (hrun : pageCollect s pg = some s') :
    s'.page.free pg ≠ 0 := by
  simp only [pageCollect, if_neg h, Option.bind_eq_bind, Option.bind_eq_some_iff] at hrun
  obtain ⟨⟨tail, n⟩, _, hrun⟩ := hrun
  cases hrun
  simpa using h

/-- `page_make_available` succeeds exactly on a page that is ready, and leaves
one that is not as it was. -/
theorem Inv.makeAvailable_ready (h : Inv ps s G) (hpg : IsPage (IsSegment s.os.regions) pg)
    (hserv : (G.page pg).loc ≠ .pool ∧ (G.page pg).loc ≠ .limbo) {available : Bool}
    (hrun : pageMakeAvailable s pg = some (available, s')) :
    available = s.ready pg ∧ (available = false → s' = s) := by
  obtain ⟨available', s'', g, hrun', _, _, _, hfree', _, hfull⟩ := h.makeAvailable hpg hserv
  rw [hrun] at hrun'
  cases hrun'
  unfold pageMakeAvailable at hrun
  unfold Store.ready
  by_cases hfree : s.page.free pg ≠ 0
  · rw [if_pos hfree] at hrun
    cases hrun
    simp [hfree]
  · rw [if_neg hfree] at hrun
    simp only [Option.bind_eq_bind, Option.bind_eq_some_iff] at hrun
    obtain ⟨s₁, hcollect, hrun⟩ := hrun
    by_cases hremote : s.page.threadFree pg = 0
    · -- Nothing is collected, and the bump area decides.
      rw [pageCollect_nothing hremote] at hcollect
      cases hcollect
      rw [if_neg hfree] at hrun
      by_cases hroom : s.page.reserved pg < s.page.capacity pg
      · rw [if_pos hroom] at hrun
        cases available with
        | true => simp [hroom]
        | false =>
            exfalso
            obtain ⟨hused, hcap⟩ := hfull rfl
            have hin := (h.pages pg hpg).inService hserv
            have hsum := hin.used_le
            have hrow : s'.page.capacity pg = s.page.capacity pg := by
              rw [← (Prod.mk.inj (Option.some.inj hrun)).2]
              unfold pageExtend
              dsimp only
              split <;> rfl
            change s.page.used pg + _ = s.page.reserved pg at hsum
            omega
      · rw [if_neg hroom] at hrun
        cases hrun
        simp [not_not.mp hfree, hremote, hroom]
    · have hfree₁ := pageCollect_free hremote hcollect
      rw [if_pos hfree₁] at hrun
      cases hrun
      simp [hremote]

end Ready

/-- Where `heap_malloc_slow` starts. -/
def slowEntry (s : Store) (h : Nat) (q : Request) (c : Nat) : Pc :=
  if s.slot h c = emptyPage then .acquire q c else .walk q c (s.slot h c)

/-- What a thread has done in `heap_malloc_slow`: the pages it visited and
whether they could serve, the pages it asked the central heap for, whether the
kernel refused it a segment, its steps, and the abandoned pages it had to look
through. -/
structure SlowLog where
  visits : List (PageId × Bool)
  acquires : Nat
  refused : Bool
  steps : Nat
  waiting : Nat

def SlowLog.start : SlowLog := ⟨[], 0, false, 0, 0⟩

/-- The step of the thread at `pc`. -/
def SlowLog.note (log : SlowLog) (ps : PageSize) (o : Oracle) (s : Store) (pc : Pc) : SlowLog :=
  let log := { log with steps := log.steps + 1 }
  match pc with
  | .walk _ _ p => { log with visits := log.visits ++ [(p, s.ready p)] }
  | .acquire _ _ =>
      { log with acquires := log.acquires + 1, waiting := s.central.abandonedCount }
  | .mapSegment _ _ =>
      { log with
        refused := (osAllocAligned ps o.mapping s.os segmentSize segmentSize .small).1.isNone }
  | _ => log

/-- Thread `t` runs `heap_malloc_slow` for request `q` and class `c`, from `sys₀`
on, until it has returned. -/
inductive SlowRun (ps : PageSize) (t : Nat) (q : Request) (c : Nat) (sys₀ : System) :
    SlowLog → System → Prop where
  | start : SlowRun ps t q c sys₀ .start sys₀
  | own {log : SlowLog} {sys sys' : System} {o : Oracle} (h : SlowRun ps t q c sys₀ log sys)
      (hgoal : (sys.threads t).pc.goal = some (.small q c))
      (hstep : Step ps sys (.step t o) sys') :
      SlowRun ps t q c sys₀ (log.note ps o sys.store (sys.threads t).pc) sys'
  | other {log : SlowLog} {sys sys' : System} {l : Label} (h : SlowRun ps t q c sys₀ log sys)
      (hgoal : (sys.threads t).pc.goal = some (.small q c)) (hl : ∀ o, l ≠ .step t o)
      (hstep : Step ps sys l sys') : SlowRun ps t q c sys₀ log sys'

/-- `heap_malloc_slow` has returned block `b`. -/
def Got (th : Thread) (b : Nat) : Prop :=
  (th.pc = .idle ∧ th.result = b) ∨ ∃ old, th.pc = .free old b

/-- Block `b` has been handed out from page `pg`. -/
def BlockOf (s : Store) (b : Nat) (pg : PageId) : Prop :=
  ∃ g i, s.grants b = some g ∧ g.origin = .small pg i

/-- The abandoned pages behind the cursor of the sweep. -/
def Ghost.ahead (G : Ghost) : Option PageId → List PageId
  | none => G.abandoned
  | some q => (G.abandoned.dropWhile (· ≠ q)).tail

/-- A program counter of `central_acquire_page`, and how many more steps it can
take before it returns. -/
inductive Acquiring (q : Request) (c : Nat) (G : Ghost) : Pc → Nat → Prop where
  | sweep (cur : Option PageId) : Acquiring q c G (.sweep q c cur) (3 * (G.ahead cur).length + 3)
  | unregister (b : Nat) (cur : Option PageId) :
      Acquiring q c G (.unregisterSegment b (.sweeping q c cur)) (3 * (G.ahead cur).length + 5)
  | unmap (b : Nat) (cur : Option PageId) :
      Acquiring q c G (.unmapSegment b (.sweeping q c cur)) (3 * (G.ahead cur).length + 4)
  | map : Acquiring q c G (.mapSegment q c) 2
  | register (b : Nat) : Acquiring q c G (.registerSegment q c b) 1

/-- How `heap_malloc_slow` has ended, for a heap that had the view `v` when it
started: with a block of the first page of the list that could serve, which is
now the head; with a block of a fresh page in front of the old list; or with
null, because the kernel refused a segment. -/
inductive SlowEnd (t h c : Nat) (v : HeapView) (log : SlowLog) (sys : System) : Prop where
  | found {l r : List PageId} {p : PageId} {b : Nat} (hlist : v.cls c = l ++ p :: r)
      (hvisits : log.visits = l.map (fun x => (x, false)) ++ [(p, true)])
      (hacquires : log.acquires = 0) (hgot : Got (sys.threads t) b)
      (hblock : BlockOf sys.store b p) (hnew : sys.store.ClassList h c (p :: (l ++ r)))
  | fresh {np : PageId} {b : Nat} (hvisits : log.visits = (v.cls c).map (fun x => (x, false)))
      (hacquires : log.acquires = 1) (hnp : np ∉ v.cls c) (hgot : Got (sys.threads t) b)
      (hblock : BlockOf sys.store b np) (hnew : sys.store.ClassList h c (np :: v.cls c))
  | refused (hvisits : log.visits = (v.cls c).map (fun x => (x, false)))
      (hacquires : log.acquires = 1) (hrefused : log.refused = true)
      (hidle : (sys.threads t).pc = .idle) (hnull : (sys.threads t).result = 0)
      (hsame : sys.store.ClassList h c (v.cls c))

theorem SlowEnd.goal {t h c : Nat} {v : HeapView} {log : SlowLog} {sys : System}
    (hend : SlowEnd t h c v log sys) : (sys.threads t).pc.goal = none := by
  have hgot : ∀ b, Got (sys.threads t) b → (sys.threads t).pc.goal = none := by
    rintro b (⟨hpc, _⟩ | ⟨old, hpc⟩) <;> rw [hpc] <;> rfl
  cases hend with
  | found _ _ _ h => exact hgot _ h
  | fresh _ _ _ h => exact hgot _ h
  | refused _ _ _ hidle =>
      rw [hidle]
      rfl

/-- How far `heap_malloc_slow` has got. -/
inductive SlowAt (t h : Nat) (q : Request) (c : Nat) (v : HeapView) (G : Ghost) (log : SlowLog)
    (sys : System) : Prop where
  | walking {p : PageId} {r : List PageId} (hv : Viewed t h v (.walk q c p) sys)
      (hlist : v.cls c = log.visits.map Prod.fst ++ p :: r)
      (hnot : ∀ e ∈ log.visits, e.2 = false) (hacquires : log.acquires = 0)
      (hsteps : log.steps = log.visits.length)
  | entering (hv : Viewed t h v (.acquire q c) sys)
      (hvisits : log.visits = (v.cls c).map (fun x => (x, false))) (hacquires : log.acquires = 0)
      (hsteps : log.steps = log.visits.length)
  | asking {pc : Pc} {n : Nat} (hv : Viewed t h v pc sys) (hpc : Acquiring q c G pc n)
      (hvisits : log.visits = (v.cls c).map (fun x => (x, false))) (hacquires : log.acquires = 1)
      (hsteps : log.steps + n ≤ (v.cls c).length + 3 * log.waiting + 4)
  | ended (hend : SlowEnd t h c v log sys)
      (hsteps : log.steps ≤ (v.cls c).length + 3 * log.waiting + 4)

section Delivered

variable {s : Store} {t : Nat} {th : Thread} {q : Request} {pg : PageId} {b : Nat}

theorem deliverBlock_got {s' : Store} {th' : Thread} (h : deliverBlock s t th q pg b = (s', th')) :
    Got th' b ∧ BlockOf s' b pg := by
  have horigin : ∃ g, (deliverBlock s t th q pg b).1.grants b = some g ∧
      g.origin = .small pg ((b - s.page.area pg) / s.page.blockSize pg) := deliver_origin ..
  rw [h] at horigin
  obtain ⟨g, hg, ho⟩ := horigin
  refine ⟨?_, g, _, hg, ho⟩
  unfold deliverBlock at h
  cases hold : q.old with
  | none =>
      rw [deliver_of_new _ _ _ _ _ _ _ hold] at h
      cases h
      exact Or.inl ⟨rfl, rfl⟩
  | some r =>
      rw [deliver_of_old _ _ _ _ _ _ _ hold] at h
      cases h
      exact Or.inr ⟨_, rfl⟩

theorem pagePop_lists {s' : Store} (h : pagePop s pg = some (b, s')) {k c : Nat}
    {l : List PageId} (hl : s.ClassList k c l) : s'.ClassList k c l := by
  obtain ⟨_, _, rfl⟩ := pagePop_shape h
  exact hl.congr rfl (fun _ _ => ⟨rfl, rfl⟩)

theorem deliverBlock_lists {s' : Store} {th' : Thread}
    (h : deliverBlock s t th q pg b = (s', th')) {k c : Nat} {l : List PageId}
    (hl : s.ClassList k c l) : s'.ClassList k c l := by
  have hrest : (deliverBlock s t th q pg b).1 = _ := deliver_rest ..
  rw [h] at hrest
  simp only at hrest
  rw [hrest]
  exact hl.congr rfl (fun _ _ => ⟨rfl, rfl⟩)

end Delivered

section Walk

variable {ps : PageSize} {t h c : Nat} {q : Request} {v : HeapView} {sys : System} {G G' : Ghost}
  {log : SlowLog} {p : PageId} {s' : Store} {th' : Thread}

theorem Pc.Serves.walk (q : Request) (c : Nat) (p : PageId) : Pc.Serves (.walk q c p) :=
  ⟨rfl, fun _ _ _ h => h.1⟩

theorem Pc.Serves.acquire (q : Request) (c : Nat) : Pc.Serves (.acquire q c) :=
  ⟨rfl, fun _ _ _ h => h.toServing⟩

theorem Acquiring.serves {pc : Pc} {n : Nat} (hpc : Acquiring q c G pc n) : pc.Serves := by
  cases hpc <;> exact ⟨rfl, fun _ _ _ h => h.toServing⟩

/-- The log of visits none of which found a page that was ready. -/
theorem visits_eq {l : List (PageId × Bool)} (h : ∀ e ∈ l, e.2 = false) :
    l = (l.map Prod.fst).map (fun x => (x, false)) := by
  induction l with
  | nil => rfl
  | cons e l ih =>
      obtain ⟨x, b⟩ := e
      obtain rfl : b = false := h (x, b) (by simp)
      rw [List.map_cons, List.map_cons, ← ih (fun e he => h e (by simp [he]))]

/-- A step of the walk. -/
theorem SlowAt.walk_own (hinv : SysInv ps sys G) (hv : Viewed t h v (.walk q c p) sys)
    {r : List PageId} (hlist : v.cls c = log.visits.map Prod.fst ++ p :: r)
    (hnot : ∀ e ∈ log.visits, e.2 = false) (hacquires : log.acquires = 0)
    (hsteps : log.steps = log.visits.length) {o : Oracle}
    (hrun : stepThread ps o sys.store t (sys.threads t) = some (s', th')) :
    SlowAt t h q c v G' (log.note ps o sys.store (sys.threads t).pc) (sys.setThread t s' th') := by
  have hdata := hinv.data.inv
  have hserve := hv.serving (.walk q c p) hinv
  have hmem : p ∈ G.cls h c := by
    rw [← hv.shows.cls_eq hserve, hlist]
    simp
  obtain ⟨hp, hloc, hne, _⟩ := hdata.own_page hmem
  obtain ⟨available, s₁, g, hmake, _, hstep, _⟩ := hdata.makeAvailable hp (by simp [hloc])
  obtain ⟨hready, hsame⟩ := hdata.makeAvailable_ready hp (by simp [hloc]) hmake
  have hclass := hv.shows.lists c
  rw [hlist] at hclass
  have hnote : log.note ps o sys.store (sys.threads t).pc =
      { log with steps := log.steps + 1, visits := log.visits ++ [(p, available)] } := by
    rw [hv.pc, hready]
    rfl
  rw [hnote]
  unfold stepThread at hrun
  rw [hv.pc] at hrun
  dsimp only at hrun
  rw [stepWalk_eq hv.heap hmake] at hrun
  have hlen : log.visits.length + 1 ≤ (v.cls c).length := by
    rw [hlist]
    simp
  cases available with
  | true =>
      simp only [if_true, Option.bind_eq_some_iff] at hrun
      obtain ⟨⟨b, s₂⟩, hpop, hrun⟩ := hrun
      have hdeliver := Option.some.inj hrun
      have hclass₁ : s₁.ClassList h c (log.visits.map Prod.fst ++ p :: r) :=
        hclass.congr (by rw [hstep.rest])
          (fun x _ => ⟨congrFun hstep.next x, congrFun hstep.prev x⟩)
      have hclass₂ := (heapRotateToFront_spec hclass₁ hne).1
      have hclass₃ := pagePop_lists hpop hclass₂
      obtain ⟨hgot, hblock⟩ := deliverBlock_got hdeliver
      refine .ended (.found hlist ?_ hacquires ?_ hblock (deliverBlock_lists hdeliver hclass₃)) ?_
      · rw [← visits_eq hnot]
      · simpa [System.setThread] using hgot
      · simp only
        omega
  | false =>
      rw [hsame rfl] at hrun
      have hnext : sys.store.page.next p = r.head? := (DList.around hclass).2
      have hnot' : ∀ e ∈ log.visits ++ [(p, false)], e.2 = false := by
        intro e he
        rcases List.mem_append.mp he with he | he
        · exact hnot e he
        · rw [List.mem_singleton.mp he]
      simp only [Bool.false_eq_true, if_false, hnext] at hrun
      cases r with
      | nil =>
          cases hrun
          refine .entering ⟨?_, ?_, hv.shows⟩ ?_ hacquires ?_
          · simp [System.setThread]
          · simpa [System.setThread] using hv.heap
          · simp only
            rw [visits_eq hnot', hlist]
            simp
          · simp [hsteps]
      | cons p' r =>
          cases hrun
          refine .walking (p := p') (r := r) ⟨?_, ?_, hv.shows⟩ ?_ hnot' hacquires ?_
          · simp [System.setThread]
          · simpa [System.setThread] using hv.heap
          · rw [hlist]
            simp
          · simp [hsteps]

end Walk

section Sweep

variable {ps : PageSize} {s s' : Store} {G G' : Ghost}

/-- The list of abandoned pages is determined by the links. -/
theorem Inv.abandoned_unique (h : Inv ps s G) (h' : Inv ps s' G')
    (hnext : s'.page.next = s.page.next) (hhead : s'.central.abandoned = s.central.abandoned) :
    G'.abandoned = G.abandoned := by
  have hchain := h'.lists.chains.abandoned
  rw [hnext, hhead] at hchain
  exact hchain.unique h.lists.chains.abandoned

/-- The pages behind a cursor. -/
theorem Ghost.ahead_eq {G : Ghost} {l r : List PageId} (hsplit : G.abandoned = l ++ r)
    (hnodup : G.abandoned.Nodup) : G.ahead l.getLast? = r := by
  rw [hsplit] at hnodup
  rcases List.eq_nil_or_concat l with rfl | ⟨l', x, rfl⟩
  · exact hsplit
  · rw [List.concat_eq_append] at hsplit hnodup ⊢
    rw [List.getLast?_concat]
    have hx : ∀ y ∈ l', y ≠ x := by
      rintro y hy rfl
      rw [List.append_assoc] at hnodup
      exact (List.nodup_append.mp hnodup).2.2 y hy y (by simp) rfl
    change (G.abandoned.dropWhile (· ≠ x)).tail = r
    rw [hsplit, List.append_assoc, List.dropWhile_append_of_pos (by simpa using hx)]
    simp

theorem Ghost.ahead_congr (h : G'.abandoned = G.abandoned) (cur : Option PageId) :
    G'.ahead cur = G.ahead cur := by
  unfold Ghost.ahead
  rw [h]

/-- One round of the sweep leaves one page less behind the cursor. -/
theorem Inv.SweepRound.ahead {cur : Option PageId} {pg : PageId} {next : SweepNext} (h : Inv ps s G)
    (hcur : ∀ q, cur = some q → q ∈ G.abandoned) (hread : cursorRead s cur = some pg)
    (hround : Inv.SweepRound G cur pg next G') :
    (G.ahead cur).length = (G'.ahead next.cursor).length + 1 := by
  obtain ⟨l, r, hsplit, rfl⟩ := h.cursor_split hcur hread
  have hnodup := h.lists.chains.abandoned.nodup
  rw [Ghost.ahead_eq hsplit hnodup, List.length_cons]
  congr 1
  have hfilter : G.abandoned.filter (· ≠ pg) = l ++ r := by
    rw [hsplit]
    exact filter_ne_middle (hsplit ▸ hnodup)
  have hnodup' : (G.abandoned.filter (· ≠ pg)).Nodup := hnodup.filter _
  cases hround with
  | kept =>
      have hsplit' : (G.setPage pg (G.page pg).collected).abandoned = (l ++ [pg]) ++ r := by
        rw [List.append_assoc]
        exact hsplit
      have hlast := Ghost.ahead_eq hsplit' hnodup
      rw [List.getLast?_concat] at hlast
      rw [hlast]
  | returned | dropped => rw [Ghost.ahead_eq hfilter hnodup']

end Sweep

section Central

variable {ps : PageSize} {t h c : Nat} {q : Request} {v : HeapView} {sys : System} {G G' : Ghost}
  {log : SlowLog} {s' : Store} {th' : Thread} {o : Oracle}

/-- A fresh page has served the block. -/
theorem FreshHead.ended {log' : SlowLog} (hfresh : FreshHead t (sys.threads t) q h c G G' s' th')
    (hout : Outcome ps t sys.store G s' G' th') (hheap : (sys.threads t).heap = some h)
    (hcls : v.cls c = G.cls h c)
    (hvisits : log'.visits = (v.cls c).map (fun x => (x, false))) (hacquires : log'.acquires = 1) :
    SlowEnd t h c v log' (sys.setThread t s' th') := by
  obtain ⟨np, b, s₁, hnp, hcls', hdeliver⟩ := hfresh
  obtain ⟨hgot, hblock⟩ := deliverBlock_got hdeliver
  have hlist : s'.ClassList h c (G'.cls h c) := by
    have hthread := hout.thread
    rw [← show (deliverBlock s₁ t (sys.threads t) q np b).2 = th' by rw [hdeliver]] at hthread
    exact hthread.delivered_list hheap c
  rw [hcls', ← hcls] at hlist
  rw [← hcls] at hnp
  refine .fresh hvisits hacquires hnp ?_ hblock hlist
  simpa [System.setThread] using hgot

/-- The request goes on under the lock. -/
theorem SlowAt.goes {log' : SlowLog} {pc : Pc} {n : Nat} (hheap : (sys.threads t).heap = some h)
    (hpc : Acquiring q c G' pc n) (hshows : s'.Shows h v)
    (hvisits : log'.visits = (v.cls c).map (fun x => (x, false))) (hacquires : log'.acquires = 1)
    (hsteps : log'.steps + n ≤ (v.cls c).length + 3 * log'.waiting + 4) :
    SlowAt t h q c v G' log' (sys.setThread t s' { sys.threads t with pc := pc }) := by
  refine .asking ⟨?_, ?_, hshows⟩ hpc hvisits hacquires hsteps
  · simp [System.setThread]
  · simpa [System.setThread] using hheap

/-- The central heap is asked for a page. -/
theorem SlowAt.acquire_own (hinv : SysInv ps sys G) (hv : Viewed t h v (.acquire q c) sys)
    (hvisits : log.visits = (v.cls c).map (fun x => (x, false))) (hacquires : log.acquires = 0)
    (hsteps : log.steps = log.visits.length) (hown : OwnStep ps t sys G o s' th' G') :
    SlowAt t h q c v G' (log.note ps o sys.store (sys.threads t).pc) (sys.setThread t s' th') := by
  have hdata := hinv.data.inv
  have hcls := congrFun (hv.shows.cls_eq (hv.serving (.acquire q c) hinv)) c
  have hlen : log.visits.length = (v.cls c).length := by simp [hvisits]
  have hok := hown.ok
  have hrun := hown.run
  unfold StepOk at hok
  unfold stepThread at hrun
  rw [hv.pc] at hok hrun
  dsimp only at hok hrun
  obtain ⟨s₁, th₁, G₁, hstep, hout, hfresh⟩ :=
    acquire_outcome hinv.data (hinv.threads t) hv.pc hok hv.heap
  cases hstep.symm.trans hrun
  have hnote : log.note ps o sys.store (sys.threads t).pc = { log with
      steps := log.steps + 1, acquires := log.acquires + 1,
      waiting := sys.store.central.abandonedCount } := by
    rw [hv.pc]
    rfl
  rw [hnote]
  by_cases hav : sys.store.central.avail = none
  · unfold stepAcquire at hrun
    rw [if_pos hav] at hrun
    have habandoned : G'.abandoned = G.abandoned := by
      cases hrun
      exact hdata.abandoned_unique hown.outcome.data.inv rfl rfl
    cases hrun
    refine .goes hv.heap (.sweep none) (hv.shows.of_eq rfl rfl rfl) hvisits (by simp [hacquires]) ?_
    simp only [Ghost.ahead, habandoned, hdata.lists.counters.abandonedCount]
    omega
  · refine .ended ((hfresh hav).ended hout hv.heap hcls hvisits (by simp [hacquires])) ?_
    simp only
    omega

/-- A round of the sweep keeps the view of the heap. -/
theorem Store.Shows.sweep {s : Store} (hv : s.Shows h v) (hc : Consistent ps s G)
    {d : Option PageId} (hserve : Serving s G h d) (hdying : G.dying = none)
    {cur : Option PageId} (hcur : CursorOk G cur) {pg : PageId}
    (hread : cursorRead s cur = some pg) {next : SweepNext}
    (hvisit : sweepVisit s cur pg = some (s', next)) :
    s'.Shows h v ∧ ∃ G₁, Inv ps s' G₁ ∧
      (G.ahead cur).length = (G₁.ahead next.cursor).length + 1 := by
  obtain ⟨s₁, s₂, next', G₁, _, _, hvisit', hinv, hmove, hround, _⟩ :=
    hc.inv.sweepVisit hc.limbo hdying hcur hread
  rw [hvisit] at hvisit'
  cases hvisit'
  obtain ⟨hcls, _⟩ := hround.next_ok hc.inv hc.limbo hdying hcur hread
  have hnot : ∀ c', pg ∉ G.cls h c' := by
    intro c' hmem
    obtain ⟨l, r, hsplit, _⟩ := hc.inv.cursor_split hcur hread
    have h₁ := ((hc.inv.lists.places.abandoned pg).mp (by simp [hsplit])).2
    have h₂ := ((hc.inv.lists.places.cls h c' pg).mp hmem).2
    rw [h₁] at h₂
    cases h₂
  refine ⟨hv.congr hc.inv hserve hinv ?_, G₁, hinv, hround.ahead hc.inv hcur hread⟩
  exact hmove.sameLists hc.inv (congrFun hcls h) hnot (fun x hx => hround.page hx)

/-- A round of the sweep, and what follows the last one. -/
theorem SlowAt.sweep_own (hinv : SysInv ps sys G) {cur : Option PageId}
    (hv : Viewed t h v (.sweep q c cur) sys)
    (hvisits : log.visits = (v.cls c).map (fun x => (x, false))) (hacquires : log.acquires = 1)
    (hsteps : log.steps + (3 * (G.ahead cur).length + 3) ≤ (v.cls c).length + 3 * log.waiting + 4)
    (hown : OwnStep ps t sys G o s' th' G') :
    SlowAt t h q c v G' (log.note ps o sys.store (sys.threads t).pc) (sys.setThread t s' th') := by
  have hserve := hv.serving (Acquiring.sweep (G := G) cur).serves hinv
  have hcls := congrFun (hv.shows.cls_eq hserve) c
  obtain ⟨hdying, hcur⟩ : G.dying = none ∧ CursorOk G cur := (hinv.threads t).lock_at hv.pc
  have hrun := hown.run
  unfold stepThread at hrun
  rw [hv.pc] at hrun
  dsimp only at hrun
  have hnote : log.note ps o sys.store (sys.threads t).pc =
      { log with steps := log.steps + 1 } := by
    rw [hv.pc]
    rfl
  rw [hnote]
  cases hread : cursorRead sys.store cur with
  | some pg =>
      simp only [stepSweep, hread, Option.bind_eq_bind, Option.bind_eq_some_iff] at hrun
      obtain ⟨⟨s₁, next⟩, hvisit, hrun⟩ := hrun
      obtain ⟨hshows, G₁, hinv₁, hahead⟩ :=
        hv.shows.sweep hinv.data hserve hdying hcur hread hvisit
      cases hunmap : next.unmap with
      | none =>
          rw [hunmap] at hrun
          cases hrun
          have habandoned := hinv₁.abandoned_unique hown.outcome.data.inv rfl rfl
          refine .goes hv.heap (.sweep next.cursor) hshows hvisits hacquires ?_
          rw [Ghost.ahead_congr habandoned]
          simp only
          omega
      | some b =>
          rw [hunmap] at hrun
          cases hrun
          have habandoned := hinv₁.abandoned_unique hown.outcome.data.inv rfl rfl
          refine .goes hv.heap (.unregister b next.cursor) hshows hvisits hacquires ?_
          rw [Ghost.ahead_congr habandoned]
          simp only
          omega
  | none =>
      by_cases hav : sys.store.central.avail = none
      · simp only [stepSweep, hread, if_pos hav] at hrun
        cases hrun
        exact .goes hv.heap .map hv.shows hvisits hacquires (by simp only; omega)
      · obtain ⟨s₁, th₁, G₁, hstep, hout, hfresh⟩ :=
          sweep_outcome hinv.data (hinv.threads t) hv.pc hv.heap
        cases hstep.symm.trans hrun
        refine .ended ((hfresh hread hav).ended hout hv.heap hcls hvisits hacquires) ?_
        simp only
        omega

/-- The other steps under the lock. -/
theorem SlowAt.asking_own (hinv : SysInv ps sys G) {pc : Pc} {n : Nat}
    (hv : Viewed t h v pc sys) (hpc : Acquiring q c G pc n)
    (hvisits : log.visits = (v.cls c).map (fun x => (x, false))) (hacquires : log.acquires = 1)
    (hsteps : log.steps + n ≤ (v.cls c).length + 3 * log.waiting + 4)
    (hown : OwnStep ps t sys G o s' th' G') :
    SlowAt t h q c v G' (log.note ps o sys.store (sys.threads t).pc) (sys.setThread t s' th') := by
  have hdata := hinv.data.inv
  have hserve := hv.serving hpc.serves hinv
  have hcls := congrFun (hv.shows.cls_eq hserve) c
  have hok := hown.ok
  have hrun := hown.run
  have hlock := (hinv.threads t).lock
  unfold StepOk at hok
  unfold stepThread at hrun
  rw [hv.pc] at hok hrun hlock ⊢
  cases hpc with
  | sweep cur =>
      have := SlowAt.sweep_own hinv hv hvisits hacquires hsteps hown
      rwa [hv.pc] at this
  | unregister b cur =>
      simp only [stepUnregisterSegment, Option.bind_eq_bind, Option.bind_eq_some_iff] at hrun
      obtain ⟨r, _, hrun⟩ := hrun
      cases hrun
      have habandoned := hdata.abandoned_unique hown.outcome.data.inv rfl rfl
      refine .goes hv.heap (.unmap b cur) (hv.shows.of_eq rfl rfl rfl) hvisits hacquires ?_
      rw [Ghost.ahead_congr habandoned]
      simp only [SlowLog.note]
      omega
  | unmap b cur =>
      simp only [stepUnmapSegment, stepAfter] at hrun
      cases hrun
      have habandoned := hdata.abandoned_unique hown.outcome.data.inv rfl rfl
      refine .goes hv.heap (.sweep cur) (hv.shows.of_eq rfl rfl (osFree_mem ..)) hvisits hacquires
        ?_
      rw [Ghost.ahead_congr habandoned]
      simp only [SlowLog.note]
      omega
  | map =>
      have hsize : segmentSize < 2 ^ 64 := by decide
      simp only at hok hrun
      rcases osAllocAligned_spec ps .small hok hsize hsize with hnone | ⟨b, os, hsome, hmap, hdvd⟩
      · simp only [stepMapSegment, hnone] at hrun
        have hfail := Option.some.inj hrun
        obtain ⟨hstore, hthread⟩ := failAlloc_eq
          { sys.store with central := { sys.store.central with mtx := none } } (sys.threads t) q
        rw [hfail] at hstore hthread
        simp only at hstore hthread
        have hshows : s'.Shows h v := by
          rw [hstore]
          exact hv.shows.of_eq rfl rfl rfl
        refine .ended (.refused hvisits hacquires ?_ ?_ ?_ (hshows.lists c)) ?_
        · simp [SlowLog.note, hnone]
        · simp [System.setThread, hthread, Thread.ret]
        · simp [System.setThread, hthread, Thread.ret]
        · simp only [SlowLog.note]
          omega
      · simp only [stepMapSegment, hsome] at hrun
        cases hrun
        have hinv' := hdata.mapSegment hmap hdvd hlock.2
        have hshows := hv.shows.congr hdata hserve hinv' (.initSegment hdata hmap hlock.2 h)
        refine .goes hv.heap (.register b) hshows hvisits hacquires ?_
        simp only [SlowLog.note]
        omega
  | register b =>
      have hrun' := hrun
      simp only [stepRegisterSegment, Option.bind_eq_bind, Option.bind_eq_some_iff] at hrun'
      obtain ⟨⟨w, r⟩, hreg, _⟩ := hrun'
      obtain ⟨s₁, th₁, G₁, hstep, hout, hfresh⟩ :=
        registerSegment_outcome hinv.data (hinv.threads t) hv.pc hreg (hok w r hreg) hv.heap
      cases hstep.symm.trans hrun
      refine .ended (hfresh.ended hout hv.heap hcls hvisits hacquires) ?_
      simp only [SlowLog.note]
      omega

/-- A step of the thread itself. -/
theorem SlowAt.own (hat : SlowAt t h q c v G log sys) (hinv : SysInv ps sys G)
    (hgoal : (sys.threads t).pc.goal = some (.small q c)) (hown : OwnStep ps t sys G o s' th' G') :
    SlowAt t h q c v G' (log.note ps o sys.store (sys.threads t).pc) (sys.setThread t s' th') := by
  cases hat with
  | walking hv hlist hnot hacquires hsteps =>
      exact .walk_own hinv hv hlist hnot hacquires hsteps hown.run
  | entering hv hvisits hacquires hsteps =>
      exact .acquire_own hinv hv hvisits hacquires hsteps hown
  | asking hv hpc hvisits hacquires hsteps =>
      exact .asking_own hinv hv hpc hvisits hacquires hsteps hown
  | ended hend => exact absurd hgoal (by rw [hend.goal]; simp)

theorem Acquiring.congr {pc : Pc} {n : Nat} (hpc : Acquiring q c G pc n)
    (hsame : G'.abandoned = G.abandoned) : Acquiring q c G' pc n := by
  cases hpc with
  | sweep cur =>
      rw [← Ghost.ahead_congr hsame]
      exact .sweep cur
  | unregister b cur =>
      rw [← Ghost.ahead_congr hsame]
      exact .unregister b cur
  | unmap b cur =>
      rw [← Ghost.ahead_congr hsame]
      exact .unmap b cur
  | map => exact .map
  | register b => exact .register b

theorem Acquiring.locked {pc : Pc} {n : Nat} (hpc : Acquiring q c G pc n) : pc.locked = true := by
  cases hpc <;> rfl

/-- The steps of other threads. -/
theorem SlowAt.other {sys' : System} (hat : SlowAt t h q c v G log sys) (hinv : SysInv ps sys G)
    (hgoal : (sys.threads t).pc.goal = some (.small q c))
    (hby : Bystander ps t sys G sys' G') : SlowAt t h q c v G' log sys' := by
  cases hat with
  | @walking p _ hv hlist hnot hacquires hsteps =>
      exact .walking (hv.other (.walk q c p) hinv hby) hlist hnot hacquires hsteps
  | entering hv hvisits hacquires hsteps =>
      exact .entering (hv.other (.acquire q c) hinv hby) hvisits hacquires hsteps
  | asking hv hpc hvisits hacquires hsteps =>
      have hlocked := (hinv.threads t).mtx.mpr (by rw [hv.pc]; exact hpc.locked)
      exact .asking (hv.other hpc.serves hinv hby) (hpc.congr (hby.lock hlocked)) hvisits hacquires
        hsteps
  | ended hend => exact absurd hgoal (by rw [hend.goal]; simp)

/-- The start of `heap_malloc_slow`. -/
theorem SlowAt.start (hv : Viewed t h v (slowEntry sys.store h q c) sys) :
    SlowAt t h q c v G .start sys := by
  have hclass := hv.shows.lists c
  unfold slowEntry at hv
  split at hv
  · rename_i hempty
    have hnil : v.cls c = [] := by
      have hchain := DList.toChain hclass
      rw [Store.classHead, if_pos hempty] at hchain
      exact hchain.nil_of_none
    exact .entering hv (by rw [hnil]; rfl) rfl rfl
  · rename_i hne
    have hfirst := (DList.toChain hclass).head_eq
    rw [Store.classHead_eq hne rfl] at hfirst
    exact .walking hv (List.cons_head?_tail hfirst.symm).symm (fun e he => by cases he) rfl rfl

/-- At the start of `heap_malloc_slow` the heap is in order. -/
theorem SysInv.viewed_entry (hinv : SysInv ps sys G) (hheap : (sys.threads t).heap = some h)
    (hpc : (sys.threads t).pc = slowEntry sys.store h q c) :
    Viewed t h (G.view sys.store h) (slowEntry sys.store h q c) sys := by
  have hserves : (slowEntry sys.store h q c).Serves := by
    unfold slowEntry
    split
    · exact .acquire _ _
    · exact .walk _ _ _
  have hserve := hserves.serving _ _ _ ((hinv.threads t).lists_at hpc hserves.linked hheap)
  exact ⟨hpc, hheap, hinv.data.inv.shows hserve⟩

/-- Every state of a run of `heap_malloc_slow`. -/
theorem SlowRun.slowAt {sys₀ : System} (hrun : SlowRun ps t q c sys₀ log sys)
    (hinv : SysInv ps sys₀ G) (hv : Viewed t h v (slowEntry sys₀.store h q c) sys₀) :
    ∃ G', SysInv ps sys G' ∧ SlowAt t h q c v G' log sys := by
  induction hrun with
  | start => exact ⟨G, hinv, .start hv⟩
  | @own log sys sys' o _ hgoal hstep ih =>
      obtain ⟨G₁, hinv₁, hat⟩ := ih
      obtain ⟨s', th', G', hown, rfl⟩ := hinv₁.own_step hstep
      exact ⟨G', hinv₁.setThread hown.outcome, hat.own hinv₁ hgoal hown⟩
  | other _ hgoal hl hstep ih =>
      obtain ⟨G₁, hinv₁, hat⟩ := ih
      have hbusy : ∀ pc : Pc, pc.goal = some (.small q c) → pc ≠ .idle := by
        rintro pc hgoal rfl
        cases hgoal
      rcases hinv₁.busy (hbusy _ hgoal) hstep with ⟨o, _, _, _, heq, _⟩ | ⟨G', hby⟩
      · exact absurd heq (hl o)
      · exact ⟨G', hby.inv, hat.other hinv₁ hgoal hby⟩

/-- In every state of `heap_malloc_slow` the thread can go on, once it may take the
lock, unless the region registry does not return. -/
theorem SlowAt.progress (hat : SlowAt t h q c v G log sys) (hinv : SysInv ps sys G)
    (hgoal : (sys.threads t).pc.goal ≠ none) (hok : StepOk ps o sys.store (sys.threads t))
    (hreg : ¬ RegistryStuck ps o sys.store (sys.threads t).pc) :
    ∃ sys', Step ps sys (.step t o) sys' := by
  have hheap : (sys.threads t).heap = some h := by
    cases hat with
    | walking hv => exact hv.heap
    | entering hv => exact hv.heap
    | asking hv => exact hv.heap
    | ended hend => exact absurd hend.goal hgoal
  refine hinv.advances (Or.inl hgoal) hok hreg ?_
  rintro ⟨_, hnone, _⟩
  cases hheap.symm.trans hnone

theorem SlowAt.bound (hat : SlowAt t h q c v G log sys) :
    log.steps ≤ (v.cls c).length + 3 * log.waiting + 4 := by
  cases hat with
  | walking _ hlist _ _ hsteps =>
      rw [hlist, hsteps]
      simp only [List.length_append, List.length_map]
      omega
  | entering _ hvisits _ hsteps =>
      rw [hsteps, hvisits, List.length_map]
      omega
  | asking _ _ _ _ hsteps => omega
  | ended _ hsteps => exact hsteps

theorem SlowAt.end (hat : SlowAt t h q c v G log sys) (hgoal : (sys.threads t).pc.goal = none) :
    SlowEnd t h c v log sys := by
  cases hat with
  | walking hv =>
      rw [hv.pc] at hgoal
      cases hgoal
  | entering hv =>
      rw [hv.pc] at hgoal
      cases hgoal
  | asking hv hpc =>
      rw [hv.pc] at hgoal
      cases hpc <;> cases hgoal
  | ended hend => exact hend

/-- `heap_malloc_slow` serves from the pages of the class whenever it can. From
every state in which the invariants hold, for every class and whatever the other
threads do meanwhile: a call that has returned has served a block of the first
page in list order that was ready when visited, asked for no page and moved that
page to the front; or no page was ready, and it has served a block of one fresh
page put in front of the unchanged list, or returned null because the kernel
refused a segment. The call does return: its steps are bounded, and it is never
stuck but in a call of the region registry that does not return. -/
theorem slow_path_serves (ps : PageSize) {sys₀ : System} {G : Ghost} (hinv : SysInv ps sys₀ G)
    (t h : Nat) (q : Request) (c : Nat) (v : HeapView)
    (hv : Viewed t h v (slowEntry sys₀.store h q c) sys₀) :
    ∀ log sys, SlowRun ps t q c sys₀ log sys →
      log.steps ≤ (v.cls c).length + 3 * log.waiting + 4 ∧
      ((sys.threads t).pc.goal = none → SlowEnd t h c v log sys) ∧
      ((sys.threads t).pc.goal ≠ none → ∀ o, StepOk ps o sys.store (sys.threads t) →
        ¬ RegistryStuck ps o sys.store (sys.threads t).pc →
        ∃ sys', Step ps sys (.step t o) sys') := by
  intro log sys hrun
  obtain ⟨G', hinv', hat⟩ := hrun.slowAt hinv hv
  exact ⟨hat.bound, hat.end, fun hgoal o hok hreg => hat.progress hinv' hgoal hok hreg⟩

/-- The second block of 8192 bytes comes from the bump area of the page that
served the first one. -/
theorem slow_path_serves_bump : ∃ sys₀ h v log sys, Reachable page4k sys₀ ∧
    Viewed 0 h v (slowEntry sys₀.store h ⟨8192, false, none⟩ 31) sys₀ ∧
    SlowRun page4k 0 ⟨8192, false, none⟩ 31 sys₀ log sys ∧ SlowEnd 0 h 31 v log sys ∧
    (sys.threads 0).result ≠ 0 := by
  have hrun : splitSchedule page4k
      (fun w a => a == .step 0 false &&
        (w.sys.threads 0).pc.goal == some (.small ⟨8192, false, none⟩ 31))
      (firstMalloc 0 8192 ++ [.call 0 (.malloc 8192), .step 0 false]) [.step 0 false]
      (fun sys₀ sys => (sys₀.threads 0).heap.any (fun h =>
          (sys₀.threads 0).pc == slowEntry sys₀.store h ⟨8192, false, none⟩ 31) &&
        (sys.threads 0).pc.goal == none && (sys.threads 0).result != 0) = true := by
    decide +kernel
  obtain ⟨sys₀, sys, hr, ⟨log, hslow⟩, hcheck⟩ := splitSchedule_run
    (R := fun sys₀ sys => ∃ log, SlowRun page4k 0 ⟨8192, false, none⟩ 31 sys₀ log sys)
    (fun sys => ⟨_, .start⟩)
    (by
      rintro sys₀ w a sys ⟨log, hslow⟩ hok hstep
      simp only [Bool.and_eq_true, beq_iff_eq] at hok
      obtain ⟨rfl, hgoal⟩ := hok
      exact ⟨_, hslow.own hgoal hstep⟩) hrun
  simp only [Bool.and_eq_true, beq_iff_eq, bne_iff_ne, Option.any_eq_true] at hcheck
  obtain ⟨⟨⟨h, hheap, hpc⟩, hgoal⟩, hresult⟩ := hcheck
  obtain ⟨G, hinv⟩ := hr.inv
  have hv := hinv.viewed_entry hheap hpc
  exact ⟨sys₀, h, _, log, sys, hr, hv, hslow,
    (slow_path_serves page4k hinv 0 h _ 31 _ hv log sys hslow).2.1 hgoal, hresult⟩

end Central

end HMalloc
