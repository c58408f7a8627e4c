import HMalloc.Requests

/-!
Pairs of `hm_malloc` and `hm_free`. What a thread sees of its heap is a
`HeapView`: the class lists, and of each page the number of blocks in use, the
reach of the bump area and the local list. A local free pushes a block in the
view and the fast path pops it again; the other threads change no view but
their own. Every allocation leaves the page that served it at the head of its
class, where a free does not recycle it.
-/

namespace HMalloc

open Bytes Linked

/-- What a heap looks like from its own thread. -/
structure HeapView where
  cls : Nat → List PageId
  used : PageId → Nat
  reserved : PageId → Nat
  blocks : PageId → List Nat

/-- Block `p` is freed to page `pg`. -/
def HeapView.push (v : HeapView) (pg : PageId) (p : Nat) : HeapView :=
  { v with
    used := Function.update v.used pg (v.used pg - 1)
    blocks := Function.update v.blocks pg (p :: v.blocks pg) }

/-- The heap at `h` has the view `v`. -/
structure Store.Shows (s : Store) (h : Nat) (v : HeapView) : Prop where
  lists : ∀ c, s.ClassList h c (v.cls c)
  used : ∀ c, ∀ pg ∈ v.cls c, s.page.used pg = v.used pg
  reserved : ∀ c, ∀ pg ∈ v.cls c, s.page.reserved pg = v.reserved pg
  blocks : ∀ c, ∀ pg ∈ v.cls c, Chain (link s.os.mem) (ptr (s.page.free pg)) (v.blocks pg)

/-- The steps that thread `t` has no part in. -/
inductive Others (ps : PageSize) (t : Nat) (sys : System) : System → Prop where
  | refl : Others ps t sys sys
  | step {sys' sys'' : System} {l : Label} (h : Others ps t sys sys') (hl : l.thread ≠ some t)
      (hstep : Step ps sys' l sys'') : Others ps t sys sys''

section View

variable {ps : PageSize} {s s' : Store} {G G' : Ghost} {h c p i : Nat} {pg : PageId} {v : HeapView}

/-- The view of a heap, from the ghost state. -/
def Ghost.view (G : Ghost) (s : Store) (h : Nat) : HeapView where
  cls := G.cls h
  used := s.page.used
  reserved := s.page.reserved
  blocks := fun pg => (G.page pg).free

/-- The local list of a page of a heap. -/
theorem Inv.local_list (hinv : Inv ps s G) (hpg : pg ∈ G.cls h c) :
    Chain (link s.os.mem) (ptr (s.page.free pg)) (G.page pg).free := by
  obtain ⟨hp, hloc, _⟩ := hinv.own_page hpg
  exact ((hinv.pages pg hp).inService (by simp [hloc])).free

theorem Inv.shows (hinv : Inv ps s G) {d : Option PageId} (hserve : Serving s G h d) :
    s.Shows h (G.view s h) where
  lists := hserve.lists
  used := fun _ _ _ => rfl
  reserved := fun _ _ _ => rfl
  blocks := fun _ _ hpg => hinv.local_list hpg

/-- The class lists of a view are those of the ghost state. -/
theorem Store.Shows.cls_eq (hv : s.Shows h v) {d : Option PageId} (hserve : Serving s G h d) :
    v.cls = G.cls h :=
  funext fun c => (DList.toChain (hv.lists c)).unique (DList.toChain (hserve.lists c))

theorem Store.Shows.blocks_eq (hv : s.Shows h v) (hinv : Inv ps s G) {d : Option PageId}
    (hserve : Serving s G h d) (hpg : pg ∈ v.cls c) : v.blocks pg = (G.page pg).free := by
  have hmem : pg ∈ G.cls h c := by rwa [← hv.cls_eq hserve]
  exact (hv.blocks c pg hpg).unique (hinv.local_list hmem)

/-- A heap whose lists are the same looks the same. -/
theorem Store.Shows.congr (hv : s.Shows h v) (hinv : Inv ps s G) {d : Option PageId}
    (hserve : Serving s G h d) (hinv' : Inv ps s' G') (hsame : SameLists s G s' G' h) :
    s'.Shows h v := by
  have hcls := hv.cls_eq hserve
  have hmem : ∀ {c pg}, pg ∈ v.cls c → pg ∈ G.cls h c := fun hpg => by rwa [← hcls]
  refine ⟨fun c => ?_, fun c pg hpg => ?_, fun c pg hpg => ?_, fun c pg hpg => ?_⟩
  · refine (hv.lists c).congr (congrFun hsame.slot c) (fun pg hpg => ?_)
    obtain ⟨hnext, hprev, _⟩ := hsame.pages c pg (hmem hpg)
    exact ⟨hnext, hprev⟩
  · rw [(hsame.pages c pg (hmem hpg)).2.2]
    exact hv.used c pg hpg
  · rw [← hv.reserved c pg hpg]
    exact congrArg PageState.reserved (hsame.blocks c pg (hmem hpg)).row
  · rw [hv.blocks_eq hinv hserve hpg, ← (hsame.blocks c pg (hmem hpg)).free]
    exact hinv'.local_list (h := h) (c := c) (by rw [hsame.cls]; exact hmem hpg)

/-- A local free pushes the block. -/
theorem Store.Shows.push (hv : s.Shows h v) (hinv : Inv ps s G) {d : Option PageId}
    (hserve : Serving s G h d) {g : Grant} (hg : s.grants p = some g)
    (ho : g.origin = .small pg i) :
    ({ pushLocal s pg p with grants := Function.update s.grants p none } : Store).Shows h
      (v.push pg p) := by
  have hcls := hv.cls_eq hserve
  have hs := hinv.smallGrant hg ho
  have hinv' := hinv.push hg ho
  refine ⟨fun c => (hv.lists c).congr rfl (fun _ _ => ⟨rfl, rfl⟩), fun c q hq => ?_,
    fun c q hq => hv.reserved c q hq, fun c q hq => ?_⟩
  · change Function.update s.page.used pg _ q = Function.update v.used pg _ q
    by_cases hqp : q = pg
    · subst hqp
      have hused : s.page.used q = _ := hs.inService.used
      have hlt := hs.inService.used_lt
      have hpos := List.length_pos_of_mem hs.out
      rw [Function.update_self, Function.update_self, ← hv.used c q hq]
      change s.page.used q ≤ 4096 at hlt
      exact Word.sub_eq (by omega) (by omega)
    · rw [Function.update_of_ne hqp, Function.update_of_ne hqp]
      exact hv.used c q hq
  · have hmem : q ∈ G.cls h c := by
      rw [← hcls]
      exact hq
    have hlist := hinv'.local_list (show q ∈ (G.setPage pg _).cls h c from hmem)
    have hblocks : (v.push pg p).blocks q = ((G.setPage pg { G.page pg with
        free := p :: (G.page pg).free, out := (G.page pg).out.erase p }).page q).free := by
      by_cases hqp : q = pg
      · subst hqp
        rw [Ghost.setPage_self]
        simp only [HeapView.push, Function.update_self, hv.blocks_eq hinv hserve hq]
      · rw [Ghost.setPage_of_ne G _ hqp]
        simp only [HeapView.push, Function.update_of_ne hqp]
        exact hv.blocks_eq hinv hserve hq
    rw [hblocks]
    exact hlist

theorem Store.Shows.of_eq (hv : s.Shows h v) (hslot : s'.slot = s.slot) (hpage : s'.page = s.page)
    (hmem : s'.os.mem = s.os.mem) : s'.Shows h v := by
  refine ⟨fun c => ?_, fun c => ?_, fun c => ?_, fun c => ?_⟩
  · exact (hv.lists c).congr (by rw [hslot]) (fun _ _ => by rw [hpage]; exact ⟨rfl, rfl⟩)
  · rw [hpage]
    exact hv.used c
  · rw [hpage]
    exact hv.reserved c
  · rw [hpage, hmem]
    exact hv.blocks c

/-- The fast path pops the block that was freed last. -/
theorem Store.Shows.pop (hv : s.Shows h (v.push pg p)) (hpg : pg ∈ v.cls c)
    (hused : 1 ≤ v.used pg) (hlt : v.used pg ≤ 4096) :
    ∃ s₁, pagePop s pg = some (p, s₁) ∧ s₁.Shows h v := by
  have hlist := hv.blocks c pg hpg
  simp only [HeapView.push, Function.update_self] at hlist
  obtain ⟨hhead, htail⟩ := chain_cons.mp hlist
  have hfree := ptr_eq_some.mp hhead
  refine ⟨_, by rw [pagePop, hfree.1, if_neg hfree.2], ?_⟩
  refine ⟨fun c' => (hv.lists c').congr rfl (fun _ _ => ⟨rfl, rfl⟩), fun c' q hq => ?_,
    fun c' q hq => hv.reserved c' q hq, fun c' q hq => ?_⟩
  · change Function.update s.page.used pg _ q = v.used q
    have hwas := hv.used c' q hq
    by_cases hqp : q = pg
    · subst hqp
      simp only [HeapView.push, Function.update_self] at hwas
      rw [Function.update_self, hwas, Word.add_eq (by omega)]
      omega
    · simp only [HeapView.push, Function.update_of_ne hqp] at hwas
      rw [Function.update_of_ne hqp]
      exact hwas
  · change Chain (link s.os.mem) (ptr (Function.update s.page.free pg _ q)) (v.blocks q)
    by_cases hqp : q = pg
    · subst hqp
      rw [Function.update_self]
      exact htail
    · have hwas := hv.blocks c' q hq
      simp only [HeapView.push, Function.update_of_ne hqp] at hwas
      rw [Function.update_of_ne hqp]
      exact hwas

end View

/-- The thread is at `pc`, and its heap at `h` has the view `v`. -/
structure Viewed (t h : Nat) (v : HeapView) (pc : Pc) (sys : System) : Prop where
  pc : (sys.threads t).pc = pc
  heap : (sys.threads t).heap = some h
  shows : sys.store.Shows h v

/-- At `pc` the heap is in order. -/
structure Pc.Serves (pc : Pc) : Prop where
  linked : pc.unlinked = none
  serving : ∀ s G h, HeapOk s G h pc → Serving s G h none

theorem Pc.Serves.idle : Pc.Serves .idle := ⟨rfl, fun _ _ _ h => h⟩

theorem Pc.Serves.small (q : Request) (c : Nat) : Pc.Serves (.small q c) :=
  ⟨rfl, fun _ _ _ h => h⟩

theorem Pc.Serves.free (p r : Nat) : Pc.Serves (.free p r) := ⟨rfl, fun _ _ _ h => h⟩

section Calls

variable {ps : PageSize} {t h c p : Nat} {pc : Pc} {call : Call} {sys₀ sys sys' : System}
  {G G' : Ghost} {v v' : HeapView} {pg : PageId}

theorem Viewed.home (hv : Viewed t h v pc sys) (hs : pc.Serves) :
    (sys.threads t).home = some h :=
  (Thread.home_of_linked (by rw [hv.pc]; exact hs.linked)).trans hv.heap

theorem Viewed.serving (hv : Viewed t h v pc sys) (hs : pc.Serves) (hinv : SysInv ps sys G) :
    Serving sys.store G h none := by
  have hok := (hinv.threads t).lists h (hv.home hs)
  rw [hv.pc] at hok
  exact hs.serving _ _ _ hok

/-- The other threads do not change the view. -/
theorem Viewed.other (hv : Viewed t h v pc sys) (hs : pc.Serves) (hinv : SysInv ps sys G)
    (hby : Bystander ps t sys G sys' G') : Viewed t h v pc sys' where
  pc := hby.pc.trans hv.pc
  heap := hby.heap.trans hv.heap
  shows := hv.shows.congr hinv.data.inv (hv.serving hs hinv) hby.inv.data.inv
    (hby.lists h (hv.home hs))

theorem Others.viewed (ho : Others ps t sys sys') (hr : Reachable ps sys)
    (hv : Viewed t h v .idle sys) : Reachable ps sys' ∧ Viewed t h v .idle sys' := by
  induction ho with
  | refl => exact ⟨hr, hv⟩
  | step _ hl hstep ih =>
      obtain ⟨hr', hv'⟩ := ih
      obtain ⟨G, hinv⟩ := hr'.inv
      obtain ⟨G', hby⟩ := hinv.bystander hstep hl
      exact ⟨hr'.step hstep, hv'.other .idle hinv hby⟩

/-- The step of the thread at `pc` ends its call with `result`, whatever the
world answers, and leaves the view `v'`. -/
def Ends (ps : PageSize) (t h : Nat) (v' : HeapView) (result : Nat) (sys : System) : Prop :=
  ∀ o, StepOk ps o sys.store (sys.threads t) ∧
    ∃ s' th', stepThread ps o sys.store t (sys.threads t) = some (s', th') ∧
      th'.result = result ∧ Viewed t h v' .idle (sys.setThread t s' th')

/-- A call that takes one step, as its thread sees it. -/
theorem During.one_step {result : Nat} (hd : During ps t call sys₀ sys) (hr : Reachable ps sys₀)
    (hentry : enter ps sys₀.store call = .goto pc) (hs : pc.Serves)
    (hv : Viewed t h v .idle sys₀)
    (hends : ∀ sys G, SysInv ps sys G → Viewed t h v pc sys → Ends ps t h v' result sys) :
    Viewed t h v pc sys ∨
      (Viewed t h v' .idle sys ∧ (sys.threads t).result = result) := by
  refine hd.induct (R := fun sys => Viewed t h v pc sys ∨
    (Viewed t h v' .idle sys ∧ (sys.threads t).result = result)) hr ?_ ?_ ?_
  · rintro sys ⟨_, hrun⟩
    rw [exec_call, hentry] at hrun
    cases hrun
    refine Or.inl ⟨?_, ?_, hv.shows.of_eq rfl rfl rfl⟩
    · simp [System.setThread, enterThread]
    · simpa [System.setThread, enterThread] using hv.heap
  · intro sys G o s' th' G' _ _ hinv ih hown
    rcases ih with hv | ⟨hv, _⟩
    · obtain ⟨_, s₁, th₁, hrun, hresult, hv'⟩ := hends sys G hinv hv o
      have heq := hrun.symm.trans hown.run
      cases heq
      refine Or.inr ⟨hv', ?_⟩
      simpa [System.setThread] using hresult
    · exact absurd hv.pc hown.busy
  · intro sys G sys' G' _ hinv hbusy ih hby
    rcases ih with hv | ⟨hv, _⟩
    · exact Or.inl (hv.other hs hinv hby)
    · exact absurd hv.pc hbusy

/-- The call stays at `pc` until its thread takes a step, which ends it with
`result`. At the program counter of `heap_malloc` this is the fast path: the slow
path and the creation of a heap go to other program counters. -/
def Direct (ps : PageSize) (t : Nat) (call : Call) (sys₀ : System) (pc : Pc) (result : Nat) :
    Prop :=
  ∀ sys, During ps t call sys₀ sys →
    ((sys.threads t).pc = pc ∧
      ∀ o, ∃ sys', Step ps sys (.step t o) sys' ∧ Returns ps t call sys₀ sys' result) ∨
    Returns ps t call sys₀ sys result

theorem direct_of_ends {result : Nat} (hr : Reachable ps sys₀)
    (hentry : enter ps sys₀.store call = .goto pc) (hs : pc.Serves) (hne : pc ≠ .idle)
    (hv : Viewed t h v .idle sys₀)
    (hends : ∀ sys G, SysInv ps sys G → Viewed t h v pc sys → Ends ps t h v' result sys) :
    Direct ps t call sys₀ pc result := by
  intro sys hd
  rcases hd.one_step hr hentry hs hv hends with hv | ⟨hv, hresult⟩
  · refine Or.inl ⟨hv.pc, fun o => ?_⟩
    obtain ⟨G, hinv⟩ := (hd.reachable hr).inv
    obtain ⟨hok, s', th', hrun, hresult, hv'⟩ := hends sys G hinv hv o
    have hstep : Step ps sys (.step t o) (sys.setThread t s' th') := by
      refine ⟨hok, ?_⟩
      simp only [exec, hrun]
      rfl
    refine ⟨_, hstep, hd.step (by rw [hv.pc]; exact hne) hstep, hv'.pc, ?_⟩
    simpa [System.setThread] using hresult
  · exact Or.inr ⟨hd, hv.pc, hresult⟩

/-- A pointer into a page of the heap that is handed out is a block of that
page. -/
theorem Viewed.block (hv : Viewed t h v pc sys) (hs : pc.Serves) (hinv : SysInv ps sys G)
    (hpg : pageOf p ∈ v.cls c) {g : Grant} (hg : sys.store.grants p = some g) :
    (∃ i, g.origin = .small (pageOf p) i) ∧ 1 ≤ v.used (pageOf p) ∧ v.used (pageOf p) ≤ 4096 := by
  have hdata := hinv.data.inv
  have hmem : pageOf p ∈ G.cls h c := by rwa [← hv.shows.cls_eq (hv.serving hs hinv)]
  obtain ⟨⟨hseg, _⟩, _⟩ := hdata.own_page hmem
  cases ho : g.origin with
  | large b =>
      exfalso
      obtain ⟨hbase, _⟩ := hdata.decode_large hg ho
      obtain ⟨size, offset, hb, _⟩ := hdata.grants.large p g b hg ho
      have hsmall : sys.store.os.regions b = some ⟨segmentSize, .small⟩ := by
        rw [← hbase]
        exact hseg
      rw [hb] at hsmall
      cases hsmall
  | small pg i =>
      obtain ⟨_, _, hpage⟩ := hdata.decode_small hg ho
      subst hpage
      have hserve := (hdata.smallGrant hg ho).inService
      have hpos := List.length_pos_of_mem (hdata.smallGrant hg ho).out
      have hused := hserve.used
      have hlt := hserve.used_lt
      rw [← hv.shows.used c _ hpg]
      change sys.store.page.used (pageOf p) = _ at hused
      change sys.store.page.used (pageOf p) ≤ _ at hlt
      exact ⟨⟨i, rfl⟩, by omega, hlt⟩

/-- Freeing a block of the page at the head takes one step. -/
theorem Viewed.free_ends (hv : Viewed t h v (.free p 0) sys) (hinv : SysInv ps sys G)
    {l : List PageId} (hhead : v.cls c = pageOf p :: l) :
    Ends ps t h (v.push (pageOf p) p) 0 sys := by
  have hdata := hinv.data.inv
  have hserve := hv.serving (.free p 0) hinv
  have hpg : pageOf p ∈ v.cls c := by
    rw [hhead]
    exact List.mem_cons_self
  obtain ⟨g, hg, _⟩ := ((hinv.threads t).holders p (.freeing t) rfl).mpr (by rw [hv.pc]; rfl)
  obtain ⟨⟨i, ho⟩, _⟩ := hv.block (.free p 0) hinv hpg hg
  have hmem : pageOf p ∈ G.cls h c := by rwa [← hv.shows.cls_eq hserve]
  obtain ⟨hp, hloc, _⟩ := hdata.own_page hmem
  have hl := (hdata.pages _ hp).loc
  rw [LocOk, hloc] at hl
  obtain ⟨howner, hclass, _⟩ := hl
  have hslot : sys.store.slot h c = pageOf p := by
    have hlist := hv.shows.lists c
    rw [hhead] at hlist
    exact hlist.slot_eq.1
  intro o
  refine ⟨by simp [StepOk, hv.pc], ?_⟩
  have hrun : stepThread ps o sys.store t (sys.threads t) = some (finishFree
      { pushLocal sys.store (pageOf p) p with
        grants := Function.update sys.store.grants p none } (sys.threads t) 0) := by
    unfold stepThread
    rw [hv.pc]
    dsimp only
    rw [stepFree_local _ _ (hdata.decode_small hg ho).2.1 rfl hv.heap howner hclass,
      if_neg (fun hempty => hempty.2 hslot)]
  refine ⟨_, _, hrun, rfl, ?_, ?_, ?_⟩
  · simp [System.setThread, Thread.ret]
  · simpa [System.setThread, finishFree, Thread.ret] using hv.heap
  · exact (hv.shows.push hdata hserve hg ho).of_eq rfl rfl rfl

/-- A request of the class of the block that was freed last takes one step. -/
theorem Viewed.small_ends {n : Nat} (hv : Viewed t h (v.push pg p) (.small ⟨n, false, none⟩ c) sys)
    {l : List PageId} (hhead : v.cls c = pg :: l) (hused : 1 ≤ v.used pg)
    (hlt : v.used pg ≤ 4096) : Ends ps t h v p sys := by
  have hpg : pg ∈ v.cls c := by
    rw [hhead]
    exact List.mem_cons_self
  have hslot : sys.store.slot h c = pg := by
    have hlist := hv.shows.lists c
    rw [show (v.push pg p).cls c = pg :: l from hhead] at hlist
    exact hlist.slot_eq.1
  obtain ⟨s₁, hpop, hv₁⟩ := hv.shows.pop hpg hused hlt
  have hfree : sys.store.page.free pg ≠ 0 := by
    obtain ⟨hb, hne, _⟩ := pagePop_shape hpop
    rwa [← hb]
  intro o
  refine ⟨?_, ?_⟩
  · simp only [StepOk, hv.pc]
    intro hnone
    rw [hv.heap] at hnone
    cases hnone
  · have hrun : stepThread ps o sys.store t (sys.threads t) =
        some (deliverBlock s₁ t (sys.threads t) ⟨n, false, none⟩ pg p) := by
      unfold stepThread
      rw [hv.pc]
      dsimp only
      rw [stepSmall_some ps o _ t _ c hv.heap, hslot, if_pos hfree, hpop]
      rfl
    refine ⟨_, _, hrun, rfl, ?_, ?_, hv₁.of_eq rfl rfl rfl⟩
    · simp [System.setThread, Thread.ret]
    · simpa [System.setThread, deliverBlock, deliver, Thread.ret] using hv.heap

/-- The page of block `p` is at the head of class `c`. -/
def AtHead (t c p : Nat) (sys : System) : Prop :=
  ∃ h, (sys.threads t).heap = some h ∧ sys.store.slot h c = pageOf p ∧
    ∃ g pg i, sys.store.grants p = some g ∧ g.origin = .small pg i

/-- `hm_malloc` of a small size. -/
theorem enter_small (ps : PageSize) (s : Store) {n : Nat} (hn : 1 ≤ n) (hle : n ≤ smallSizeMax) :
    enter ps s (.malloc n) = .goto (.small ⟨n, false, none⟩ (sizeClass n)) := by
  change hmMalloc ps ⟨n, false, none⟩ = _
  unfold hmMalloc
  rw [if_neg (by simp only; omega), if_pos hle]

/-- A small request that has been served leaves its page at the head. -/
theorem During.served {n : Nat} (hd : During ps t (.malloc n) sys₀ sys) (hr : Reachable ps sys₀)
    (hn : 1 ≤ n) (hle : n ≤ smallSizeMax) :
    (sys.threads t).pc.goal = some (.small ⟨n, false, none⟩ (sizeClass n)) ∨
      ((sys.threads t).pc = .idle ∧ ((sys.threads t).result = 0 ∨
        AtHead t (sizeClass n) (sys.threads t).result sys)) := by
  refine hd.induct (R := fun sys =>
    (sys.threads t).pc.goal = some (.small ⟨n, false, none⟩ (sizeClass n)) ∨
      ((sys.threads t).pc = .idle ∧ ((sys.threads t).result = 0 ∨
        AtHead t (sizeClass n) (sys.threads t).result sys))) hr ?_ ?_ ?_
  · rintro sys ⟨_, hrun⟩
    rw [exec_call, enter_small ps _ hn hle] at hrun
    cases hrun
    exact Or.inl (by simp [System.setThread, enterThread, Pc.goal])
  · intro sys G o s' th' G' _ _ hinv ih hown
    rcases ih with hgoal | ⟨hidle, _⟩
    · have hdata := hown.outcome.data.inv
      simp only [AtHead, System.setThread, Function.update_self]
      cases stepThread_alloc hinv.data (hinv.threads t) hown.ok hgoal hown.run hown.outcome with
      | goes hgoal' => exact Or.inl hgoal'
      | maps hpc =>
          rw [hpc] at hgoal
          cases hgoal
      | fails => exact Or.inr ⟨rfl, Or.inl rfl⟩
      | @serves q c k b pg s₁ hgoal' hheap _ hslot _ =>
          cases hgoal'
          have hgrant : ∃ g, (deliverBlock s₁ t (sys.threads t) ⟨n, false, none⟩ pg b).1.grants b =
              some g ∧ g.origin = .small pg ((b - s₁.page.area pg) / s₁.page.blockSize pg) :=
            deliver_origin ..
          obtain ⟨g, hg, ho⟩ := hgrant
          refine Or.inr ⟨rfl, Or.inr ⟨k, hheap, ?_, g, pg, _, hg, ho⟩⟩
          exact hslot.trans (hdata.decode_small hg ho).2.2.symm
      | registers hpc =>
          rw [hpc] at hgoal
          cases hgoal
    · exact absurd hidle hown.busy
  · intro sys G sys' G' _ hinv hbusy ih hby
    rcases ih with hgoal | ⟨hidle, _⟩
    · exact Or.inl (by rw [hby.pc]; exact hgoal)
    · exact absurd hidle hbusy

/-- What a thread sees when its small request has returned. -/
theorem Returns.viewed {n : Nat} (hret : Returns ps t (.malloc n) sys₀ sys p)
    (hr : Reachable ps sys₀) (hp : p ≠ 0) (hn : 1 ≤ n) (hle : n ≤ smallSizeMax) :
    ∃ h v l, Viewed t h v .idle sys ∧ v.cls (sizeClass n) = pageOf p :: l := by
  obtain ⟨G, hinv⟩ := (hret.during.reachable hr).inv
  have hdata := hinv.data.inv
  have hidle := hret.idle
  have hhead : AtHead t (sizeClass n) p sys := by
    rcases hret.during.served hr hn hle with hgoal | ⟨_, hzero | hhead⟩
    · rw [hidle] at hgoal
      cases hgoal
    · exact absurd (hret.result.symm.trans hzero) hp
    · rwa [hret.result] at hhead
  obtain ⟨h, hheap, hslot, g, pg, i, hg, ho⟩ := hhead
  have hserve : Serving sys.store G h none := (hinv.threads t).lists_at hidle rfl hheap
  have hne : sys.store.slot h (sizeClass n) ≠ emptyPage := by
    rw [hslot, (hdata.decode_small hg ho).2.2]
    exact (hdata.smallGrant hg ho).page.ne_emptyPage hdata.regions
  have hfirst := (DList.toChain (hserve.lists (sizeClass n))).head_eq
  rw [Store.classHead_eq hne rfl, hslot] at hfirst
  refine ⟨h, G.view sys.store h, (G.cls h (sizeClass n)).tail, ⟨hidle, hheap, hdata.shows hserve⟩,
    ?_⟩
  exact (List.cons_head?_tail hfirst.symm).symm

/-- The block of an allocation that has been served is freed in one step, and the
heap then has it in front. -/
theorem Viewed.freed (hv : Viewed t h v .idle sys) (hr : Reachable ps sys) (hp : p ≠ 0)
    {l : List PageId} (hhead : v.cls c = pageOf p :: l) :
    Direct ps t (.free p) sys (.free p 0) 0 ∧
      ∀ sys', Returns ps t (.free p) sys sys' 0 →
        Viewed t h (v.push (pageOf p) p) .idle sys' ∧
          1 ≤ v.used (pageOf p) ∧ v.used (pageOf p) ≤ 4096 := by
  have hentry : enter ps sys.store (.free p) = .goto (.free p 0) := if_neg hp
  have hends : ∀ sys G, SysInv ps sys G → Viewed t h v (.free p 0) sys →
      Ends ps t h (v.push (pageOf p) p) 0 sys := fun sys G hinv hv => hv.free_ends hinv hhead
  refine ⟨direct_of_ends hr hentry (.free p 0) (by simp) hv hends, fun sys' hret => ?_⟩
  obtain ⟨G, hinv⟩ := hr.inv
  obtain ⟨g, hg, _⟩ := hret.during.allowed.2.2.resolve_left hp
  refine ⟨?_, (hv.block (c := c) .idle hinv (by rw [hhead]; exact List.mem_cons_self) hg).2⟩
  rcases hret.during.one_step hr hentry (.free p 0) hv hends with hv' | ⟨hv', _⟩
  · exact absurd (hv'.pc.symm.trans hret.idle) (by simp)
  · exact hv'

/-- The next request of the class gets the block back in one step. -/
theorem Viewed.regained {n : Nat} (hv : Viewed t h (v.push (pageOf p) p) .idle sys)
    (hr : Reachable ps sys) (hn : 1 ≤ n) (hle : n ≤ smallSizeMax) (hc : sizeClass n = c)
    {l : List PageId} (hhead : v.cls c = pageOf p :: l) (hused : 1 ≤ v.used (pageOf p))
    (hlt : v.used (pageOf p) ≤ 4096) :
    Direct ps t (.malloc n) sys (.small ⟨n, false, none⟩ c) p ∧
      ∀ sys', Returns ps t (.malloc n) sys sys' p → Viewed t h v .idle sys' := by
  subst hc
  have hentry := enter_small ps sys.store hn hle
  have hends : ∀ sys G, SysInv ps sys G →
      Viewed t h (v.push (pageOf p) p) (.small ⟨n, false, none⟩ (sizeClass n)) sys →
      Ends ps t h v p sys := fun sys G _ hv => hv.small_ends hhead hused hlt
  refine ⟨direct_of_ends hr hentry (.small _ _) (by simp) hv hends, fun sys' hret => ?_⟩
  rcases hret.during.one_step hr hentry (.small _ _) hv hends with hv' | ⟨hv', _⟩
  · exact absurd (hv'.pc.symm.trans hret.idle) (by simp)
  · exact hv'

/-- The next request of class `c` takes the fast path. -/
def Fast (ps : PageSize) (t c : Nat) (sys : System) : Prop :=
  ∃ p, ∀ n, 1 ≤ n → n ≤ smallSizeMax → sizeClass n = c →
    Direct ps t (.malloc n) sys (.small ⟨n, false, none⟩ c) p

/-- An allocation of class `c` and the free of its block, with the steps of other
threads in between and afterwards. -/
structure Pair (ps : PageSize) (t c : Nat) (sys sys' : System) : Prop where
  run : ∃ n p sys₁ sys₂ sys₃, 1 ≤ n ∧ n ≤ smallSizeMax ∧ sizeClass n = c ∧
    Returns ps t (.malloc n) sys sys₁ p ∧ p ≠ 0 ∧ Others ps t sys₁ sys₂ ∧
    Returns ps t (.free p) sys₂ sys₃ 0 ∧ Others ps t sys₃ sys'

/-- Pairs in a row, with the states in which their allocations start. -/
inductive Pairs (ps : PageSize) (t c : Nat) (sys₀ : System) : List System → System → Prop where
  | none : Pairs ps t c sys₀ [] sys₀
  | next {starts : List System} {sys sys' : System} (h : Pairs ps t c sys₀ starts sys)
      (hpair : Pair ps t c sys sys') : Pairs ps t c sys₀ (starts ++ [sys]) sys'

/-- After a pair the next request takes the fast path. -/
theorem Pair.fast (hpair : Pair ps t c sys sys') (hr : Reachable ps sys) :
    Reachable ps sys' ∧ Fast ps t c sys' := by
  obtain ⟨n, p, sys₁, sys₂, sys₃, hn, hle, rfl, hret, hp, ho, hfree, ho'⟩ := hpair.run
  obtain ⟨h, v, l, hv, hhead⟩ := hret.viewed hr hp hn hle
  obtain ⟨hr₂, hv₂⟩ := ho.viewed (hret.during.reachable hr) hv
  obtain ⟨hv₃, hused, hlt⟩ := (hv₂.freed hr₂ hp hhead).2 sys₃ hfree
  obtain ⟨hr', hv'⟩ := ho'.viewed (hfree.during.reachable hr₂) hv₃
  exact ⟨hr', p, fun n' hn' hle' hc' => (hv'.regained hr' hn' hle' hc' hhead hused hlt).1⟩

theorem Pairs.fast {starts : List System} (h : Pairs ps t c sys₀ starts sys)
    (hr : Reachable ps sys₀) :
    Reachable ps sys ∧ (starts ≠ [] → Fast ps t c sys) ∧ ∀ s ∈ starts.tail, Fast ps t c s := by
  induction h with
  | none => exact ⟨hr, fun hne => absurd rfl hne, fun s hs => by cases hs⟩
  | @next starts sys sys' _ hpair ih =>
      obtain ⟨hr', hfast, htail⟩ := ih
      obtain ⟨hr'', hfast'⟩ := hpair.fast hr'
      refine ⟨hr'', fun _ => hfast', fun s hs => ?_⟩
      cases starts with
      | nil => cases hs
      | cons s₀ starts =>
          rcases List.mem_append.mp hs with hs | hs
          · exact htail s hs
          · rw [List.mem_singleton.mp hs]
            exact hfast (by simp)

/-- A balanced loop stays on the fast path. From every reachable state, for every
thread and class: once a request of the class is served, the thread frees its
block in one step and gets it back with the next request of the class in one
step, by the fast path, whatever the other threads do meanwhile; its heap then
looks as it did after the first request. Of pairs in a row only the first can
take the slow path. -/
theorem balanced_pairs (ps : PageSize) {sys₀ : System} (hr : Reachable ps sys₀) (t c : Nat) :
    (∀ n sys₁ p sys₂, 1 ≤ n → n ≤ smallSizeMax → sizeClass n = c →
      Returns ps t (.malloc n) sys₀ sys₁ p → p ≠ 0 → Others ps t sys₁ sys₂ →
      Direct ps t (.free p) sys₂ (.free p 0) 0 ∧
      ∀ sys₃ sys₄ n', Returns ps t (.free p) sys₂ sys₃ 0 → Others ps t sys₃ sys₄ →
        1 ≤ n' → n' ≤ smallSizeMax → sizeClass n' = c →
        Direct ps t (.malloc n') sys₄ (.small ⟨n', false, none⟩ c) p ∧
        ∀ sys₅, Returns ps t (.malloc n') sys₄ sys₅ p →
          ∃ h v, (sys₁.threads t).heap = some h ∧ sys₁.store.Shows h v ∧
            (sys₅.threads t).heap = some h ∧ sys₅.store.Shows h v) ∧
    (∀ starts sys, Pairs ps t c sys₀ starts sys → ∀ s ∈ starts.tail, Fast ps t c s) := by
  refine ⟨?_, fun starts sys h => (h.fast hr).2.2⟩
  intro n sys₁ p sys₂ hn hle hc hret hp ho
  subst hc
  obtain ⟨h, v, l, hv, hhead⟩ := hret.viewed hr hp hn hle
  obtain ⟨hr₂, hv₂⟩ := ho.viewed (hret.during.reachable hr) hv
  obtain ⟨hdirect, hfreed⟩ := hv₂.freed hr₂ hp hhead
  refine ⟨hdirect, ?_⟩
  intro sys₃ sys₄ n' hfree ho' hn' hle' hc'
  obtain ⟨hv₃, hused, hlt⟩ := hfreed sys₃ hfree
  obtain ⟨hr₄, hv₄⟩ := ho'.viewed (hfree.during.reachable hr₂) hv₃
  obtain ⟨hdirect', hback⟩ := hv₄.regained hr₄ hn' hle' hc' hhead hused hlt
  refine ⟨hdirect', fun sys₅ hret' => ?_⟩
  have hv₅ := hback sys₅ hret'
  exact ⟨h, v, hv.heap, hv.shows, hv₅.heap, hv₅.shows⟩

/-- The very first request of a thread, after which its block is freed in one
step. -/
theorem balanced_pairs_first : ∃ sys₀ sys₁ p, Reachable page4k sys₀ ∧
    Returns page4k 0 (.malloc 16) sys₀ sys₁ p ∧ p ≠ 0 ∧
      Direct page4k 0 (.free p) sys₁ (.free p 0) 0 := by
  have hrun : callSchedule page4k 0 (.malloc 16) [.spawn 0] ((firstMalloc 0 16).drop 2)
    (fun _ sys => (sys.threads 0).pc == .idle && (sys.threads 0).result != 0) = true := by
      decide +kernel
  obtain ⟨sys₀, sys, hr, hd, hcheck⟩ := callSchedule_during hrun
  simp only [Bool.and_eq_true, beq_iff_eq, bne_iff_ne] at hcheck
  have hret : Returns page4k 0 (.malloc 16) sys₀ sys (sys.threads 0).result := ⟨hd, hcheck.1, rfl⟩
  have hdirect := ((balanced_pairs page4k hr 0 (sizeClass 16)).1 16 sys _ sys (by decide)
    (by decide) rfl hret hcheck.2 .refl).1
  exact ⟨sys₀, sys, _, hr, hret, hcheck.2, hdirect⟩

end Calls

end HMalloc
