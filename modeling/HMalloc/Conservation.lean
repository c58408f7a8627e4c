import HMalloc.Safety
import HMalloc.Schedule

/-!
Nothing of a segment is lost or held twice. Every block of a page in service is
on its local list, on its `thread_free` list or handed out, and `used` counts the
ones that are not on the local list; every page is in its segment's pool, in one
class list of one heap or on the abandoned list, and its owner field says which.
Both hold in every reachable state of the system.
-/

namespace HMalloc

open Bytes Linked

/-- Block `i` of the page is with a client, or with a thread that has not yet
given it back. -/
def Store.isOut (s : Store) (pg : PageId) (i : Nat) : Bool :=
  (s.grants (s.page.block pg i)).any (fun g => g.origin == .small pg i)

/-- The blocks of a page, by its two free lists. -/
structure Conserved (s : Store) (pg : PageId) (free remote : List Nat) : Prop where
  localList : Chain (link s.os.mem) (ptr (s.page.free pg)) free
  remoteList : Chain (link s.os.mem) (ptr (s.page.threadFree pg)) remote
  slots : ∀ b, b ∈ free ∨ b ∈ remote → ∃ i < s.page.capacity pg, b = s.page.block pg i
  once : ∀ i < s.page.reserved pg, free.count (s.page.block pg i) +
    remote.count (s.page.block pg i) + (s.isOut pg i).toNat = 1
  beyond : ∀ i, s.page.reserved pg ≤ i → s.page.block pg i ∉ free ∧ s.page.block pg i ∉ remote ∧
    s.isOut pg i = false
  used : s.page.used pg = (List.range (s.page.reserved pg)).countP (s.isOut pg) + remote.length
  bounds : s.page.used pg ≤ s.page.reserved pg ∧ s.page.reserved pg ≤ s.page.capacity pg ∧
    s.page.capacity pg = pageSize / s.page.blockSize pg
  /-- The subtraction of `page_collect` does not wrap. -/
  collect : ∀ s', pageCollect s pg = some s' → s'.page.used pg + remote.length = s.page.used pg
  /-- Neither does the one of `heap_free`. -/
  push : ∀ i, s.isOut pg i = true →
    (pushLocal s pg (s.page.block pg i)).page.used pg + 1 = s.page.used pg

section Blocks

variable {ps : PageSize} {s : Store} {G : Ghost} {pg : PageId}

theorem Inv.isOut_iff (h : Inv ps s G) (hpg : IsPage (IsSegment s.os.regions) pg)
    (hin : InService s.os.mem (s.page.row pg) (G.page pg)) (i : Nat) :
    s.isOut pg i = true ↔ s.page.block pg i ∈ (G.page pg).out := by
  unfold Store.isOut
  simp only [Option.any_eq_true, beq_iff_eq]
  constructor
  · rintro ⟨g, hg, ho⟩
    exact (h.grants.small _ g pg i hg ho).2.1
  · intro hout
    obtain ⟨g, j, hg, ho⟩ := h.grants.out pg _ hpg hout
    obtain ⟨_, _, heq, _⟩ := h.grants.small _ g pg j hg ho
    obtain rfl : i = j := hin.block_injective heq
    exact ⟨g, hg, ho⟩

/-- The blocks that are out, counted by their index. -/
theorem Inv.countP_isOut (h : Inv ps s G) (hpg : IsPage (IsSegment s.os.regions) pg)
    (hin : InService s.os.mem (s.page.row pg) (G.page pg)) :
    (List.range (s.page.reserved pg)).countP (s.isOut pg) = (G.page pg).out.length := by
  have hinj : ∀ i j, s.page.block pg i = s.page.block pg j → i = j :=
    fun i j heq => hin.block_injective heq
  have hperm : (((List.range (s.page.reserved pg)).filter (s.isOut pg)).map (s.page.block pg)).Perm
      (G.page pg).out := by
    refine (List.perm_ext_iff_of_nodup ?_ ?_).mpr ?_
    · exact (List.nodup_range.filter _).map (fun i j heq => hinj i j heq)
    · exact (List.nodup_append.mp hin.nodup).2.1
    · intro b
      simp only [List.mem_map, List.mem_filter, List.mem_range]
      constructor
      · rintro ⟨i, ⟨_, hi⟩, rfl⟩
        exact (h.isOut_iff hpg hin i).mp hi
      · intro hb
        obtain ⟨i, hi, rfl⟩ := hin.mem_blocks.mp (Or.inr (Or.inr hb))
        exact ⟨i, ⟨hi, (h.isOut_iff hpg hin i).mpr hb⟩, rfl⟩
  rw [List.countP_eq_length_filter, ← hperm.length_eq, List.length_map]

theorem Inv.conserved (h : Inv ps s G) (hpg : IsPage (IsSegment s.os.regions) pg)
    (hserv : (G.page pg).loc ≠ .pool ∧ (G.page pg).loc ≠ .limbo) :
    Conserved s pg (G.page pg).free (G.page pg).remote := by
  have hin := (h.pages pg hpg).inService hserv
  have hout := h.isOut_iff hpg hin
  have hused : s.page.used pg = (G.page pg).out.length + (G.page pg).remote.length := hin.used
  have hle : s.page.used pg + (G.page pg).free.length = s.page.reserved pg := hin.used_le
  have hlt : s.page.used pg ≤ 4096 := hin.used_lt
  refine ⟨hin.free, hin.remote, ?_, ?_, ?_, ?_, ⟨by omega, hin.reserved, hin.capacity⟩, ?_, ?_⟩
  · intro b hb
    exact hin.exists_slot (by tauto)
  · intro i hi
    have hmem : s.page.block pg i ∈ (G.page pg).free ++ (G.page pg).remote ++ (G.page pg).out := by
      have hcase := hin.mem_blocks.mpr ⟨i, hi, rfl⟩
      simp only [List.mem_append, or_assoc]
      exact hcase
    have hcount := List.count_eq_one_of_mem hin.nodup hmem
    rw [List.count_append, List.count_append] at hcount
    have hcase : (s.isOut pg i).toNat = (G.page pg).out.count (s.page.block pg i) := by
      cases hi' : s.isOut pg i with
      | true =>
          exact (List.count_eq_one_of_mem (List.nodup_append.mp hin.nodup).2.1
            ((hout i).mp hi')).symm
      | false =>
          refine (List.count_eq_zero_of_not_mem fun hmem => ?_).symm
          rw [(hout i).mpr hmem] at hi'
          cases hi'
    rw [hcase]
    exact hcount
  · intro i hi
    have hnot : ∀ l : List Nat, (∀ b ∈ l, b ∈ (G.page pg).free ∨ b ∈ (G.page pg).remote ∨
        b ∈ (G.page pg).out) → s.page.block pg i ∉ l := by
      intro l hl hmem
      obtain ⟨j, hj, heq⟩ := hin.mem_blocks.mp (hl _ hmem)
      have hij : i = j := hin.block_injective heq
      have hj' : j < s.page.reserved pg := hj
      omega
    refine ⟨hnot _ (fun b hb => Or.inl hb), hnot _ (fun b hb => Or.inr (Or.inl hb)), ?_⟩
    rw [Bool.eq_false_iff]
    exact fun htrue => hnot _ (fun b hb => Or.inr (Or.inr hb)) ((hout i).mp htrue)
  · rw [h.countP_isOut hpg hin]
    exact hused
  · intro s' hrun
    obtain ⟨s₁, hrun₁, hinv₁, hstep₁⟩ := h.collect hpg hserv
    cases hrun.symm.trans hrun₁
    obtain ⟨_, hused₁, _⟩ := h.used_of_collected hpg hserv hinv₁ hstep₁
    omega
  · intro i hi
    have hpos := List.length_pos_of_mem ((hout i).mp hi)
    simp only [pushLocal, Function.update_self]
    rw [Word.sub_eq (by omega) (by omega)]
    omega

/-- Block conservation. In every reachable state, for every page that is held by
a heap or abandoned: its two free lists are chains in memory without repetition,
every block carved so far is on exactly one of them or is out, once, and no other
block is; `used` counts the blocks that are out and those on `thread_free`, with
`used ≤ reserved ≤ capacity`; and no subtraction from `used` wraps. -/
theorem blocks_conserved (ps : PageSize) {sys : System} (hr : Reachable ps sys) {pg : PageId}
    (hpg : IsPage (IsSegment sys.store.os.regions) pg) (howner : sys.store.page.owner pg ≠ .null) :
    ∃ free remote, free.Nodup ∧ remote.Nodup ∧ Conserved sys.store pg free remote := by
  obtain ⟨G, hinv⟩ := hr.inv
  have hserv : (G.page pg).loc ≠ .pool ∧ (G.page pg).loc ≠ .limbo := by
    refine ⟨fun hpool => howner ?_, fun hlimbo => ?_⟩
    · have hloc := (hinv.data.inv.pages pg hpg).loc
      unfold LocOk at hloc
      rw [hpool] at hloc
      exact hloc.1
    · have hsome := (hinv.data.inv.lists.places.limbo pg).mpr ⟨hpg, hlimbo⟩
      rw [hinv.data.limbo] at hsome
      cases hsome
  have hcons := hinv.data.inv.conserved hpg hserv
  exact ⟨_, _, hcons.localList.nodup, hcons.remoteList.nodup, hcons⟩

/-- The page of a thread's first block. -/
theorem blocks_conserved_first : ∃ sys pg, Reachable page4k sys ∧
    IsPage (IsSegment sys.store.os.regions) pg ∧ sys.store.page.owner pg ≠ .null ∧
    ∃ free remote, free.Nodup ∧ remote.Nodup ∧ Conserved sys.store pg free remote := by
  obtain ⟨sys, hr, hcheck⟩ := schedule_reachable page4k (firstMalloc 0 16)
    (fun sys => sys.store.os.regions (2 ^ 43) == some ⟨segmentSize, .small⟩ &&
      sys.store.page.owner ⟨2 ^ 43, 63⟩ != .null) (by decide +kernel)
  simp only [Bool.and_eq_true, beq_iff_eq, bne_iff_ne] at hcheck
  have hpg : IsPage (IsSegment sys.store.os.regions) ⟨2 ^ 43, 63⟩ :=
    ⟨hcheck.1, by decide, by decide⟩
  exact ⟨sys, _, hr, hpg, hcheck.2, blocks_conserved page4k hr hpg hcheck.2⟩

end Blocks

/-- Where a page can be: in the pool of a segment, in a class list of a thread's
heap, or on the abandoned list. -/
inductive Place where
  | pool (seg : Nat)
  | heap (t c : Nat)
  | abandoned
  deriving DecidableEq

/-- How far `heap_destroy` has got: the class, and the page it comes to next. -/
def Pc.leaves : Pc → Option (Nat × Option PageId)
  | .destroy c p | .hand c p _ => some (c, some p)
  | .unregisterSegment _ (.destroying c next) | .unmapSegment _ (.destroying c next) =>
      some (c, next)
  | .unlinkHeap | .unmapHeap => some (numSizeClasses, none)
  | _ => none

/-- The pages of class `c` of the heap at `h`, whose thread is at `pc`. Once
`heap_destroy` has started, they are the ones it has not yet handed over. -/
def HeapList (s : Store) (pc : Pc) (h c : Nat) (l : List PageId) : Prop :=
  match pc.leaves with
  | none => s.ClassList h c l
  | some (c', next) =>
      if c < c' then l = [] else if c = c' then Chain s.page.next next l else s.ClassList h c l

/-- The page is in that place. -/
def System.Sits (sys : System) (pg : PageId) : Place → Prop
  | .pool b => IsSegment sys.store.os.regions b ∧
      ∃ l, Chain sys.store.page.next (sys.store.seg.freeList b) l ∧ pg ∈ l
  | .heap t c => c < numSizeClasses ∧ ∃ h, (sys.threads t).home = some h ∧
      ∃ l, HeapList sys.store (sys.threads t).pc h c l ∧ pg ∈ l
  | .abandoned => ∃ l, Chain sys.store.page.next sys.store.central.abandoned l ∧ pg ∈ l

/-- What the fields of a page say of its place. A page in a pool has no block out
and no block on its `thread_free` list. -/
def System.Labelled (sys : System) (pg : PageId) : Place → Prop
  | .pool b => b = pg.seg ∧ sys.store.page.owner pg = .null ∧ sys.store.page.inUse pg = false ∧
      sys.store.page.used pg = 0 ∧ sys.store.page.threadFree pg = 0 ∧
      ∀ i, sys.store.isOut pg i = false
  | .heap t c => ∃ h, (sys.threads t).home = some h ∧ sys.store.page.owner pg = .heap h ∧
      sys.store.page.sizeClass pg = c
  | .abandoned => sys.store.page.owner pg = .abandoned

section Places

variable {ps : PageSize} {s : Store} {G : Ghost} {pg : PageId} {sys : System}

/-- The class lists are those of the ghost state. -/
theorem HeapOk.heapList {h : Nat} {pc : Pc} (hok : HeapOk s G h pc) {c : Nat}
    (hc : c < numSizeClasses) : HeapList s pc h c (G.cls h c) := by
  have hleaving : ∀ c' next, Leaving s G h c' next → pc.leaves = some (c', next) →
      HeapList s pc h c (G.cls h c) := by
    intro c' next hl hpc
    unfold HeapList
    rw [hpc]
    simp only
    rcases Nat.lt_trichotomy c c' with hlt | rfl | hgt
    · rw [if_pos hlt]
      exact hl.done c hlt
    · rw [if_neg (Nat.lt_irrefl c), if_pos rfl]
      exact hl.list
    · rw [if_neg (by omega), if_neg (by omega)]
      exact hl.todo c hgt
  have hgone : (∀ c, G.cls h c = []) → pc.leaves = some (numSizeClasses, none) →
      HeapList s pc h c (G.cls h c) := by
    intro hnil hpc
    unfold HeapList
    rw [hpc]
    simp only [if_pos hc]
    exact hnil c
  cases pc with
  | destroy c' p => exact hleaving c' (some p) hok rfl
  | hand c' p next => exact hleaving c' (some p) hok.1 rfl
  | unlinkHeap => exact hgone hok rfl
  | unmapHeap => exact hgone hok rfl
  | unregisterSegment b after | unmapSegment b after =>
      cases after with
      | freed r => exact Serving.lists hok c
      | destroying c' next => exact hleaving c' next hok rfl
      | sweeping q c' cur => exact Serving.lists (Filled.toServing hok) c
  | walk q c' p => exact hok.1.lists c
  | release p r => exact hok.1.lists c
  | acquire q c' | sweep q c' cur | mapSegment q c' | registerSegment q c' b =>
      exact (Filled.toServing hok).lists c
  | idle | small q c' | linkHeap q c' a | large q o m | registerLarge q o m b | free p r
  | remote p hd r | unmapLarge p b n r => exact Serving.lists hok c

/-- A class list is determined by the store. -/
theorem HeapList.unique {pc : Pc} {h c : Nat} {l l' : List PageId} (hl : HeapList s pc h c l)
    (hl' : HeapList s pc h c l') : l = l' := by
  unfold HeapList at hl hl'
  split at hl
  · rename_i hnone
    rw [hnone] at hl'
    exact (DList.toChain hl).unique (DList.toChain hl')
  · rename_i hsome
    rw [hsome] at hl'
    simp only at hl'
    split at hl
    · rename_i hlt
      rw [if_pos hlt] at hl'
      rw [hl, hl']
    · rename_i hge
      rw [if_neg hge] at hl'
      split at hl
      · rename_i heq
        rw [if_pos heq] at hl'
        exact hl.unique hl'
      · rename_i hne
        rw [if_neg hne] at hl'
        exact (DList.toChain hl).unique (DList.toChain hl')

theorem SysInv.sits_pool (hinv : SysInv ps sys G) {b : Nat} :
    sys.Sits pg (.pool b) ↔
      IsPage (IsSegment sys.store.os.regions) pg ∧ pg.seg = b ∧ (G.page pg).loc = .pool := by
  have hplaces := hinv.data.inv.lists.places.pool b pg
  have hchains := hinv.data.inv.lists.chains.pool b
  constructor
  · rintro ⟨hb, l, hl, hmem⟩
    rw [hl.unique (hchains hb)] at hmem
    exact hplaces.mp hmem
  · intro h
    have hb : IsSegment sys.store.os.regions b := by
      rw [← h.2.1]
      exact h.1.1
    exact ⟨hb, _, hchains hb, hplaces.mpr h⟩

theorem SysInv.sits_abandoned (hinv : SysInv ps sys G) :
    sys.Sits pg .abandoned ↔
      IsPage (IsSegment sys.store.os.regions) pg ∧ (G.page pg).loc = .abandoned := by
  have hplaces := hinv.data.inv.lists.places.abandoned pg
  have hchain := hinv.data.inv.lists.chains.abandoned
  constructor
  · rintro ⟨l, hl, hmem⟩
    rw [hl.unique hchain] at hmem
    exact hplaces.mp hmem
  · intro h
    exact ⟨_, hchain, hplaces.mpr h⟩

theorem SysInv.sits_heap (hinv : SysInv ps sys G) {t c : Nat} :
    sys.Sits pg (.heap t c) ↔ ∃ h, (sys.threads t).home = some h ∧
      IsPage (IsSegment sys.store.os.regions) pg ∧ (G.page pg).loc = .held h c := by
  constructor
  · rintro ⟨hc, h, hhome, l, hl, hmem⟩
    rw [hl.unique (((hinv.threads t).lists h hhome).heapList hc)] at hmem
    exact ⟨h, hhome, (hinv.data.inv.lists.places.cls h c pg).mp hmem⟩
  · rintro ⟨h, hhome, hloc⟩
    have hmem := (hinv.data.inv.lists.places.cls h c pg).mpr hloc
    have hc := (hinv.data.inv.own_page hmem).2.2.2.2.2
    exact ⟨hc, h, hhome, _, ((hinv.threads t).lists h hhome).heapList hc, hmem⟩

/-- The thread whose heap a page is in. -/
theorem SysInv.holder (hinv : SysInv ps sys G) (hpg : IsPage (IsSegment sys.store.os.regions) pg)
    {h c : Nat} (hloc : (G.page pg).loc = .held h c) :
    ∃ t, (sys.threads t).home = some h ∧ ∀ u, (sys.threads u).home = some h → u = t := by
  have hmem := (hinv.data.inv.lists.places.cls h c pg).mpr ⟨hpg, hloc⟩
  obtain ⟨t, size, hreg⟩ := hinv.data.homes h c (List.ne_nil_of_mem hmem)
  refine ⟨t, ((hinv.threads t).home h size).mp hreg |>.2, fun u hu => ?_⟩
  have hreg' := ((hinv.threads u).home h _).mpr ⟨rfl, hu⟩
  rw [hreg] at hreg'
  cases hreg'
  rfl

/-- Every page is in exactly one place, and its fields name it. -/
theorem SysInv.one_place (hinv : SysInv ps sys G)
    (hpg : IsPage (IsSegment sys.store.os.regions) pg) :
    ∃ place, sys.Sits pg place ∧ sys.Labelled pg place ∧
      ∀ place', sys.Sits pg place' → place' = place := by
  have hok := (hinv.data.inv.pages pg hpg).loc
  unfold LocOk at hok
  -- Whatever place the page is in, the ghost state has it there.
  have hcases : ∀ place, sys.Sits pg place →
      (place = .pool pg.seg ∧ (G.page pg).loc = .pool) ∨
      (∃ t c h, place = .heap t c ∧ (sys.threads t).home = some h ∧ (G.page pg).loc = .held h c) ∨
      (place = .abandoned ∧ (G.page pg).loc = .abandoned) := by
    intro place hsits
    cases place with
    | pool b =>
        obtain ⟨_, rfl, hloc⟩ := hinv.sits_pool.mp hsits
        exact Or.inl ⟨rfl, hloc⟩
    | heap t c =>
        obtain ⟨h, hhome, _, hloc⟩ := hinv.sits_heap.mp hsits
        exact Or.inr (Or.inl ⟨t, c, h, rfl, hhome, hloc⟩)
    | abandoned => exact Or.inr (Or.inr ⟨rfl, (hinv.sits_abandoned.mp hsits).2⟩)
  cases hloc : (G.page pg).loc with
  | pool =>
      rw [hloc] at hok
      obtain ⟨howner, huse, hvacant⟩ := hok
      refine ⟨.pool pg.seg, hinv.sits_pool.mpr ⟨hpg, rfl, hloc⟩,
        ⟨rfl, howner, huse, hvacant.used, hvacant.threadFree, fun i => ?_⟩, fun place hsits => ?_⟩
      · rw [Bool.eq_false_iff]
        unfold Store.isOut
        intro hout
        simp only [Option.any_eq_true, beq_iff_eq] at hout
        obtain ⟨g, hg, ho⟩ := hout
        have hmem := (hinv.data.inv.grants.small _ g pg i hg ho).2.1
        rw [hvacant.out] at hmem
        cases hmem
      · rcases hcases place hsits with ⟨rfl, _⟩ | ⟨_, _, _, _, _, h⟩ | ⟨_, h⟩
        · rfl
        · cases hloc.symm.trans h
        · cases hloc.symm.trans h
  | held h c =>
      rw [hloc] at hok
      obtain ⟨howner, hcls, _⟩ := hok
      obtain ⟨t, hhome, honly⟩ := hinv.holder hpg hloc
      refine ⟨.heap t c, hinv.sits_heap.mpr ⟨h, hhome, hpg, hloc⟩, ⟨h, hhome, howner, hcls⟩,
        fun place hsits => ?_⟩
      rcases hcases place hsits with ⟨_, h'⟩ | ⟨u, c', h₁, rfl, hhome', h'⟩ | ⟨_, h'⟩
      · cases hloc.symm.trans h'
      · cases hloc.symm.trans h'
        rw [honly u hhome']
      · cases hloc.symm.trans h'
  | abandoned =>
      rw [hloc] at hok
      refine ⟨.abandoned, hinv.sits_abandoned.mpr ⟨hpg, hloc⟩, hok.1, fun place hsits => ?_⟩
      rcases hcases place hsits with ⟨_, h⟩ | ⟨_, _, _, _, _, h⟩ | ⟨rfl, _⟩
      · cases hloc.symm.trans h
      · cases hloc.symm.trans h
      · rfl
  | limbo =>
      have hsome := (hinv.data.inv.lists.places.limbo pg).mpr ⟨hpg, hloc⟩
      rw [hinv.data.limbo] at hsome
      cases hsome

/-- Every usable page has exactly one holder and its owner field names it. In
every reachable state each of the pages 1 to 63 of each mapped segment is in its
segment's free list, in the list of its class of one live heap, or on the
abandoned list, in exactly one of them and with the fields that say so. So a
thread that frees a live block takes the local branch only if the page is in its
own heap, and the remote branch if it has none. -/
theorem pages_have_one_holder (ps : PageSize) {sys : System} (hr : Reachable ps sys) :
    (∀ pg, IsPage (IsSegment sys.store.os.regions) pg → ∃ place, sys.Sits pg place ∧
      sys.Labelled pg place ∧ ∀ place', sys.Sits pg place' → place' = place) ∧
    ∀ t p g pg i, sys.store.grants p = some g → g.origin = .small pg i →
      pageOf p = pg ∧
      (sys.store.page.owner pg = Owner.ofHeap (sys.threads t).heap →
        ∃ h, (sys.threads t).heap = some h ∧ sys.Sits pg (.heap t (sys.store.page.sizeClass pg))) ∧
      ((sys.threads t).heap = none →
        sys.store.page.owner pg ≠ Owner.ofHeap (sys.threads t).heap) := by
  obtain ⟨G, hinv⟩ := hr.inv
  refine ⟨fun pg hpg => hinv.one_place hpg, ?_⟩
  intro t p g pg i hg ho
  have hpage := (hinv.data.inv.smallGrant hg ho).page
  have howner := hinv.data.inv.owner_of_grant hg ho
  refine ⟨(hinv.data.inv.decode_small hg ho).2.2, ?_, ?_⟩
  · intro heq
    rcases howner with ⟨k, c, hmem, hk, hc⟩ | hab
    · cases hheap : (sys.threads t).heap with
      | none =>
          rw [hheap, hk] at heq
          cases heq
      | some h =>
          rw [hheap, hk] at heq
          cases heq
          have hhome := (hinv.threads t).home_of_heap hheap
          refine ⟨k, rfl, hinv.sits_heap.mpr ⟨k, hhome, hpage, ?_⟩⟩
          rw [hc]
          exact ((hinv.data.inv.lists.places.cls k c pg).mp hmem).2
    · rw [hab] at heq
      cases hheap : (sys.threads t).heap with
      | none =>
          rw [hheap] at heq
          cases heq
      | some h =>
          rw [hheap] at heq
          cases heq
  · intro hnone heq
    rw [hnone] at heq
    rcases howner with ⟨k, c, _, hk, _⟩ | hab
    · cases hk.symm.trans heq
    · cases hab.symm.trans heq

/-- The page of a thread's first block. -/
theorem pages_have_one_holder_first : ∃ sys pg, Reachable page4k sys ∧
    IsPage (IsSegment sys.store.os.regions) pg ∧
    ∃ place, sys.Sits pg place ∧ sys.Labelled pg place := by
  obtain ⟨sys, hr, hcheck⟩ := schedule_reachable page4k (firstMalloc 0 16)
    (fun sys => sys.store.os.regions (2 ^ 43) == some ⟨segmentSize, .small⟩) (by decide +kernel)
  have hpg : IsPage (IsSegment sys.store.os.regions) ⟨2 ^ 43, 63⟩ :=
    ⟨eq_of_beq hcheck, by decide, by decide⟩
  obtain ⟨place, hsits, hlabel, _⟩ := (pages_have_one_holder page4k hr).1 _ hpg
  exact ⟨sys, _, hr, hpg, place, hsits, hlabel⟩

end Places

end HMalloc
