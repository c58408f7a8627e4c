import HMalloc.CallRuns
import HMalloc.Conservation
import HMalloc.Transit
import HMalloc.Writes

/-!
The class lists of the heaps. The slot of a class has the sentinel `g_empty_page`
or the head of a doubly linked list, in every state in which the heap is in use.
The sentinel is shared by all heaps and is in no list, and no step writes it
(`Reachable.sentinel`). `heap_destroy` goes through the lists of a heap while the
pages it has handed over are relinked by their new holders (`Ahead`).
-/

namespace HMalloc

open Bytes Linked

section Sentinel

variable {ps : PageSize} {o : Oracle} {s : Store} {G : Ghost} {t : Nat} {th : Thread} {q : PageId}

/-- The page that `central_acquire_page` takes is in a pool. -/
theorem Inv.freshPage (h : Inv ps s G) {pg : PageId} (hfresh : freshPage s = some pg) :
    IsPage (IsSegment s.os.regions) pg ∧ (G.page pg).loc = .pool := by
  simp only [HMalloc.freshPage, Option.bind_eq_bind, Option.bind_eq_some_iff] at hfresh
  obtain ⟨b, havail, hlist⟩ := hfresh
  have hready : b ∈ G.avail := by
    have hchain := h.lists.chains.avail.toChain
    rw [havail] at hchain
    exact List.mem_of_head? hchain.head_eq.symm
  have hseg := ((h.lists.places.segments b).mp ((h.lists.places.avail b).mp hready).1).1
  have hchain := h.lists.chains.pool b hseg
  rw [hlist] at hchain
  obtain ⟨hpg, _, hloc⟩ := (h.lists.places.pool b pg).mp (List.mem_of_head? hchain.head_eq.symm)
  exact ⟨hpg, hloc⟩

/-- The neighbours of a page in a class list are pages of the list. -/
theorem Store.ClassList.neighbour {k c : Nat} {l : List PageId} (h : s.ClassList k c l)
    {p : PageId} (hp : p ∈ l) (hq : s.page.prev p = some q ∨ s.page.next p = some q) : q ∈ l := by
  obtain ⟨before, after, rfl⟩ := List.append_of_mem hp
  obtain ⟨hprev, hnext⟩ := DList.around h
  rcases hq with hq | hq
  · rw [hprev] at hq
    exact List.mem_append_left _ (List.mem_of_getLast? hq)
  · rw [hnext] at hq
    exact List.mem_append_right _ (List.mem_cons_of_mem _ (List.mem_of_head? hq))

theorem Thread.Enters.ne_emptyPage {c : Nat} (hinv : Inv ps s G) (h : th.Enters s c q) :
    q ≠ emptyPage := by
  rcases h with hfresh | ⟨_, _, _, hne⟩
  · exact (hinv.freshPage hfresh).1.ne_emptyPage hinv.regions
  · exact hne

/-- No thread writes the sentinel. -/
theorem Thread.Writes.ne_emptyPage (hc : Consistent ps s G) (h : ThreadOk ps s G t th)
    (hok : StepOk ps o s th) (hw : th.Writes ps o s q) : q ≠ emptyPage := by
  have hinv := hc.inv
  have hown : ∀ {k c : Nat}, q ∈ G.cls k c → q ≠ emptyPage := fun hq => (hinv.own_page hq).2.2.1
  unfold Thread.Writes at hw
  cases hpc : th.pc with
  | small r c =>
      rw [hpc] at hw
      obtain ⟨_, _, _, hfree⟩ := hw
      rintro rfl
      exact hfree hinv.sentinel
  | walk r c p =>
      obtain ⟨k, hk, hlists⟩ := h.heap_at hpc rfl rfl
      rw [hpc] at hw
      obtain ⟨hserving, before, after, hsplit, _⟩ := hlists
      have hp : p ∈ G.cls k c := by simp [hsplit]
      rcases hw with rfl | ⟨k', hk', _, hprev | hnext | rfl⟩
      · exact hown hp
      · exact hown ((hserving.lists c).neighbour hp (Or.inl hprev))
      · exact hown ((hserving.lists c).neighbour hp (Or.inr hnext))
      · rw [hk] at hk'
        cases hk'
        cases hlist : G.cls k c with
        | nil =>
            rw [hlist] at hp
            cases hp
        | cons head rest =>
            have hclass := hserving.lists c
            rw [hlist] at hclass
            exact hclass.slot_eq.2
  | acquire r c | registerSegment r c b =>
      rw [hpc] at hw
      exact hw.ne_emptyPage hinv
  | sweep r c cur =>
      rw [hpc] at hw
      have hcur : CursorOk G cur := by
        have hlock := h.lock_at hpc
        exact hlock.2
      have hleft : ∀ pg, pg ∈ G.abandoned → pg ≠ emptyPage := fun pg hpg =>
        ((hinv.lists.places.abandoned pg).mp hpg).1.ne_emptyPage hinv.regions
      cases hread : cursorRead s cur with
      | none =>
          simp only [hread] at hw
          exact hw.ne_emptyPage hinv
      | some pg =>
          simp only [hread] at hw
          obtain ⟨before, after, hsplit, _⟩ := hinv.cursor_split hcur hread
          rcases hw with rfl | hq
          · exact hleft q (by simp [hsplit])
          · exact hleft q (hcur q hq)
  | mapSegment r c =>
      rw [hpc] at hw
      obtain ⟨os, hmap⟩ := hw
      unfold StepOk at hok
      rw [hpc] at hok
      have hm := osAllocAligned_mapped hok (by decide) (by decide) hmap
      rintro rfl
      exact hm.ne_zero rfl
  | free p result =>
      rw [hpc] at hw
      obtain ⟨hlarge, rfl⟩ := hw
      obtain ⟨g, hg, _⟩ := (h.holders p (.freeing t) rfl).mpr (by rw [hpc]; rfl)
      cases ho : g.origin with
      | large b =>
          rw [(hinv.decode_large hg ho).2] at hlarge
          cases hlarge
      | small pg i =>
          rw [(hinv.decode_small hg ho).2.2]
          exact (hinv.smallGrant hg ho).page.ne_emptyPage hinv.regions
  | remote p head result =>
      have hpointers := h.pointers
      rw [hpc] at hw hpointers
      obtain ⟨_, g, pg, i, hg, ho⟩ := hpointers
      obtain rfl : q = pageOf p := hw
      rw [(hinv.decode_small hg ho).2.2]
      exact (hinv.smallGrant hg ho).page.ne_emptyPage hinv.regions
  | release pg result =>
      obtain ⟨k, _, hlists⟩ := h.heap_at hpc rfl rfl
      rw [hpc] at hw
      obtain ⟨hserving, _, c, htail⟩ := hlists
      have hp := List.mem_of_mem_tail htail
      rcases hw with rfl | hlink
      · exact hown hp
      · exact hown ((hserving.lists c).neighbour hp hlink)
  | destroy c p =>
      obtain ⟨k, _, hlists⟩ := h.heap_at hpc rfl rfl
      rw [hpc] at hw
      obtain rfl : q = p := hw
      exact hown (List.mem_of_head? hlists.list.head_eq.symm)
  | hand c p next =>
      obtain ⟨k, _, hlists⟩ := h.heap_at hpc rfl rfl
      rw [hpc] at hw
      obtain rfl : q = p := hw
      exact hown (List.mem_of_head? hlists.1.list.head_eq.symm)
  | idle | linkHeap | unregisterSegment | unmapSegment | large | registerLarge | unmapLarge
  | unlinkHeap | unmapHeap =>
      rw [hpc] at hw
      exact hw.elim

end Sentinel

section Links

variable {s s' : Store} {t : Nat} {th th' : Thread} {pg : PageId}

/-- The links of page `q` have not changed. -/
theorem Untouched.links {q : PageId} (h : Untouched s s' q) :
    s'.page.next q = s.page.next q ∧ s'.page.prev q = s.page.prev q :=
  ⟨congrArg PageRecord.next h, congrArg PageRecord.prev h⟩

theorem poolReturn_slot {dead : Option Nat} (h : poolReturn s pg = some (s', dead)) :
    s'.slot = s.slot := by
  obtain ⟨seg, central, rfl⟩ := poolReturn_shape h
  rfl

/-- A page that `heap_on_page_empty` unlinks has a predecessor, and the list
that remains is the old one without it. -/
theorem stepRelease_list {k c result : Nat} {l r : List PageId}
    (h : stepRelease s t th pg result = some (s', th')) (hl : s.ClassList k c (l ++ pg :: r))
    (hnil : l ≠ []) : s'.ClassList k c (l ++ r) := by
  simp only [stepRelease, Option.bind_eq_bind, Option.bind_eq_some_iff] at h
  obtain ⟨s₁, hunlink, ⟨s₂, dead⟩, hpool, h⟩ := h
  obtain ⟨s₁', hrun, hlist, _⟩ := unlinkEmpty_spec hl hnil
  obtain rfl : s₁ = s₁' := Option.some.inj (hunlink.symm.trans hrun)
  have hpg : pg ∉ l ++ r := (List.nodup_cons.mp (List.nodup_middle.mp (DList.nodup hl))).1
  have hpage : s'.page = s₂.page := afterPool_page h
  have hslot : s'.slot = s₂.slot := by
    cases dead <;> (cases h; rfl)
  refine hlist.congr ?_ (fun q hq => ?_)
  · rw [hslot, poolReturn_slot hpool]
  · rw [hpage]
    have hkept := poolReturn_untouched hpool (fun heq => hpg (heq ▸ hq))
    exact hkept.links

/-- `heap_destroy` hands page `p` over and goes on, or the segment of the page
goes first. -/
theorem stepHand_cases {c : Nat} {next : Option PageId}
    (h : stepHand s t th c pg next = some (s', th')) :
    ∃ s₁, (∀ q, q ≠ pg → s₁.page.next q = s.page.next q ∧ s₁.page.prev q = s.page.prev q) ∧
      s₁.slot = s.slot ∧ (stepAfter s₁ th (.destroying c next) = some (s', th') ∨
        s'.page = s₁.page ∧ s'.slot = s₁.slot ∧
          ∃ b, th' = { th with pc := .unregisterSegment b (.destroying c next) }) := by
  unfold stepHand at h
  split at h
  · simp only [Option.bind_eq_bind, Option.bind_eq_some_iff] at h
    obtain ⟨⟨s₁, dead⟩, hpool, h⟩ := h
    have hslot := poolReturn_slot hpool
    have hkept := fun q (hq : q ≠ pg) => (poolReturn_untouched hpool hq).links
    refine ⟨s₁, hkept, hslot, ?_⟩
    cases dead with
    | none => exact Or.inl h
    | some b =>
        cases h
        exact Or.inr ⟨rfl, rfl, b, rfl⟩
  · refine ⟨centralAbandonPage s pg, fun q hq => ?_, rfl, Or.inl h⟩
    exact ⟨Function.update_of_ne hq .., Function.update_of_ne hq ..⟩

end Links

section Destroy

variable {ps : PageSize} {s s' : Store} {G G' : Ghost} {t h c : Nat} {th th' : Thread}
  {lists : Nat → List PageId} {handed : List PageId} {next : Option PageId}

/-- The pages of the classes from `c` on. -/
def pagesFrom (lists : Nat → List PageId) (c : Nat) : List PageId :=
  (List.range' c (numSizeClasses - c)).flatMap lists

theorem pagesFrom_cons (hc : c < numSizeClasses) :
    pagesFrom lists c = lists c ++ pagesFrom lists (c + 1) := by
  unfold pagesFrom
  have hlen : numSizeClasses - c = (numSizeClasses - (c + 1)) + 1 := by omega
  rw [hlen, List.range'_succ, List.flatMap_cons]

theorem pagesFrom_end (hc : numSizeClasses ≤ c) : pagesFrom lists c = [] := by
  unfold pagesFrom
  rw [Nat.sub_eq_zero_of_le hc]
  rfl

/-- `heap_destroy` has handed over the pages of `handed` and goes on with page
`next` of class `c`. The classes before `c` have the sentinel, those after it
their lists of before. -/
structure Ahead (s : Store) (h : Nat) (lists : Nat → List PageId) (handed : List PageId) (c : Nat)
    (next : Option PageId) : Prop where
  done : ∀ c' < c, c' < numSizeClasses → s.slot h c' = emptyPage
  todo : ∀ c' > c, c' < numSizeClasses → s.ClassList h c' (lists c')
  rest : ∃ l, Chain s.page.next next l ∧ handed ++ (l ++ pagesFrom lists (c + 1)) =
    pagesFrom lists 0

/-- The same for a program counter of `heap_destroy`. -/
def AheadAt (s : Store) (h : Nat) (lists : Nat → List PageId) (handed : List PageId) (pc : Pc) :
    Prop :=
  ∃ c next, pc.leaves = some (c, next) ∧ Ahead s h lists handed c next

/-- What is left of a heap's lists in `heap_destroy`. -/
theorem HeapOk.leaving {pc : Pc} (hok : HeapOk s G h pc) (hpc : pc.leaves = some (c, next)) :
    Chain s.page.next next (G.cls h c) ∧
      ∀ c' > c, c' < numSizeClasses → s.ClassList h c' (G.cls h c') := by
  have hleaving : Leaving s G h c next → Chain s.page.next next (G.cls h c) ∧
      ∀ c' > c, c' < numSizeClasses → s.ClassList h c' (G.cls h c') :=
    fun hl => ⟨hl.list, fun c' hc _ => hl.todo c' hc⟩
  cases pc with
  | destroy c' p =>
      cases hpc
      exact hleaving hok
  | hand c' p next' =>
      cases hpc
      exact hleaving hok.1
  | unregisterSegment b after | unmapSegment b after =>
      cases after with
      | destroying c' next' =>
          cases hpc
          exact hleaving hok
      | freed | sweeping => cases hpc
  | unlinkHeap | unmapHeap =>
      cases hpc
      refine ⟨?_, fun c' hc hlt => absurd hlt (by omega)⟩
      rw [hok numSizeClasses]
      rfl
  | idle | small | linkHeap | walk | acquire | sweep | mapSegment | registerSegment | large
  | registerLarge | free | remote | release | unmapLarge => cases hpc

/-- The others leave the lists of the heap alone. -/
theorem Ahead.same {pc : Pc} (ha : Ahead s h lists handed c next) (hok : HeapOk s G h pc)
    (hpc : pc.leaves = some (c, next)) (hs : SameLists s G s' G' h) :
    Ahead s' h lists handed c next := by
  obtain ⟨hchain, hclasses⟩ := hok.leaving hpc
  obtain ⟨l, hl, hsum⟩ := ha.rest
  obtain rfl : l = G.cls h c := hl.unique hchain
  refine ⟨fun c' hc hlt => ?_, fun c' hc hlt => ?_, ?_⟩
  · rw [hs.slot]
    exact ha.done c' hc hlt
  · have hlist := ha.todo c' hc hlt
    have heq : lists c' = G.cls h c' :=
      (DList.toChain hlist).unique (DList.toChain (hclasses c' hc hlt))
    refine hlist.congr (by rw [hs.slot]) (fun q hq => ?_)
    rw [heq] at hq
    obtain ⟨hnext, hprev, _⟩ := hs.pages c' q hq
    exact ⟨hnext, hprev⟩
  · exact ⟨_, hl.congr (fun q hq => (hs.pages c q hq).1), hsum⟩

/-- What becomes of the pages that have been handed over does not matter. -/
theorem Ahead.congr (ha : Ahead s h lists handed c next) (hdistinct : (pagesFrom lists 0).Nodup)
    (hslot : s'.slot h = s.slot h)
    (hlinks : ∀ q, q ∉ handed →
      s'.page.next q = s.page.next q ∧ s'.page.prev q = s.page.prev q) :
    Ahead s' h lists handed c next := by
  obtain ⟨l, hl, hsum⟩ := ha.rest
  have hfree : ∀ q ∈ l ++ pagesFrom lists (c + 1), q ∉ handed := by
    intro q hq hhanded
    rw [← hsum] at hdistinct
    exact List.disjoint_of_nodup_append hdistinct hhanded hq
  refine ⟨fun c' hc hlt => ?_, fun c' hc hlt => ?_, l, ?_, hsum⟩
  · rw [hslot]
    exact ha.done c' hc hlt
  · refine (ha.todo c' hc hlt).congr (by rw [hslot]) (fun q hq => hlinks q (hfree q ?_))
    refine List.mem_append_right _ (List.mem_flatMap.mpr ⟨c', ?_, hq⟩)
    rw [List.mem_range'_1]
    omega
  · exact hl.congr (fun q hq => (hlinks q (hfree q (List.mem_append_left _ hq))).1)

/-- The next page is counted as handed over. -/
theorem Ahead.advance {p : PageId} (ha : Ahead s h lists handed c (some p)) :
    Ahead s h lists (handed ++ [p]) c (s.page.next p) := by
  obtain ⟨l, hl, hsum⟩ := ha.rest
  cases l with
  | nil => cases hl
  | cons q l =>
      obtain ⟨hp, hl⟩ := hl
      cases hp
      refine ⟨ha.done, ha.todo, l, hl, ?_⟩
      rw [List.append_assoc]
      exact hsum

/-- `heap_destroy` looks for the next class with pages. -/
theorem scanClasses_ahead {n : Nat} (hn : n = numSizeClasses - c)
    (hdone : ∀ c' < c, c' < numSizeClasses → s.slot h c' = emptyPage)
    (htodo : ∀ c' ≥ c, c' < numSizeClasses → s.ClassList h c' (lists c'))
    (hsum : handed ++ pagesFrom lists c = pagesFrom lists 0) :
    AheadAt s h lists handed (scanClasses s h n c) := by
  induction n generalizing c with
  | zero =>
      refine ⟨numSizeClasses, none, rfl, fun c' hc hlt => hdone c' (by omega) hlt,
        fun c' hc hlt => absurd hlt (by omega), [], rfl, ?_⟩
      rw [pagesFrom_end (Nat.le_succ _)]
      rw [pagesFrom_end (by omega)] at hsum
      exact hsum
  | succ n ih =>
      have hc : c < numSizeClasses := by omega
      have hlist := htodo c (Nat.le_refl c) hc
      rw [pagesFrom_cons hc] at hsum
      unfold scanClasses
      by_cases hslot : s.slot h c = emptyPage
      · rw [if_pos hslot]
        refine ih (by omega) (fun c' hc' hlt => ?_) (fun c' hc' hlt => htodo c' (by omega) hlt) ?_
        · rcases Nat.lt_succ_iff_lt_or_eq.mp hc' with hbefore | rfl
          · exact hdone c' hbefore hlt
          · exact hslot
        · have hnil : lists c = [] := by
            unfold Store.ClassList Store.classHead at hlist
            rw [if_pos hslot] at hlist
            exact (DList.toChain hlist).nil_of_none
          rw [hnil, List.nil_append] at hsum
          exact hsum
      · rw [if_neg hslot]
        refine ⟨c, some (s.slot h c), rfl, hdone, fun c' hc' hlt => htodo c' (by omega) hlt,
          lists c, ?_, hsum⟩
        have hchain := DList.toChain hlist
        rw [Store.classHead_eq hslot rfl] at hchain
        exact hchain

/-- `heap_destroy` goes on in the class or ends it. -/
theorem destroyNext_ahead (ha : Ahead s h lists handed c next)
    (hreal : emptyPage ∉ pagesFrom lists 0) :
    AheadAt (destroyNext s th h c next).1 h lists handed (destroyNext s th h c next).2.pc := by
  obtain ⟨l, hl, hsum⟩ := ha.rest
  cases next with
  | some p =>
      have hp : p ≠ emptyPage := by
        rintro rfl
        refine hreal ?_
        rw [← hsum]
        exact List.mem_append_right _ (List.mem_append_left _ (List.mem_of_head? hl.head_eq.symm))
      rw [destroyNext_page s th h c hp]
      exact ⟨c, some p, rfl, ha⟩
  | none =>
      obtain rfl := hl.nil_of_none
      refine scanClasses_ahead rfl (fun c' hc hlt => ?_) (fun c' hc hlt => ?_) hsum
      · change Function.update s.slot h (Function.update (s.slot h) c emptyPage) h c' = emptyPage
        rw [Function.update_self]
        rcases Nat.lt_succ_iff_lt_or_eq.mp hc with hbefore | rfl
        · rw [Function.update_of_ne (by omega)]
          exact ha.done c' hbefore hlt
        · rw [Function.update_self]
      · refine (ha.todo c' (by omega) hlt).congr ?_ (fun _ _ => ⟨rfl, rfl⟩)
        change Function.update s.slot h (Function.update (s.slot h) c emptyPage) h c' = s.slot h c'
        rw [Function.update_self, Function.update_of_ne (by omega)]

theorem stepAfter_ahead (hrun : stepAfter s th (.destroying c next) = some (s', th'))
    (hheap : th.heap = some h) (ha : Ahead s h lists handed c next)
    (hreal : emptyPage ∉ pagesFrom lists 0) : AheadAt s' h lists handed th'.pc := by
  simp only [stepAfter, hheap, Option.bind_eq_bind, Option.bind_some] at hrun
  have heq := Option.some.inj hrun
  have hnext : Ahead { s with central := { s.central with mtx := none } } h lists handed c next :=
    ⟨ha.done, ha.todo, ha.rest⟩
  have hat := @destroyNext_ahead _ h c th lists handed next hnext hreal
  rw [heq] at hat
  exact hat

/-- The page that `heap_destroy` hands over in this step. -/
def Pc.hands : Pc → List PageId
  | .hand _ p _ => [p]
  | _ => []

/-- The steps that the visit of the page may still take. -/
def Pc.stepsLeft : Pc → Nat
  | .unregisterSegment _ _ => 3
  | .unmapSegment _ _ => 2
  | .destroy _ _ | .unlinkHeap => 1
  | _ => 0

theorem scanClasses_stepsLeft (s : Store) (h n c : Nat) :
    (scanClasses s h n c).stepsLeft = 1 := by
  rcases scanClasses_cases s h n c with heq | ⟨c', p, heq⟩ <;> rw [heq] <;> rfl

/-- The next page has not been visited. -/
theorem stepAfter_stepsLeft (hrun : stepAfter s th (.destroying c next) = some (s', th')) :
    th'.pc.stepsLeft = 1 := by
  simp only [stepAfter, Option.bind_eq_bind, Option.bind_eq_some_iff] at hrun
  obtain ⟨k, _, hrun⟩ := hrun
  obtain ⟨slot, pc, heq, hpc⟩ := destroyNext_shape
    { s with central := { s.central with mtx := none } } th k c next
  cases heq.symm.trans (Option.some.inj hrun)
  rcases hpc with rfl | ⟨c', p, rfl⟩ <;> rfl

/-- A step of `heap_destroy` up to the unlinking of the heap. -/
theorem AheadAt.step {o : Oracle} (ha : AheadAt s h lists handed th.pc)
    (hrun : stepThread ps o s t th = some (s', th')) (hok : HeapOk s G h th.pc)
    (hheap : th.heap = some h) (hlast : th.pc ≠ .unmapHeap)
    (hdistinct : (pagesFrom lists 0).Nodup) (hreal : emptyPage ∉ pagesFrom lists 0) :
    AheadAt s' h lists (handed ++ th.pc.hands) th'.pc ∧
      1 + th'.pc.stepsLeft ≤ th.pc.stepsLeft + 4 * th.pc.hands.length := by
  obtain ⟨c, next, hpc, ha⟩ := ha
  unfold stepThread at hrun
  cases hth : th.pc with
  | destroy c' p =>
      rw [hth] at hpc
      cases hpc
      simp only [hth, stepDestroy, Option.bind_eq_bind, Option.bind_eq_some_iff] at hrun
      obtain ⟨s₁, hcollect, hrun⟩ := hrun
      cases hrun
      obtain ⟨hnext, hprev, hslot⟩ := pageCollect_links hcollect
      refine ⟨⟨c, some p, rfl, ?_⟩, Nat.le_refl 1⟩
      change Ahead _ h lists (handed ++ []) c (some p)
      rw [List.append_nil]
      exact ha.congr hdistinct (by rw [hslot]) (fun q _ => ⟨by rw [hnext], by rw [hprev]⟩)
  | hand c' p next' =>
      rw [hth] at hpc hok hrun
      cases hpc
      have hnext : s.page.next p = next' := hok.2
      have hstep := ha.advance
      rw [hnext] at hstep
      obtain ⟨s₁, hlinks, hslot, hcases⟩ := stepHand_cases hrun
      have hkept : ∀ q, q ∉ handed ++ [p] →
          s₁.page.next q = s.page.next q ∧ s₁.page.prev q = s.page.prev q := by
        intro q hq
        refine hlinks q (fun heq => hq ?_)
        rw [heq]
        exact List.mem_append_right _ (List.mem_singleton_self p)
      have hahead := hstep.congr hdistinct (congrFun hslot h) hkept
      rcases hcases with hafter | ⟨hpage, hslot', b, rfl⟩
      · refine ⟨stepAfter_ahead hafter hheap hahead hreal, ?_⟩
        rw [stepAfter_stepsLeft hafter]
        exact Nat.le_add_right 2 2
      · refine ⟨⟨c, next', rfl, hahead.congr hdistinct (congrFun hslot' h) ?_⟩, Nat.le_refl 4⟩
        intro q _
        rw [hpage]
        exact ⟨rfl, rfl⟩
  | unregisterSegment b after =>
      rw [hth] at hpc
      cases after with
      | destroying c' next' =>
          cases hpc
          simp only [hth, stepUnregisterSegment, Option.bind_eq_bind, Option.bind_eq_some_iff]
            at hrun
          obtain ⟨r, _, hrun⟩ := hrun
          cases hrun
          refine ⟨⟨c, next, rfl, ?_⟩, Nat.le_refl 3⟩
          change Ahead _ h lists (handed ++ []) c next
          rw [List.append_nil]
          exact ⟨ha.done, ha.todo, ha.rest⟩
      | freed | sweeping => cases hpc
  | unmapSegment b after =>
      rw [hth] at hpc hrun
      cases after with
      | destroying c' next' =>
          cases hpc
          have hahead : Ahead { s with os := osFree s.os b (s.seg.mmapSize b) } h lists
              (handed ++ []) c next := by
            rw [List.append_nil]
            exact ⟨ha.done, ha.todo, ha.rest⟩
          refine ⟨stepAfter_ahead hrun hheap hahead hreal, ?_⟩
          rw [stepAfter_stepsLeft hrun]
          exact Nat.le_refl 2
      | freed | sweeping => cases hpc
  | unlinkHeap =>
      rw [hth] at hpc
      cases hpc
      simp only [hth, stepUnlinkHeap, hheap, Option.bind_eq_bind, Option.bind_some] at hrun
      cases hrun
      refine ⟨⟨numSizeClasses, none, rfl, ?_⟩, Nat.le_refl 1⟩
      change Ahead _ h lists (handed ++ []) numSizeClasses none
      rw [List.append_nil]
      exact ⟨ha.done, ha.todo, ha.rest⟩
  | unmapHeap => exact absurd hth hlast
  | idle | small | linkHeap | walk | acquire | sweep | mapSegment | registerSegment | large
  | registerLarge | free | remote | release | unmapLarge =>
      rw [hth] at hpc
      cases hpc

end Destroy

section System

variable {ps : PageSize} {sys sys' : System} {G : Ghost}

/-- No step writes the sentinel. -/
theorem SysInv.sentinel_step (h : SysInv ps sys G) {l : Label} (hstep : Step ps sys l sys') :
    Untouched sys.store sys'.store emptyPage := by
  by_cases hl : ∃ t o, l = .step t o
  · obtain ⟨t, o, rfl⟩ := hl
    obtain ⟨s', th', G', hown, rfl⟩ := h.own_step hstep
    refine stepThread_untouched hown.run (fun hw => ?_)
    exact hw.ne_emptyPage h.data (h.threads t) hown.ok rfl
  · push Not at hl
    refine untouched_of_page ?_
    rw [exec_store hl hstep.2]

/-- The sentinel is as it was at first. -/
theorem Reachable.sentinel (h : Reachable ps sys) :
    sys.store.page.record emptyPage = Store.init.page.record emptyPage := by
  induction h with
  | init => rfl
  | step hreach hstep ih =>
      obtain ⟨G, hinv⟩ := hreach.inv
      exact Eq.trans (hinv.sentinel_step hstep) ih

/-- The sentinel is in no list. -/
theorem SysInv.sentinel_nowhere (h : SysInv ps sys G) (place : Place) :
    ¬ sys.Sits emptyPage place := by
  have hpage : ¬ IsPage (IsSegment sys.store.os.regions) emptyPage := fun hpg =>
    hpg.ne_emptyPage h.data.inv.regions rfl
  cases place with
  | pool b => exact fun hsits => hpage (h.sits_pool.mp hsits).1
  | abandoned => exact fun hsits => hpage (h.sits_abandoned.mp hsits).1
  | heap t c =>
      intro hsits
      obtain ⟨_, _, hpg, _⟩ := h.sits_heap.mp hsits
      exact hpage hpg

/-- The class lists of a heap in use. -/
theorem SysInv.class_list (h : SysInv ps sys G) {t k : Nat} (hhome : (sys.threads t).home = some k)
    (huse : (sys.threads t).pc.leaves = none) {c : Nat} (hc : c < numSizeClasses) :
    sys.store.ClassList k c (G.cls k c) := by
  have hlist := ((h.threads t).lists k hhome).heapList hc
  unfold HeapList at hlist
  rw [huse] at hlist
  exact hlist

/-- `heap_on_page_empty` unlinks a page that is not the head of its list. -/
theorem SysInv.release_list (h : SysInv ps sys G) {t result : Nat} {pg : PageId} {o : Oracle}
    (hpc : (sys.threads t).pc = .release pg result) (hstep : Step ps sys (.step t o) sys') :
    ∃ k c l r, (sys.threads t).heap = some k ∧ l ≠ [] ∧ sys.store.page.prev pg = l.getLast? ∧
      sys.store.ClassList k c (l ++ pg :: r) ∧ sys'.store.ClassList k c (l ++ r) := by
  obtain ⟨s', th', G', hown, rfl⟩ := h.own_step hstep
  obtain ⟨k, hk, hlists⟩ := (h.threads t).heap_at hpc rfl rfl
  obtain ⟨hserving, _, c, htail⟩ := hlists
  have hrun := hown.run
  unfold stepThread at hrun
  rw [hpc] at hrun
  have hclass := hserving.lists c
  cases hcls : G.cls k c with
  | nil =>
      rw [hcls] at htail
      cases htail
  | cons head rest =>
      rw [hcls] at htail hclass
      obtain ⟨before, after, hsplit⟩ := List.append_of_mem htail
      rw [List.tail_cons] at hsplit
      rw [hsplit] at hclass
      have hlist : sys.store.ClassList k c ((head :: before) ++ pg :: after) := hclass
      exact ⟨k, c, head :: before, after, hk, List.cons_ne_nil _ _, (DList.around hlist).1, hlist,
        stepRelease_list hrun hlist (List.cons_ne_nil _ _)⟩

/-- What `heap_destroy` has done so far: the pages it has handed over, in this
order, and the number of its steps. -/
structure Traversal where
  handed : List PageId
  steps : Nat

def Traversal.note (t : Nat) (a : Traversal) (sys : System) (l : Label) (_ : System) : Traversal :=
  match l with
  | .step u _ => if u = t then ⟨a.handed ++ (sys.threads t).pc.hands, a.steps + 1⟩ else a
  | _ => a

/-- Thread `t` is in `heap_destroy` of heap `h`. -/
structure Destroying (sys : System) (t h : Nat) (lists : Nat → List PageId) (a : Traversal) :
    Prop where
  heap : (sys.threads t).heap = some h
  at_pc : AheadAt sys.store h lists a.handed (sys.threads t).pc
  pace : a.steps + (sys.threads t).pc.stepsLeft ≤ 4 * a.handed.length + 1

theorem Pc.leaves_linked {pc : Pc} (h : pc.leaves ≠ none) : pc.unlinked = none ∧ pc ≠ .idle := by
  cases pc <;> simp_all [Pc.leaves, Pc.unlinked]

/-- The traversal goes on whatever the other threads do with the pages it has
handed over. -/
theorem Destroying.step {t h : Nat} {lists : Nat → List PageId} {a : Traversal} {l : Label}
    (hd : Destroying sys t h lists a) (hinv : SysInv ps sys G) (hstep : Step ps sys l sys')
    (hlast : (sys.threads t).pc ≠ .unmapHeap) (hdistinct : (pagesFrom lists 0).Nodup)
    (hreal : emptyPage ∉ pagesFrom lists 0) :
    Destroying sys' t h lists (Traversal.note t a sys l sys') := by
  obtain ⟨c, next, hpc, hahead⟩ := hd.at_pc
  obtain ⟨hlink, hbusy⟩ := Pc.leaves_linked (show (sys.threads t).pc.leaves ≠ none by simp [hpc])
  have hhome : (sys.threads t).home = some h := (Thread.home_of_linked hlink).trans hd.heap
  have hlists := (hinv.threads t).lists h hhome
  by_cases hl : ∃ o, l = .step t o
  · obtain ⟨o, rfl⟩ := hl
    obtain ⟨s', th', G', hown, rfl⟩ := hinv.own_step hstep
    have hthread : (sys.setThread t s' th').threads t = th' := Function.update_self ..
    obtain ⟨hat, hsteps⟩ := hd.at_pc.step hown.run hlists hd.heap hlast hdistinct hreal
    have hnote : Traversal.note t a sys (.step t o) (sys.setThread t s' th') =
        ⟨a.handed ++ (sys.threads t).pc.hands, a.steps + 1⟩ := if_pos rfl
    refine ⟨?_, ?_, ?_⟩
    · rw [hthread, (stepThread_effect hbusy hown.run).same_heap hlink hlast]
      exact hd.heap
    · rw [hthread, hnote]
      exact hat
    · rw [hthread, hnote, List.length_append]
      have hpace := hd.pace
      dsimp only
      omega
  · have hnote : Traversal.note t a sys l sys' = a := by
      cases l with
      | step u o => exact if_neg (fun heq => hl ⟨o, by rw [heq]⟩)
      | spawn | call | guardExit | finish | write | foreignMap | foreignUnmap | foreignWrite => rfl
    rcases hinv.busy hbusy hstep with ⟨o, _, _, _, heq, _⟩ | ⟨G', hby⟩
    · exact absurd ⟨o, heq⟩ hl
    · rw [hnote]
      refine ⟨hby.heap.trans hd.heap, ?_, ?_⟩
      · rw [hby.pc]
        exact ⟨c, next, hpc, hahead.same hlists hpc (hby.lists h hhome)⟩
      · rw [hby.pc]
        exact hd.pace

/-- No two entries of a heap's lists are the same page, and none is the sentinel. -/
theorem Serving.pagesFrom_nodup {s : Store} {k : Nat} {drained : Option PageId}
    (hs : Serving s G k drained) (h : Inv ps s G) :
    (pagesFrom (G.cls k) 0).Nodup ∧ emptyPage ∉ pagesFrom (G.cls k) 0 := by
  refine ⟨List.nodup_flatMap.mpr ⟨fun c _ => DList.nodup (hs.lists c), ?_⟩, fun hmem => ?_⟩
  · refine List.Pairwise.imp ?_ List.nodup_range'
    intro c c' hne pg hc hc'
    have hloc := ((h.lists.places.cls k c pg).mp hc).2
    have hloc' := ((h.lists.places.cls k c' pg).mp hc').2
    cases hloc.symm.trans hloc'
    exact hne rfl
  · obtain ⟨c, _, hc⟩ := List.mem_flatMap.mp hmem
    exact (h.own_page hc).2.2.1 rfl

/-- The traversal of `heap_destroy`, from the start of `~HeapGuard` to the
unmapping of the heap. -/
theorem Reachable.destroying {t k : Nat} {sys₁ : System} (hreach : Reachable ps sys)
    (hheap : (sys.threads t).heap = some k) (hexit : Step ps sys (.guardExit t) sys₁) :
    ∃ lists, (∀ c, sys.store.ClassList k c (lists c)) ∧ (pagesFrom lists 0).Nodup ∧
      ∀ sys' a, Onward ps (fun sys _ => (sys.threads t).pc ≠ .unmapHeap) (Traversal.note t) sys₁
        ⟨[], 0⟩ sys' a → Destroying sys' t k lists a := by
  obtain ⟨G, h⟩ := hreach.inv
  have hpc : (sys.threads t).pc = .idle := hexit.1.2.1
  have hserving : Serving sys.store G k none := by
    have hlists := (h.threads t).lists k (by rw [Thread.home, hpc]; exact hheap)
    rw [hpc] at hlists
    exact hlists
  obtain ⟨hdistinct, hreal⟩ := hserving.pagesFrom_nodup h.data.inv
  refine ⟨G.cls k, hserving.lists, hdistinct, fun sys' a hrun => ?_⟩
  have hd : Reachable ps sys' ∧ Destroying sys' t k (G.cls k) a := by
    induction hrun with
    | refl =>
        refine ⟨.step hreach hexit, ?_⟩
        have hrun := hexit.2
        rw [exec_guardExit ps sys hheap] at hrun
        cases hrun
        have hthread := Function.update_self t
          { sys.threads t with pc := scanClasses sys.store k numSizeClasses 0 } sys.threads
        refine ⟨(congrArg Thread.heap hthread).trans hheap, ?_, ?_⟩
        · refine Eq.subst (congrArg Thread.pc hthread).symm
            (motive := AheadAt sys.store k (G.cls k) []) ?_
          exact scanClasses_ahead rfl (fun c' hc => absurd hc (Nat.not_lt_zero c'))
            (fun c' _ _ => hserving.lists c') rfl
        · have hleft := (congrArg (fun th => th.pc.stepsLeft) hthread).trans
            (scanClasses_stepsLeft sys.store k numSizeClasses 0)
          exact (Nat.zero_add _).le.trans hleft.le
    | step _ hstep hlast ih =>
        obtain ⟨hreach', hd⟩ := ih
        obtain ⟨G', hinv⟩ := hreach'.inv
        exact ⟨.step hreach' hstep, hd.step hinv hstep hlast hdistinct hreal⟩
  exact hd.2

/-- When the heap is unlinked, all its pages have been handed over. -/
theorem Destroying.handed_all {t h : Nat} {lists : Nat → List PageId} {a : Traversal}
    (hd : Destroying sys t h lists a)
    (hpc : (sys.threads t).pc = .unlinkHeap ∨ (sys.threads t).pc = .unmapHeap) :
    a.handed = pagesFrom lists 0 := by
  obtain ⟨c, next, hleaves, hahead⟩ := hd.at_pc
  have hend : (sys.threads t).pc.leaves = some (numSizeClasses, none) := by
    rcases hpc with hpc | hpc <;> rw [hpc] <;> rfl
  rw [hend] at hleaves
  cases hleaves
  obtain ⟨l, hl, hsum⟩ := hahead.rest
  rw [hl.nil_of_none, pagesFrom_end (Nat.le_succ _), List.append_nil, List.append_nil] at hsum
  exact hsum

/-- The class lists of the heaps. In every reachable state the lists of a heap in
use are doubly linked lists of distinct pages without the sentinel; the sentinel
is as it was at first, is on no list and is not written by the next step; and a
page that `heap_on_page_empty` unlinks has a predecessor and leaves the rest of
its list. A fresh page is put in front, `heap_rotate_to_front` moves any page
there, and any page but the head can be unlinked. `heap_destroy` hands over each
page of the heap once, in at most four steps a page, whatever the other threads
do with the pages in the meantime. -/
theorem class_lists_well_formed (ps : PageSize) (hreach : Reachable ps sys) :
    (∀ t k, (sys.threads t).home = some k → (sys.threads t).pc.leaves = none →
      ∀ c < numSizeClasses, ∃ l, sys.store.ClassList k c l ∧ l.Nodup ∧ emptyPage ∉ l) ∧
    (sys.store.page.record emptyPage = Store.init.page.record emptyPage ∧
      sys.store.page.free emptyPage = 0 ∧ (∀ place, ¬ sys.Sits emptyPage place) ∧
      ∀ l sys', Step ps sys l sys' → Untouched sys.store sys'.store emptyPage) ∧
    (∀ t o pg result sys', (sys.threads t).pc = .release pg result →
      Step ps sys (.step t o) sys' → sys.store.page.prev pg ≠ none ∧
      ∃ k c l r, (sys.threads t).heap = some k ∧ sys.store.ClassList k c (l ++ pg :: r) ∧
        sys'.store.ClassList k c (l ++ r)) ∧
    (∀ (s : Store) (k c : Nat) (l r : List PageId) (pg : PageId), pg ≠ emptyPage →
      (s.ClassList k c l → pg ∉ l → (linkFresh s k c pg).ClassList k c (pg :: l) ∧
        Relinked s (linkFresh s k c pg) k c (pg :: l)) ∧
      (s.ClassList k c (l ++ pg :: r) →
        (heapRotateToFront s k c pg).ClassList k c (pg :: (l ++ r)) ∧
        Relinked s (heapRotateToFront s k c pg) k c (l ++ pg :: r)) ∧
      (s.ClassList k c (l ++ pg :: r) → l ≠ [] → ∃ s', unlinkEmpty s pg = some s' ∧
        s'.ClassList k c (l ++ r) ∧ Relinked s s' k c (l ++ pg :: r))) ∧
    ∀ t k sys₁, (sys.threads t).heap = some k → Step ps sys (.guardExit t) sys₁ →
      ∃ lists, (∀ c, sys.store.ClassList k c (lists c)) ∧ (pagesFrom lists 0).Nodup ∧
        ∀ sys' a, Onward ps (fun sys _ => (sys.threads t).pc ≠ .unmapHeap) (Traversal.note t) sys₁
          ⟨[], 0⟩ sys' a →
          AheadAt sys'.store k lists a.handed (sys'.threads t).pc ∧
          a.handed <+: pagesFrom lists 0 ∧ a.steps ≤ 4 * a.handed.length + 1 ∧
          ((sys'.threads t).pc = .unlinkHeap → a.handed = pagesFrom lists 0) := by
  obtain ⟨G, hinv⟩ := hreach.inv
  refine ⟨?_, ⟨hreach.sentinel, hinv.data.inv.sentinel, hinv.sentinel_nowhere,
    fun l sys' hstep => hinv.sentinel_step hstep⟩, ?_, ?_, ?_⟩
  · intro t k hhome huse c hc
    have hlist := hinv.class_list hhome huse hc
    exact ⟨G.cls k c, hlist, DList.nodup hlist,
      fun hmem => (hinv.data.inv.own_page hmem).2.2.1 rfl⟩
  · intro t o pg result sys' hpc hstep
    obtain ⟨k, c, l, r, hk, hl, hprev, hbefore, hafter⟩ := hinv.release_list hpc hstep
    refine ⟨?_, k, c, l, r, hk, hbefore, hafter⟩
    rw [hprev]
    exact fun hnone => hl (List.getLast?_eq_none_iff.mp hnone)
  · intro s k c l r pg hpg
    exact ⟨fun hl hmem => linkFresh_spec hl hpg hmem, fun hl => heapRotateToFront_spec hl hpg,
      fun hl hne => unlinkEmpty_spec hl hne⟩
  · intro t k sys₁ hheap hexit
    obtain ⟨lists, hlists, hdistinct, hruns⟩ := hreach.destroying hheap hexit
    refine ⟨lists, hlists, hdistinct, fun sys' a hrun => ?_⟩
    have hd := hruns sys' a hrun
    obtain ⟨c, next, _, hahead⟩ := hd.at_pc
    obtain ⟨l, _, hsum⟩ := hahead.rest
    refine ⟨hd.at_pc, ⟨_, hsum⟩, ?_, fun hpc => hd.handed_all (Or.inl hpc)⟩
    have hpace := hd.pace
    omega

/-- A thread with one page exits: the page is handed over and the heap unlinked. -/
theorem class_lists_well_formed_exit : ∃ sys k sys₁ sys' a lists, Reachable page4k sys ∧
    (sys.threads 0).heap = some k ∧ sys.store.ClassList k 0 (lists 0) ∧
    Step page4k sys (.guardExit 0) sys₁ ∧
    Onward page4k (fun sys _ => (sys.threads 0).pc ≠ .unmapHeap) (Traversal.note 0) sys₁ ⟨[], 0⟩
      sys' a ∧ a.handed = [⟨2 ^ 43, 63⟩] ∧ pagesFrom lists 0 = [⟨2 ^ 43, 63⟩] := by
  have hrun : ((schedule page4k (fun _ _ => true) (fun _ _ _ _ => ()) (firstMalloc 0 16)
      (World.init ())).any fun w => (w.sys.threads 0).heap.isSome &&
        Act.ready page4k w (.guardExit 0) && (exec page4k w.sys (.guardExit 0)).any fun sys₁ =>
          (schedule page4k (fun w _ => decide ((w.sys.threads 0).pc ≠ .unmapHeap))
            (Traversal.note 0) [.step 0 false, .step 0 false] ⟨sys₁, w.top + stride, ⟨[], 0⟩⟩).any
              fun w' => decide ((w'.sys.threads 0).pc = .unlinkHeap) &&
                w'.log.handed == [⟨2 ^ 43, 63⟩]) = true := by
    decide +kernel
  simp only [Option.any_eq_true, Bool.and_eq_true, beq_iff_eq, decide_eq_true_eq,
    Option.isSome_iff_exists] at hrun
  obtain ⟨w, hfirst, ⟨⟨k, hheap⟩, hready⟩, sys₁, hexec, w', hsteps, hpc, hhanded⟩ := hrun
  obtain ⟨hb, hreach⟩ := schedule_induct (R := fun w => Reachable page4k w.sys)
    (fun _ _ _ _ h _ hstep => .step h hstep) (fun x hx => by cases hx) .init hfirst
  obtain ⟨hexit, hb₁⟩ := Act.step_of_ready hb hready hexec
  obtain ⟨_, hon⟩ := schedule_induct
    (R := fun w' => Onward page4k (fun sys _ => (sys.threads 0).pc ≠ .unmapHeap)
      (Traversal.note 0) sys₁ ⟨[], 0⟩ w'.sys w'.log)
    (fun _ _ _ _ h hok hstep => .step h hstep (of_decide_eq_true hok)) hb₁ .refl hsteps
  obtain ⟨lists, hlists, _, hruns⟩ := (class_lists_well_formed page4k hreach).2.2.2.2 0 k sys₁ hheap
    hexit
  obtain ⟨_, _, _, hall⟩ := hruns w'.sys w'.log hon
  exact ⟨w.sys, k, sys₁, w'.sys, w'.log, lists, hreach, hheap, hlists 0, hexit, hon, hhanded,
    (hall hpc).symm.trans hhanded⟩

end System

end HMalloc
