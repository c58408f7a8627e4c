import HMalloc.Agreement
import HMalloc.ClassLists

/-!
The end of a thread. `HeapGuard`'s destructor runs `heap_destroy` once: every page
of the heap goes back to the pool or to the abandoned list, and the heap leaves
the registry. The heap of a thread is made by whichever allocation comes first,
also by one of a destructor that runs after the guard's, and such a heap outlives
its thread.
-/

namespace HMalloc

open Bytes Linked Handover

/-- The page an event is about. -/
def PageEvent.page : PageEvent → PageId
  | .take pg | .release pg | .abandon pg => pg

/-- An event, with the blocks that `used` counts at that time. -/
structure PageEntry where
  event : PageEvent
  used : Nat
  deriving DecidableEq

/-- What every thread has done with pages so far, the latest first. -/
def PageLog : Type := Nat → List PageEntry

def PageLog.start : PageLog := fun _ => []

def PageLog.note (log : PageLog) (sys : System) (l : Label) (_ : System) : PageLog :=
  match l with
  | .step t _ =>
      match (sys.threads t).pageEvent sys.store with
      | some e => Function.update log t (⟨e, sys.store.page.used e.page⟩ :: log t)
      | none => log
  | _ => log

/-- The page is taken and given away in turn: released when no block of it is in
use, and abandoned otherwise. The flag tells whether it is held at the end. -/
inductive Rounds (pg : PageId) : List PageEntry → Bool → Prop where
  | nil : Rounds pg [] false
  | take {log : List PageEntry} {n : Nat} (h : Rounds pg log false) :
      Rounds pg (⟨.take pg, n⟩ :: log) true
  | release {log : List PageEntry} (h : Rounds pg log true) :
      Rounds pg (⟨.release pg, 0⟩ :: log) false
  | abandon {log : List PageEntry} {n : Nat} (h : Rounds pg log true) (hn : n ≠ 0) :
      Rounds pg (⟨.abandon pg, n⟩ :: log) false
  | other {log : List PageEntry} {held : Bool} {e : PageEntry} (h : Rounds pg log held)
      (he : e.event.page ≠ pg) : Rounds pg (e :: log) held

/-- A heap that thread `t` has created owns the page. -/
def Store.Owns (s : Store) (t : Nat) (pg : PageId) : Prop :=
  ∃ k size, s.page.owner pg = .heap k ∧ s.os.regions k = some ⟨size, .heap t⟩

/-- Only usable pages of mapped segments have an owner. -/
def OwnersListed (s : Store) : Prop :=
  ∀ pg, s.page.owner pg ≠ .null → IsPage (IsSegment s.os.regions) pg

/-- What a step of a thread does with one page. -/
inductive Passing (s : Store) (th : Thread) (s' : Store) (pg : PageId) : Prop where
  | take {k : Nat} (hheap : th.heap = some k) (hevent : th.pageEvent s = some (.take pg))
      (hold : s.page.owner pg = .null) (hnew : s'.page.owner pg = .heap k)
  | release {k : Nat} (hheap : th.heap = some k) (hevent : th.pageEvent s = some (.release pg))
      (hused : s.page.used pg = 0) (hold : s.page.owner pg = .heap k)
      (hnew : s'.page.owner pg = .null)
  | abandon {k : Nat} (hheap : th.heap = some k) (hevent : th.pageEvent s = some (.abandon pg))
      (hused : s.page.used pg ≠ 0) (hold : s.page.owner pg = .heap k)
      (hnew : s'.page.owner pg = .abandoned)
  | rest (hevent : ∀ e, th.pageEvent s = some e → e.page ≠ pg)
      (hsame : ∀ k, s'.page.owner pg = .heap k ↔ s.page.owner pg = .heap k)

section Steps

variable {ps : PageSize} {o : Oracle} {s s' : Store} {G : Ghost} {t : Nat} {th th' : Thread}
  {pg : PageId}

/-- The owner of a page in a class list. -/
theorem Consistent.owner_of_cls (hc : Consistent ps s G) {k c : Nat} (hmem : pg ∈ G.cls k c) :
    IsPage (IsSegment s.os.regions) pg ∧ s.page.owner pg = .heap k := by
  obtain ⟨hpg, hloc⟩ := (hc.inv.lists.places.cls k c pg).mp hmem
  refine ⟨hpg, ?_⟩
  rw [hc.inv.owner_eq hc.limbo hpg, hloc]
  rfl

/-- A page that a heap owns is in one of its class lists. -/
theorem Consistent.cls_of_owner (hc : Consistent ps s G) (hpg : IsPage (IsSegment s.os.regions) pg)
    {k : Nat} (howner : s.page.owner pg = .heap k) : ∃ c, pg ∈ G.cls k c := by
  rw [hc.inv.owner_eq hc.limbo hpg] at howner
  cases hloc : (G.page pg).loc with
  | held a c =>
      rw [hloc] at howner
      cases howner
      exact ⟨c, (hc.inv.lists.places.cls k c pg).mpr ⟨hpg, hloc⟩⟩
  | pool | abandoned | limbo =>
      rw [hloc] at howner
      cases howner

/-- A page that a thread gives away is in a class list of its heap, and it is
released if no block of it is in use. -/
theorem ThreadOk.gives (h : ThreadOk ps s G t th) {e : PageEvent} (hevent : th.pageEvent s = some e)
    (htake : e ≠ .take e.page) :
    ∃ k c, th.heap = some k ∧ e.page ∈ G.cls k c ∧
      (e = .release e.page ∧ s.page.used e.page = 0 ∨
        e = .abandon e.page ∧ s.page.used e.page ≠ 0) := by
  have hfresh : ∀ x : Option PageId, x.map PageEvent.take ≠ some e := by
    intro x hx
    obtain ⟨q, _, rfl⟩ := Option.map_eq_some_iff.mp hx
    exact htake rfl
  unfold Thread.pageEvent at hevent
  cases hpc : th.pc with
  | acquire | registerSegment =>
      rw [hpc] at hevent
      exact absurd hevent (hfresh _)
  | sweep q c cur =>
      rw [hpc] at hevent
      dsimp only at hevent
      split at hevent
      · exact absurd hevent (hfresh _)
      · cases hevent
  | release pg result =>
      obtain ⟨k, hk, hlists⟩ := h.heap_at hpc rfl rfl
      rw [hpc] at hevent
      cases hevent
      obtain ⟨_, hused, c, hmem⟩ := hlists
      exact ⟨k, c, hk, List.mem_of_mem_tail hmem, Or.inl ⟨rfl, hused⟩⟩
  | hand c pg next =>
      obtain ⟨k, hk, hlists⟩ := h.heap_at hpc rfl rfl
      rw [hpc] at hevent
      have hmem : pg ∈ G.cls k c := List.mem_of_head? hlists.1.list.head_eq.symm
      dsimp only at hevent
      split at hevent
      · rename_i hused
        cases hevent
        exact ⟨k, c, hk, hmem, Or.inl ⟨rfl, hused⟩⟩
      · rename_i hused
        cases hevent
        exact ⟨k, c, hk, hmem, Or.inr ⟨rfl, hused⟩⟩
  | idle | small | linkHeap | walk | mapSegment | unregisterSegment | unmapSegment | large
  | registerLarge | free | remote | unmapLarge | destroy | unlinkHeap | unmapHeap =>
      rw [hpc] at hevent
      cases hevent

theorem Keeping.passing (hc : Consistent ps s G) (h : ThreadOk ps s G t th)
    (hok : StepOk ps o s th) (hlisted : OwnersListed s) (hkeep : Keeping ps o s th s')
    (pg : PageId) : Passing s th s' pg := by
  cases hkeep with
  | same hevent hsame =>
      refine .rest (fun e he => by rw [hevent] at he; cases he) (fun k => ?_)
      rw [hsame]
  | @take q k hevent hfresh hheap hown =>
      by_cases hq : pg = q
      · subst hq
        obtain ⟨hpg, hloc⟩ := hc.inv.freshPage hfresh
        refine .take hheap hevent ?_ (by rw [hown, Function.update_self])
        rw [hc.inv.owner_eq hc.limbo hpg, hloc]
        rfl
      · refine .rest (fun e he => ?_) (fun k => ?_)
        · rw [hevent] at he
          cases he
          exact Ne.symm hq
        · rw [hown, Function.update_of_ne hq]
  | @release q hevent hown =>
      obtain ⟨k, c, hheap, hmem, hgive⟩ := h.gives hevent (by simp [PageEvent.page])
      by_cases hq : pg = q
      · subst hq
        refine .release hheap hevent ?_ (hc.owner_of_cls hmem).2
          (by rw [hown, Function.update_self])
        rcases hgive with ⟨_, hused⟩ | ⟨hne, _⟩
        · exact hused
        · cases hne
      · refine .rest (fun e he => ?_) (fun k => ?_)
        · rw [hevent] at he
          cases he
          exact Ne.symm hq
        · rw [hown, Function.update_of_ne hq]
  | @abandon q hevent hown =>
      obtain ⟨k, c, hheap, hmem, hgive⟩ := h.gives hevent (by simp [PageEvent.page])
      by_cases hq : pg = q
      · subst hq
        refine .abandon hheap hevent ?_ (hc.owner_of_cls hmem).2
          (by rw [hown, Function.update_self])
        rcases hgive with ⟨hne, _⟩ | ⟨_, hused⟩
        · cases hne
        · exact hused
      · refine .rest (fun e he => ?_) (fun k => ?_)
        · rw [hevent] at he
          cases he
          exact Ne.symm hq
        · rw [hown, Function.update_of_ne hq]
  | @reclaim q c cur p hevent hpc hread hown =>
      refine .rest (fun e he => by rw [hevent] at he; cases he) (fun k => ?_)
      rw [hown]
      by_cases hq : pg = p
      · subst hq
        have hcur : CursorOk G cur := by
          have hlock := h.lock_at hpc
          exact hlock.2
        obtain ⟨l, r, hsplit, _⟩ := hc.inv.cursor_split hcur hread
        obtain ⟨hpg, hloc⟩ := (hc.inv.lists.places.abandoned pg).mp (by simp [hsplit])
        rw [Function.update_self, hc.inv.owner_eq hc.limbo hpg, hloc]
        simp [Loc.owner]
      · rw [Function.update_of_ne hq]
  | @clear q c b os hevent hpc hmap hown =>
      refine .rest (fun e he => by rw [hevent] at he; cases he) (fun k => ?_)
      rw [hown]
      dsimp only
      split
      · rename_i hseg
        refine ⟨(fun hnull => by cases hnull), fun howner => ?_⟩
        have hk : KernelOk ps o.mapping s.os segmentSize segmentSize := by
          unfold StepOk at hok
          rw [hpc] at hok
          exact hok
        have hm := osAllocAligned_mapped hk (by decide) (by decide) hmap
        have hpg := hlisted pg (by simp [howner])
        have hfresh := hm.unmapped_before hc.inv.regions
        rw [← hseg] at hfresh
        exact absurd (hpg.1.symm.trans hfresh) (by simp)
      · exact Iff.rfl

/-- The owner of a page is a heap that is mapped. -/
theorem Consistent.owner_mapped (hc : Consistent ps s G) (hlisted : OwnersListed s) {k : Nat}
    (howner : s.page.owner pg = .heap k) : ∃ t size, s.os.regions k = some ⟨size, .heap t⟩ := by
  obtain ⟨c, hmem⟩ := hc.cls_of_owner (hlisted pg (by simp [howner])) howner
  exact hc.homes k c (List.ne_nil_of_mem hmem)

/-- No step turns one region into another. -/
theorem Booking.region_old (hb : Booking ps o s t th s' th') (hinv : Inv ps s G) {a : Nat}
    {r : Region} (hr : r.purpose ≠ .table) (ha : s'.os.regions a = some r) :
    s.os.regions a = some r ∨ s.os.regions a = none := by
  cases hb with
  | rest _ hq =>
      rw [hq.regions] at ha
      exact Or.inl ha
  | @create b size _ purpose _ _ _ _ _ _ _ _ _ _ hm _ hq =>
      have hold : Function.update s.os.regions b (some ⟨size, purpose⟩) a = some r := by
        rw [← hm.regions, ← ha, hq.regions]
      by_cases hab : a = b
      · rw [hab]
        exact Or.inr (hm.unmapped_before hinv.regions)
      · rw [Function.update_of_ne hab] at hold
        exact Or.inl hold
  | enterRegion _ _ _ _ _ _ hreg hok hq =>
      obtain ⟨hstep, _⟩ := storeRegister_tables hreg hok hinv.regions hinv.table
      rw [hq.regions] at ha
      exact Or.inl ((hstep.keep hinv.regions a r hr).mp ha)
  | enterHeap | strikeSegment | strikeLarge | strikeHeap => exact Or.inl ha
  | @destroy b _ _ _ _ _ _ _ hb _ _ hq =>
      obtain ⟨_, hregions, _⟩ := osFree_region hinv.regions hb
      have hold : Function.update s.os.regions b none a = some r := by
        rw [← hregions, ← ha, hq.regions]
      exact Or.inl (PartialMap.erase_eq_some.mp hold).2

/-- A segment stays mapped, but for one that the thread unmaps. -/
theorem Booking.segment_kept (hb : Booking ps o s t th s' th') (hinv : Inv ps s G) {a : Nat}
    (ha : IsSegment s.os.regions a) : IsSegment s'.os.regions a ∨ th.transit = some a := by
  unfold IsSegment at ha ⊢
  cases hb with
  | rest _ hq =>
      rw [hq.regions]
      exact Or.inl ha
  | @create b _ _ _ _ _ _ _ _ _ _ _ _ _ hm _ hq =>
      have hab : a ≠ b := by
        rintro rfl
        cases ha.symm.trans (hm.unmapped_before hinv.regions)
      rw [hq.regions]
      dsimp only
      rw [hm.regions, Function.update_of_ne hab]
      exact Or.inl ha
  | enterRegion _ _ _ _ _ _ hreg hok hq =>
      obtain ⟨hstep, _⟩ := storeRegister_tables hreg hok hinv.regions hinv.table
      rw [hq.regions]
      exact Or.inl ((hstep.segments hinv.regions a).mpr ha)
  | enterHeap | strikeSegment | strikeLarge | strikeHeap => exact Or.inl ha
  | @destroy b _ _ _ _ ht _ _ hb _ _ hq =>
      obtain ⟨_, hregions, _⟩ := osFree_region hinv.regions hb
      by_cases hab : a = b
      · rw [hab]
        exact Or.inr ht
      · rw [hq.regions]
        dsimp only
        rw [hregions, Function.update_of_ne hab]
        exact Or.inl ha

/-- All pages of a segment that is about to be unmapped are in the pool. -/
theorem ThreadOk.leaving_pages (h : ThreadOk ps s G t th) (hc : Consistent ps s G)
    (hpg : IsPage (IsSegment s.os.regions) pg) (ht : th.transit = some pg.seg) :
    s.page.owner pg = .null := by
  cases h.holding hc.inv ht with
  | heap hb | large hb => cases congrArg Region.purpose (Option.some.inj (hpg.1.symm.trans hb))
  | segment hb _ hidle =>
      have hpool := hc.inv.lists.places.mem_full_pool hb (hc.inv.pool_nodup hb) hidle hpg rfl
      rw [hc.inv.owner_eq hc.limbo hpg, ((hc.inv.lists.places.pool _ pg).mp hpool).2.2]
      rfl

/-- A page with an owner after a step is one that was there before. -/
theorem Keeping.listed (hkeep : Keeping ps o s th s') (hc : Consistent ps s G)
    (h : ThreadOk ps s G t th) (hlisted : OwnersListed s) (howner : s'.page.owner pg ≠ .null) :
    IsPage (IsSegment s.os.regions) pg ∧
      (s.page.owner pg ≠ .null ∨ th.pageEvent s = some (.take pg)) := by
  have hold : s.page.owner pg ≠ .null → IsPage (IsSegment s.os.regions) pg ∧
      (s.page.owner pg ≠ .null ∨ th.pageEvent s = some (.take pg)) :=
    fun hne => ⟨hlisted pg hne, Or.inl hne⟩
  cases hkeep with
  | same _ hsame =>
      rw [hsame] at howner
      exact hold howner
  | @take q k hevent hfresh _ hown =>
      by_cases hq : pg = q
      · rw [hq]
        exact ⟨(hc.inv.freshPage hfresh).1, Or.inr hevent⟩
      · rw [hown, Function.update_of_ne hq] at howner
        exact hold howner
  | @release q _ hown | @reclaim _ _ _ q _ _ _ hown =>
      by_cases hq : pg = q
      · rw [hq, hown, Function.update_self] at howner
        exact absurd rfl howner
      · rw [hown, Function.update_of_ne hq] at howner
        exact hold howner
  | @abandon q hevent hown =>
      obtain ⟨k, c, _, hmem, _⟩ := h.gives hevent (by simp [PageEvent.page])
      by_cases hq : pg = q
      · obtain ⟨_, hheap⟩ := hc.owner_of_cls hmem
        refine hold ?_
        rw [hq]
        exact fun hnull => by cases hheap.symm.trans hnull
      · rw [hown, Function.update_of_ne hq] at howner
        exact hold howner
  | @clear _ _ b _ _ _ _ hown =>
      rw [hown] at howner
      dsimp only at howner
      split at howner
      · exact absurd rfl howner
      · exact hold howner

/-- A step that unmaps a segment takes no page. -/
theorem Effect.segment_kept (heff : Effect ps o s t th s' th') (hc : Consistent ps s G)
    (h : ThreadOk ps s G t th) (hok : StepOk ps o s th) {a : Nat} (ha : IsSegment s.os.regions a) :
    IsSegment s'.os.regions a ∨ th.transit = some a ∧ th.pageEvent s = none := by
  rcases (heff.booking hc h hok).segment_kept hc.inv ha with hkept | htransit
  · exact Or.inl hkept
  · cases heff with
    | quiet hplain =>
        rw [hplain.transit] at htransit
        cases htransit
    | registerSegment hpc hreg hq =>
        unfold StepOk at hok
        rw [hpc] at hok
        obtain ⟨hstep, _⟩ := storeRegister_tables hreg (hok _ _ hreg) hc.inv.regions hc.inv.table
        unfold IsSegment
        rw [hq.regions]
        exact Or.inl ((hstep.segments hc.inv.regions a).mpr ha)
    | mapHeap hpc | linkHeap hpc | mapSegment hpc | unregisterSegment hpc | unmapSegment hpc
    | mapLarge hpc | registerLarge hpc | dropLarge hpc | unmapLarge hpc | unlinkHeap hpc
    | unmapHeap hpc =>
        refine Or.inr ⟨htransit, ?_⟩
        unfold Thread.pageEvent
        rw [hpc]

theorem OwnersListed.step (hlisted : OwnersListed s) (hc : Consistent ps s G)
    (h : ThreadOk ps s G t th) (hok : StepOk ps o s th) (hkeep : Keeping ps o s th s')
    (heff : Effect ps o s t th s' th') : OwnersListed s' := by
  intro pg howner
  obtain ⟨hpg, hcase⟩ := hkeep.listed hc h hlisted howner
  rcases heff.segment_kept hc h hok hpg.1 with hseg | ⟨htransit, hevent⟩
  · exact ⟨hseg, hpg.2⟩
  · rcases hcase with hne | htake
    · exact absurd (h.leaving_pages hc hpg htransit) hne
    · cases hevent.symm.trans htake

end Steps

section Runs

variable {ps : PageSize} {sys sys' : System} {G : Ghost} {l : Label} {log : PageLog}

/-- The heaps of the threads are not written by the clients and other allocators. -/
theorem Change.outside {G' : Ghost} (h : Change ps sys G l sys' G') (hl : ∀ t o, l ≠ .step t o) :
    ∀ a r, r.purpose ≠ .foreign →
      (sys'.store.os.regions a = some r ↔ sys.store.os.regions a = some r) := by
  cases h with
  | @thread t o => exact absurd rfl (hl t o)
  | client _ hq =>
      intro a r _
      rw [show (sys.setThread _ _ _).store.os.regions = sys.store.os.regions from hq.regions]
  | world hw => exact hw.regions

/-- No thread gets a heap after the destructor of its `HeapGuard` has run. -/
def NoHeapAfterGuard (sys : System) : Label → Prop
  | .step t _ => (sys.threads t).guardDone = true → (sys.threads t).pc.unlinked = none
  | _ => True

/-- The heap of a thread lives under its guard. -/
structure Guarded (th : Thread) : Prop where
  made : th.heap ≠ none → th.guardMade = true
  done : th.guardDone = true → th.heap = none
  ended : th.status = .ended → th.pc = .idle ∧ (th.guardMade = true → th.guardDone = true)

/-- A thread that has ended has no heap. -/
theorem Guarded.home_ended {th : Thread} (h : Guarded th) (hended : th.status = .ended) :
    th.home = none := by
  obtain ⟨hpc, hguard⟩ := h.ended hended
  have hheap : th.heap = none := by
    by_contra hne
    exact hne (h.done (hguard (h.made hne)))
  rw [Thread.home, hpc, hheap]
  rfl

/-- The fields that only creation and destruction of the heap write. -/
theorem Guarded.congr {th th' : Thread} (h : Guarded th) (hheap : th'.heap = th.heap)
    (hmade : th'.guardMade = th.guardMade) (hdone : th'.guardDone = th.guardDone)
    (hstatus : th'.status = .ended → th.status = .ended ∧ th'.pc = th.pc) : Guarded th' where
  made := by
    rw [hheap, hmade]
    exact h.made
  done := by
    rw [hheap, hdone]
    exact h.done
  ended := by
    intro hended
    obtain ⟨hold, hpc⟩ := hstatus hended
    rw [hpc, hmade, hdone]
    exact h.ended hold

/-- A step of a thread inside a call. -/
theorem Guarded.step {o : Oracle} {s s' : Store} {t : Nat} {th th' : Thread} (h : Guarded th)
    (hbusy : th.pc ≠ .idle) (heff : Effect ps o s t th s' th')
    (hlast : th.guardDone = true → th.pc.unlinked = none) : Guarded th' := by
  have hrunning : th.status ≠ .ended := fun hended => hbusy (h.ended hended).1
  have hsettles : ∀ {th' : Thread}, Settles th th' → Guarded th' := by
    intro th' hs
    rw [hs.same]
    exact h.congr rfl rfl rfl (fun hended => absurd hended hrunning)
  cases heff with
  | quiet _ _ hs => exact hsettles hs
  | registerSegment _ _ _ hs => exact hsettles hs
  | unmapSegment _ _ hs => exact hsettles hs
  | registerLarge _ _ _ hs => exact hsettles hs
  | unmapLarge _ _ hs => exact hsettles hs
  | linkHeap hpc =>
      refine ⟨fun _ => rfl, fun hdone => ?_, fun hended => absurd hended hrunning⟩
      have hlinked := hlast hdone
      rw [hpc] at hlinked
      cases hlinked
  | unmapHeap hpc =>
      exact ⟨fun hne => absurd rfl hne, fun _ => rfl, fun hended => absurd hended hrunning⟩
  | mapHeap | mapSegment | unregisterSegment | mapLarge | dropLarge | unlinkHeap =>
      exact h.congr rfl rfl rfl (fun hended => absurd hended hrunning)

/-- A step of the system. -/
theorem Guarded.all (h : ∀ t, Guarded (sys.threads t)) (hstep : Step ps sys l sys')
    (hl : NoHeapAfterGuard sys l) : ∀ t, Guarded (sys'.threads t) := by
  have hset : ∀ u s {th' : Thread}, Guarded th' →
      ∀ t, Guarded ((sys.setThread u s th').threads t) := by
    intro u s th' hth' t
    by_cases htu : t = u
    · rw [htu, show (sys.setThread u s th').threads u = th' from Function.update_self ..]
      exact hth'
    · rw [show (sys.setThread u s th').threads t = sys.threads t from Function.update_of_ne htu ..]
      exact h t
  obtain ⟨hok, hrun⟩ := hstep
  cases l with
  | spawn u =>
      cases hrun
      exact hset u _ ((h u).congr rfl rfl rfl (fun hended => by cases hended))
  | call u call =>
      rw [exec_call] at hrun
      cases hrun
      refine hset u _ ?_
      have hrunning : (sys.threads u).status ≠ .ended := by
        rw [hok.1]
        simp
      cases enter ps sys.store call <;>
        exact (h u).congr rfl rfl rfl (fun hended => absurd hended hrunning)
  | step u o =>
      obtain ⟨s', th', hthread, rfl⟩ := exec_step hrun
      have hbusy := StepOk.busy hok
      exact hset u _ ((h u).step hbusy (stepThread_effect hbusy hthread) hl)
  | guardExit u =>
      have hrunning : (sys.threads u).status ≠ .ended := by
        rw [hok.1]
        simp
      cases hheap : (sys.threads u).heap with
      | none =>
          simp only [exec, hheap] at hrun
          cases hrun
          refine hset u _ ⟨fun hne => absurd rfl hne, fun _ => rfl, fun hended => ?_⟩
          exact absurd hended hrunning
      | some k =>
          rw [exec_guardExit ps sys hheap] at hrun
          cases hrun
          exact hset u _ ((h u).congr rfl rfl rfl (fun hended => absurd hended hrunning))
  | finish u =>
      cases hrun
      exact hset u _ ⟨(h u).made, (h u).done, fun _ => hok.2⟩
  | write | foreignMap | foreignUnmap | foreignWrite =>
      cases hrun
      exact h

/-- The owner of a page is the heap of one thread. -/
theorem Store.Owns.unique {s : Store} {t u : Nat} {pg : PageId} (h : s.Owns t pg)
    (h' : s.Owns u pg) : t = u := by
  obtain ⟨k, size, howner, hregion⟩ := h
  obtain ⟨k', size', howner', hregion'⟩ := h'
  cases howner.symm.trans howner'
  cases hregion.symm.trans hregion'
  rfl

theorem Store.Owns.owner_ne {s : Store} {t : Nat} {pg : PageId} (h : s.Owns t pg) :
    s.page.owner pg ≠ .null ∧ s.page.owner pg ≠ .abandoned := by
  obtain ⟨k, _, howner, _⟩ := h
  rw [howner]
  simp

/-- Whose heap owns the page before and after a step of thread `u`. -/
inductive HolderStep (s : Store) (u : Nat) (th : Thread) (s' : Store) (pg : PageId) : Prop where
  | take (hevent : th.pageEvent s = some (.take pg)) (hold : ∀ t, ¬ s.Owns t pg)
      (hnew : ∀ t, s'.Owns t pg ↔ t = u)
  | release (hevent : th.pageEvent s = some (.release pg)) (hused : s.page.used pg = 0)
      (hold : ∀ t, s.Owns t pg ↔ t = u) (hnew : ∀ t, ¬ s'.Owns t pg)
  | abandon (hevent : th.pageEvent s = some (.abandon pg)) (hused : s.page.used pg ≠ 0)
      (hold : ∀ t, s.Owns t pg ↔ t = u) (hnew : ∀ t, ¬ s'.Owns t pg)
  | rest (hevent : ∀ e, th.pageEvent s = some e → e.page ≠ pg)
      (hsame : ∀ t, s'.Owns t pg ↔ s.Owns t pg)

theorem Passing.holderStep {o : Oracle} {s s' : Store} {G' : Ghost} {u : Nat} {th th' : Thread}
    {pg : PageId} (hpass : Passing s th s' pg) (hc : Consistent ps s G)
    (h : ThreadOk ps s G u th) (hlisted : OwnersListed s) (hb : Booking ps o s u th s' th')
    (hc' : Consistent ps s' G') (hlisted' : OwnersListed s') : HolderStep s u th s' pg := by
  have hregion : ∀ {k}, th.heap = some k → s.os.regions k = some ⟨heapBytes ps, .heap u⟩ := by
    intro k hk
    refine h.region ?_ hk
    by_contra hne
    rw [h.unlinked hne] at hk
    cases hk
  have howns : ∀ {k t}, th.heap = some k → s.page.owner pg = .heap k → (s.Owns t pg ↔ t = u) := by
    intro k t hk howner
    have hu : s.Owns u pg := ⟨k, _, howner, hregion hk⟩
    exact ⟨fun ht => ht.unique hu, fun heq => heq ▸ hu⟩
  -- A region that a page names as its owner is the same before and after.
  have hkept : ∀ {k t}, s'.page.owner pg = .heap k → s.os.regions k ≠ none →
      ((∃ size, s'.os.regions k = some ⟨size, .heap t⟩) ↔
        ∃ size, s.os.regions k = some ⟨size, .heap t⟩) := by
    intro k t howner hmapped
    obtain ⟨t', size', hnew⟩ := hc'.owner_mapped hlisted' howner
    have hold := (hb.region_old hc.inv (by simp) hnew).resolve_right hmapped
    rw [hnew, hold]
  cases hpass with
  | @take k hheap hevent hold hnew =>
      refine .take hevent (fun t ht => ht.owner_ne.1 hold) (fun t => ?_)
      have hk := hregion hheap
      have hsame : (∃ size, s'.os.regions k = some ⟨size, .heap t⟩) ↔
          ∃ size, s.os.regions k = some ⟨size, .heap t⟩ := hkept hnew (by simp [hk])
      constructor
      · rintro ⟨k', size, howner, hreg⟩
        cases hnew.symm.trans howner
        obtain ⟨size', hold⟩ := hsame.mp ⟨size, hreg⟩
        cases hk.symm.trans hold
        rfl
      · rintro rfl
        obtain ⟨size, hreg⟩ := hsame.mpr ⟨_, hk⟩
        exact ⟨k, size, hnew, hreg⟩
  | release hheap hevent hused hold hnew =>
      exact .release hevent hused (fun t => howns hheap hold) (fun t ht => ht.owner_ne.1 hnew)
  | abandon hheap hevent hused hold hnew =>
      exact .abandon hevent hused (fun t => howns hheap hold) (fun t ht => ht.owner_ne.2 hnew)
  | rest hevent hsame =>
      refine .rest hevent (fun t => ?_)
      constructor
      · rintro ⟨k, size, howner, hreg⟩
        obtain ⟨t', size', hmapped⟩ := hc.owner_mapped hlisted ((hsame k).mp howner)
        obtain ⟨size'', hold⟩ := (hkept howner (by simp [hmapped])).mp ⟨size, hreg⟩
        exact ⟨k, size'', (hsame k).mp howner, hold⟩
      · rintro ⟨k, size, howner, hreg⟩
        obtain ⟨size', hnew⟩ := (hkept ((hsame k).mpr howner) (by simp [hreg])).mpr ⟨size, hreg⟩
        exact ⟨k, size', (hsame k).mpr howner, hnew⟩

/-- What is known of a run in which no heap is made too late. -/
structure Rounded (sys : System) (log : PageLog) : Prop where
  guarded : ∀ t, Guarded (sys.threads t)
  listed : OwnersListed sys.store
  rounds : ∀ t pg, ∃ held, Rounds pg (log t) held ∧ (held = true ↔ sys.store.Owns t pg)

theorem Rounded.init : Rounded System.init PageLog.start where
  guarded := fun t => ⟨fun hne => absurd rfl hne, fun _ => rfl, fun hended => by cases hended⟩
  listed := fun pg hne => absurd rfl hne
  rounds := by
    intro t pg
    refine ⟨false, .nil, ?_⟩
    constructor
    · intro hheld
      cases hheld
    · rintro ⟨k, _, howner, _⟩
      cases howner

/-- One page in a step of thread `u`. -/
theorem HolderStep.rounds {s s' : Store} {u : Nat} {th : Thread} {pg : PageId} {es : List PageEntry}
    {held : Bool} (h : HolderStep s u th s' pg) (hr : Rounds pg es held)
    (hheld : held = true ↔ s.Owns u pg) :
    ∃ held', Rounds pg (match th.pageEvent s with
        | some e => ⟨e, s.page.used e.page⟩ :: es
        | none => es) held' ∧ (held' = true ↔ s'.Owns u pg) := by
  cases h with
  | take hevent hold hnew =>
      rw [hevent]
      obtain rfl : held = false := by
        rw [← Bool.not_eq_true, hheld]
        exact hold u
      exact ⟨true, .take hr, by simp [hnew]⟩
  | release hevent hused hold hnew =>
      rw [hevent]
      obtain rfl : held = true := hheld.mpr ((hold u).mpr rfl)
      refine ⟨false, ?_, by simp [hnew]⟩
      change Rounds pg (⟨.release pg, s.page.used pg⟩ :: es) false
      rw [hused]
      exact .release hr
  | abandon hevent hused hold hnew =>
      rw [hevent]
      obtain rfl : held = true := hheld.mpr ((hold u).mpr rfl)
      exact ⟨false, .abandon hr hused, by simp [hnew]⟩
  | rest hevent hsame =>
      refine ⟨held, ?_, hheld.trans (hsame u).symm⟩
      cases he : th.pageEvent s with
      | none => exact hr
      | some e => exact .other hr (hevent e he)

theorem HolderStep.others {s s' : Store} {u t : Nat} {th : Thread} {pg : PageId}
    (h : HolderStep s u th s' pg) (htu : t ≠ u) : s'.Owns t pg ↔ s.Owns t pg := by
  cases h with
  | take _ hold hnew => exact ⟨fun ht => absurd ((hnew t).mp ht) htu, fun ht => absurd ht (hold t)⟩
  | release _ _ hold hnew | abandon _ _ hold hnew =>
      exact ⟨fun ht => absurd ht (hnew t), fun ht => absurd ((hold t).mp ht) htu⟩
  | rest _ hsame => exact hsame t

theorem PageLog.note_self (log : PageLog) (sys sys' : System) (u : Nat) (o : Oracle) :
    log.note sys (.step u o) sys' u = match (sys.threads u).pageEvent sys.store with
      | some e => ⟨e, sys.store.page.used e.page⟩ :: log u
      | none => log u := by
  unfold PageLog.note
  dsimp only
  cases (sys.threads u).pageEvent sys.store with
  | none => rfl
  | some e => exact Function.update_self u _ log

theorem PageLog.note_other (log : PageLog) {t : Nat} (hl : ∀ o, l ≠ .step t o) :
    log.note sys l sys' t = log t := by
  cases l with
  | step u o =>
      have htu : t ≠ u := fun heq => hl o (by rw [heq])
      unfold PageLog.note
      dsimp only
      cases (sys.threads u).pageEvent sys.store with
      | none => rfl
      | some e => exact Function.update_of_ne htu _ log
  | spawn | call | guardExit | finish | write | foreignMap | foreignUnmap | foreignWrite => rfl

/-- What clients and other allocators do leaves the owners alone. -/
theorem SysInv.owns_outside (h : SysInv ps sys G) (hstep : Step ps sys l sys')
    (hl : ∀ u o, l ≠ .step u o) : sys'.store.page = sys.store.page ∧
      ∀ a r, r.purpose ≠ .foreign →
        (sys'.store.os.regions a = some r ↔ sys.store.os.regions a = some r) := by
  obtain ⟨G', hchange⟩ := h.change hstep
  refine ⟨?_, hchange.outside hl⟩
  rw [exec_store hl hstep.2]

theorem Rounded.step (h : Rounded sys log) (hinv : SysInv ps sys G) (hstep : Step ps sys l sys')
    (hl : NoHeapAfterGuard sys l) : Rounded sys' (log.note sys l sys') := by
  have hguarded := Guarded.all h.guarded hstep hl
  by_cases hthread : ∃ u o, l = .step u o
  · obtain ⟨u, o, rfl⟩ := hthread
    obtain ⟨s', th', G', hown, rfl⟩ := hinv.own_step hstep
    have hth := hinv.threads u
    have hkeep := stepThread_owner hown.run
    have heff := stepThread_effect hown.busy hown.run
    have hlisted : OwnersListed s' := h.listed.step hinv.data hth hown.ok hkeep heff
    have hpages : ∀ pg, HolderStep sys.store u (sys.threads u) s' pg := fun pg =>
      (hkeep.passing hinv.data hth hown.ok h.listed pg).holderStep hinv.data hth h.listed
        (heff.booking hinv.data hth hown.ok) hown.outcome.data hlisted
    refine ⟨hguarded, hlisted, fun t pg => ?_⟩
    obtain ⟨held, hr, hheld⟩ := h.rounds t pg
    by_cases htu : t = u
    · subst htu
      rw [PageLog.note_self]
      exact (hpages pg).rounds hr hheld
    · rw [PageLog.note_other log (fun o heq => htu (by cases heq; rfl))]
      exact ⟨held, hr, hheld.trans ((hpages pg).others htu).symm⟩
  · push Not at hthread
    obtain ⟨hpage, hregions⟩ := hinv.owns_outside hstep hthread
    refine ⟨hguarded, fun pg hne => ?_, fun t pg => ?_⟩
    · rw [hpage] at hne
      obtain ⟨hseg, hindex⟩ := h.listed pg hne
      exact ⟨(hregions pg.seg _ (by simp)).mpr hseg, hindex⟩
    · obtain ⟨held, hr, hheld⟩ := h.rounds t pg
      rw [PageLog.note_other log (hthread t)]
      refine ⟨held, hr, hheld.trans ?_⟩
      unfold Store.Owns
      rw [hpage]
      simp only [hregions _ ⟨_, .heap t⟩ (by simp)]

theorem Recorded.rounded (h : Recorded ps NoHeapAfterGuard PageLog.note PageLog.start sys log) :
    Rounded sys log := by
  induction h with
  | init => exact Rounded.init
  | step hrun hstep hl ih =>
      obtain ⟨G, hinv⟩ := hrun.reachableBy.reachable.inv
      exact ih.step hinv hstep hl

/-- A thread that has ended leaves nothing behind, if no thread gets a heap after
the destructor of its `HeapGuard` has run: no heap of the thread is mapped, the
heaps in the registry and the heaps that own a page are those of threads that
have not ended, and the thread has released or abandoned every page as often as
it has taken it. -/
theorem ended_thread_leaves_nothing (ps : PageSize)
    (hrun : Recorded ps NoHeapAfterGuard PageLog.note PageLog.start sys log) {t : Nat}
    (hended : (sys.threads t).status = .ended) :
    (∀ k size, sys.store.os.regions k ≠ some ⟨size, .heap t⟩) ∧
    (∀ k ∈ sys.store.heapRegistry, ∃ u size, sys.store.os.regions k = some ⟨size, .heap u⟩ ∧
      (sys.threads u).status ≠ .ended) ∧
    (∀ pg k, sys.store.page.owner pg = .heap k →
      ∃ u size, sys.store.os.regions k = some ⟨size, .heap u⟩ ∧
        (sys.threads u).status ≠ .ended) ∧
    ∀ pg, Rounds pg (log t) false := by
  have hreach := hrun.reachableBy.reachable
  obtain ⟨G, hinv⟩ := hreach.inv
  have hr := hrun.rounded
  have hgone : ∀ u, (sys.threads u).status = .ended →
      ∀ k size, sys.store.os.regions k ≠ some ⟨size, .heap u⟩ := by
    intro u hu k size hregion
    have hhome := (((hinv.threads u).home k size).mp hregion).2
    rw [(hr.guarded u).home_ended hu] at hhome
    cases hhome
  refine ⟨hgone t hended, fun k hk => ?_, fun pg k howner => ?_, fun pg => ?_⟩
  · obtain ⟨⟨size, purpose⟩, hregion, u, rfl⟩ := ((hreach.heapsListed.agree k).mp hk).1
    exact ⟨u, size, hregion, fun hu => hgone u hu k size hregion⟩
  · obtain ⟨u, size, hregion⟩ := hinv.data.owner_mapped hr.listed howner
    exact ⟨u, size, hregion, fun hu => hgone u hu k size hregion⟩
  · obtain ⟨held, hrounds, hheld⟩ := hr.rounds t pg
    have hnot : ¬ held = true := fun h => by
      obtain ⟨k, size, _, hregion⟩ := hheld.mp h
      exact hgone t hended k size hregion
    rw [Bool.not_eq_true] at hnot
    rw [← hnot]
    exact hrounds

/-- The condition of a run, as a check of a computed one. -/
def guardLast {σ : Type} (w : World σ) (a : Act) : Bool :=
  match a with
  | .step t _ => !(w.sys.threads t).guardDone || (w.sys.threads t).pc.unlinked == none
  | _ => true

theorem guardLast_ok {σ : Type} {w : World σ} {a : Act} (h : guardLast w a = true) :
    NoHeapAfterGuard w.sys (a.label w) := by
  cases a with
  | step t maps =>
      intro hdone
      simp only [guardLast, hdone, Bool.not_true, Bool.false_or, beq_iff_eq] at h
      exact h
  | spawn | call | guardExit | finish => trivial

/-- A thread makes one call and ends: it has taken one page and abandoned it. -/
theorem ended_thread_leaves_nothing_one : ∃ sys log,
    Recorded page4k NoHeapAfterGuard PageLog.note PageLog.start sys log ∧
    (sys.threads 0).status = .ended ∧
    log 0 = [⟨.abandon ⟨2 ^ 43, 63⟩, 1⟩, ⟨.take ⟨2 ^ 43, 63⟩, 0⟩] ∧
    (∀ k size, sys.store.os.regions k ≠ some ⟨size, .heap 0⟩) ∧
    Rounds ⟨2 ^ 43, 63⟩ (log 0) false := by
  obtain ⟨w, hrun, hcheck⟩ := schedule_reaches page4k guardLast PageLog.note PageLog.start
    (firstMalloc 0 16 ++ exitActs 0)
    (fun w => decide ((w.sys.threads 0).status = .ended) &&
      w.log 0 == [⟨.abandon ⟨2 ^ 43, 63⟩, 1⟩, ⟨.take ⟨2 ^ 43, 63⟩, 0⟩])
    (fun _ _ => guardLast_ok) (by decide +kernel)
  rw [Bool.and_eq_true, decide_eq_true_eq] at hcheck
  obtain ⟨hended, hlog⟩ := hcheck
  obtain ⟨hgone, _, _, hrounds⟩ := ended_thread_leaves_nothing page4k hrun hended
  exact ⟨w.sys, w.log, hrun, hended, eq_of_beq hlog, hgone, hrounds _⟩

/-- A destructor that runs after the guard's allocates: the thread gets a heap that
nobody destroys. It is in the registry and owns a page when the thread has ended. -/
theorem heap_outlives_thread : ∃ sys, Reachable page4k sys ∧
    (sys.threads 0).status = .ended ∧
    ∃ k ∈ sys.store.heapRegistry, sys.store.os.regions k = some ⟨heapBytes page4k, .heap 0⟩ ∧
      sys.store.page.owner ⟨2 ^ 43, 62⟩ = .heap k := by
  obtain ⟨sys, hreach, hcheck⟩ := schedule_reachable page4k
    (firstMalloc 0 16 ++
      [.guardExit 0, .step 0 false, .step 0 false, .step 0 false, .step 0 false,
        .call 0 (.malloc 16), .step 0 true, .step 0 false, .step 0 false, .step 0 false,
        .finish 0])
    (fun sys => decide ((sys.threads 0).status = .ended) && sys.store.heapRegistry.any fun k =>
      decide (sys.store.os.regions k = some ⟨heapBytes page4k, .heap 0⟩) &&
        decide (sys.store.page.owner ⟨2 ^ 43, 62⟩ = .heap k)) (by decide +kernel)
  simp only [Bool.and_eq_true, decide_eq_true_eq, List.any_eq_true] at hcheck
  exact ⟨sys, hreach, hcheck⟩

end Runs

end HMalloc
