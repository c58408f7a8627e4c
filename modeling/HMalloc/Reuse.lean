import HMalloc.OwnerLoads
import HMalloc.ThreadFree

/-!
Memory that is freed and reused. The memory of blocks is not atomic: the client writes
it, and when it is freed the allocator keeps its links there. What orders one use of a
byte before the next are the mutexes, the release of a push to `thread_free` and the
acquire of the exchange that collects it. They are enough: whoever gets a block knows
of all that was done with each of its bytes before, and so does a thread that writes a
link.

Here a location is an address, and its history says which threads have accessed it: the
allocator when it changes the byte, and a client up to the call of `hm_free` or
`hm_realloc` by which it gives the block up. What the allocator only reads is not
recorded. Memory that the kernel maps is new: what was done before to the same addresses
is no access to it.
-/

namespace HMalloc

open Bytes Linked Views

/-- The byte becomes part of the address space. -/
def Store.maps (s s' : Store) (x : Nat) : Bool := !s.os.mapped x && s'.os.mapped x

/-- What the byte holds for the step that finds it mapped or maps it. -/
def Store.contents (s : Store) (x : Nat) : UInt8 := if s.os.mapped x then s.os.mem x else 0

/-- The block of pointer `p` has the byte. -/
def Store.covers (s : Store) (p x : Nat) : Bool :=
  (s.grants p).any fun g => decide (p ≤ x) && decide (x < p + g.usable)

/-- The pointer that a call takes over from the client. -/
def Call.takes (call : Call) (s s' : Store) (x : Nat) : Bool :=
  match call with
  | .free p | .realloc p _ => s.given p && !s'.given p && s.covers p x
  | _ => false

/-- Who accesses the byte. A store of the value that is there already cannot be told
from none. -/
def accesses (sys : System) (l : Label) (sys' : System) (x : Nat) : Option (Option Nat) :=
  match l with
  | .call t call => if call.takes sys.store sys'.store x then some (some t) else none
  | .step t _ =>
      if sys'.store.os.mem x = sys.store.contents x then none else some (some t)
  | _ => none

/-- A pointer is returned to the client. -/
def Store.returns (s s' : Store) : Party → Bool
  | .pointer p => s'.given p && !s.given p
  | _ => false

/-- Thread `t` accesses memory and returns. -/
def accessing (M : Memory Nat (Option Nat) Party) (t : Nat) (writes : Nat → Option (Option Nat))
    (returns : Party → Bool) : Memory Nat (Option Nat) Party :=
  M.act (.thread t)
    { learns := []
      writes := writes
      tells := returns
      adds := fun _ => false
      clears := fun _ => false }

/-- The accesses of a step. They come after the mutexes it unlocks and the
compare-exchange, and before it returns. -/
def access (M : Memory Nat (Option Nat) Party) (sys : System) (l : Label) (sys' : System) :
    Memory Nat (Option Nat) Party :=
  match l with
  | .call t _ | .step t _ =>
      accessing M t (accesses sys l sys') (sys.store.returns sys'.store)
  | _ => M

/-- What is known of the memory after a label. -/
def observeMemory (M : Memory Nat (Option Nat) Party) (sys : System) (l : Label)
    (sys' : System) : Memory Nat (Option Nat) Party :=
  access (observe (fun _ _ _ _ => none) (M.renew (sys.store.maps sys'.store) none) sys l sys')
    sys l sys'

/-- Before the first call. -/
def blockMemory : Memory Nat (Option Nat) Party := ⟨fun _ => [none], fun _ _ => 0⟩

/-- The byte lies in the page, and in no block that is handed out or waits. -/
structure Store.Spare (s : Store) (q : PageId) (x : Nat) : Prop where
  page : IsPage (IsSegment s.os.regions) q
  spans : q.Spans x
  free : ¬ s.Taken x
  listed : ¬ s.Waits q x

/-- Who knows of all accesses to a byte. -/
structure BlockViews (sys : System) (M : Memory Nat (Option Nat) Party) : Prop where
  within : M.Within
  held : ∀ p g x, sys.store.grants p = some g → p ≤ x → x < p + g.usable →
    M.Current (g.holder.party p) x
  waiting : ∀ q x, IsPage (IsSegment sys.store.os.regions) q → sys.store.Waits q x →
    M.Current (.threadFree q) x
  mine : ∀ t k q x, (sys.threads t).home = some k → sys.store.page.owner q = .heap k →
    sys.store.Spare q x → M.Current (.thread t) x
  pooled : ∀ q x, (∀ k, sys.store.page.owner q ≠ .heap k) → sys.store.Spare q x →
    M.Current sys.store.central.locker x

theorem BlockViews.init : BlockViews System.init blockMemory where
  within := fun _ _ => Nat.zero_lt_one
  held := fun _ _ _ hg => by cases hg
  waiting := fun _ _ hq => by cases hq.1
  mine := fun _ _ _ _ hhome => by cases hhome
  pooled := fun _ _ _ hx => by cases hx.page.1

theorem BlockViews.renew {sys : System} {M : Memory Nat (Option Nat) Party}
    (h : BlockViews sys M) (fresh : Nat → Bool) : BlockViews sys (M.renew fresh none) where
  within := h.within.renew fresh none
  held := fun p g x hg hlo hhi => (h.held p g x hg hlo hhi).renew fresh none
  waiting := fun q x hq hx => (h.waiting q x hq hx).renew fresh none
  mine := fun t k q x hhome howner hx => (h.mine t k q x hhome howner hx).renew fresh none
  pooled := fun q x howner hx => (h.pooled q x howner hx).renew fresh none

section Facts

variable {ps : PageSize} {sys : System} {G G' : Ghost} {t u : Nat} {o : Oracle} {s s' : Store}
  {th th' : Thread} {q : PageId} {x : Nat}

/-- The page whose list is collected is the thread's to write. -/
theorem SysInv.collects_works (hinv : SysInv ps sys G)
    (h : (sys.threads t).collects sys.store = some q) : (sys.threads t).WorksOn sys.store q := by
  have hdata := hinv.data.inv
  have hth := hinv.threads t
  have hown : ∀ {k c}, (sys.threads t).heap = some k → q ∈ G.cls k c →
      (sys.threads t).WorksOn sys.store q := by
    intro k c hk hq
    obtain ⟨hpage, howner⟩ := hdata.owner_held hq
    exact Or.inl ⟨hpage, k, hk, howner⟩
  unfold Thread.collects at h
  cases hpc : (sys.threads t).pc with
  | walk r c p =>
      rw [hpc] at h
      dsimp only at h
      split at h
      · cases h
        obtain ⟨k, hk, _, before, after, hsplit, _⟩ := hth.heap_at hpc rfl rfl
        exact hown hk (c := c) (by simp [hsplit])
      · cases h
  | destroy c p =>
      rw [hpc] at h
      cases h
      obtain ⟨k, hk, hleaving⟩ := hth.heap_at hpc rfl rfl
      exact hown hk (List.mem_of_head? hleaving.list.head_eq.symm)
  | sweep r c cur =>
      rw [hpc] at h
      have hcur : CursorOk G cur := (hth.lock_at hpc).2
      obtain ⟨before, after, hsplit, _⟩ := hdata.cursor_split hcur h
      obtain ⟨hpage, hloc⟩ := (hdata.lists.places.abandoned q).mp (by simp [hsplit])
      refine Or.inr ⟨hpage, ?_, Or.inr (by rw [hpc]; rfl)⟩
      rw [hdata.owner_eq hinv.data.limbo hpage, hloc]
      simp [Loc.owner]
  | idle | small | linkHeap | acquire | mapSegment | registerSegment | unregisterSegment
  | unmapSegment | large | registerLarge | free | remote | release | unmapLarge | hand
  | unlinkHeap | unmapHeap =>
      rw [hpc] at h
      cases h

/-- A block that shares a byte with a page is one of its blocks. -/
theorem Inv.origin_of_spans (hinv : Inv ps s G) (hq : IsPage (IsSegment s.os.regions) q)
    (hx : q.Spans x) {p : Nat} {g : Grant} (hg : s.grants p = some g) (hlo : p ≤ x)
    (hhi : x < p + g.usable) : ∃ i, g.origin = .small q i := by
  cases ho : g.origin with
  | small pg i =>
      have hgrant := hinv.smallGrant hg ho
      have hbounds := hgrant.bounds
      obtain rfl := hinv.spans_unique hq hgrant.page hx ⟨by omega, by omega⟩
      exact ⟨i, rfl⟩
  | large b =>
      obtain ⟨size, offset, hreg, rfl, husable, _⟩ := hinv.grants.large p g b hg ho
      have hd := hinv.regions.page_region_disjoint hq hreg (by simp)
      have hlarge := hinv.regions.large b size offset hreg
      obtain ⟨hxlo, hxhi⟩ := hx
      simp only at hd
      omega

theorem osFree_regions_old {os : Os} {b size a : Nat} {r : Region}
    (h : (osFree os b size).regions a = some r) : os.regions a = some r := by
  unfold osFree at h
  split at h
  · exact h
  · exact (PartialMap.erase_eq_some.mp h).2

/-- A segment that is new has been mapped in this step, by the thread that has the lock. -/
theorem Effect.segment_new (heff : Effect ps o s t th s' th') (hc : Consistent ps s G)
    (h : ThreadOk ps s G t th) (hok : StepOk ps o s th) {a : Nat} (ha : IsSegment s'.os.regions a)
    (hnew : ¬ IsSegment s.os.regions a) :
    th'.pc.locked = true ∧ ∀ x, a ≤ x → x < a + segmentSize → s.os.mapped x = false := by
  unfold StepOk at hok
  unfold IsSegment at ha hnew
  cases heff with
  | quiet _ hq =>
      rw [hq.regions] at ha
      exact absurd ha hnew
  | mapHeap hpc hheap hmap hq =>
      rw [hpc] at hok
      have hm := osAllocAligned_mapped (hok hheap) (heapBytes_lt ps) ps.bytes_lt hmap
      rw [hq.regions] at ha
      dsimp only at ha
      rw [hm.regions, Function.update_apply] at ha
      split at ha
      · cases congrArg Region.purpose (Option.some.inj ha)
      · exact absurd ha hnew
  | @mapSegment r c b os _ hpc hmap hq =>
      rw [hpc] at hok
      have hm := osAllocAligned_mapped hok (by decide) (by decide) hmap
      rw [hq.regions] at ha
      dsimp only at ha
      rw [hm.regions, Function.update_apply] at ha
      split at ha
      · rename_i hab
        subst hab
        exact ⟨rfl, hm.fresh⟩
      · exact absurd ha hnew
  | registerSegment hpc hreg hq | registerLarge hpc hreg hq =>
      rw [hpc] at hok
      obtain ⟨hstep, _⟩ := storeRegister_tables hreg (hok _ _ hreg) hc.inv.regions hc.inv.table
      rw [hq.regions] at ha
      exact absurd ((hstep.segments hc.inv.regions a).mp ha) hnew
  | @mapLarge r offset mmapSize b os _ hpc hmap hq =>
      rw [hpc] at hok
      have hargs : LargeArgs r offset mmapSize := h.args_at hpc
      have hm := osAllocAligned_mapped hok hargs.bound (by decide) hmap
      rw [hq.regions] at ha
      dsimp only at ha
      rw [hm.regions, Function.update_apply] at ha
      split at ha
      · cases congrArg Region.purpose (Option.some.inj ha)
      · exact absurd ha hnew
  | unmapSegment _ hq | unmapLarge _ hq =>
      rw [hq.regions] at ha
      exact absurd (osFree_regions_old ha) hnew
  | unmapHeap => exact absurd (osFree_regions_old ha) hnew
  | linkHeap | unregisterSegment | dropLarge | unlinkHeap => exact absurd ha hnew

end Facts

section Accessing

variable {M : Memory Nat (Option Nat) Party} {t : Nat} {writes : Nat → Option (Option Nat)}
  {returns : Party → Bool} {a : Party} {x : Nat}

theorem accessing_within (hM : M.Within) : (accessing M t writes returns).Within :=
  hM.act _ _

/-- The thread knows of its own accesses. -/
theorem accessing_self (hM : M.Within) (h : M.Current (.thread t) x) :
    (accessing M t writes returns).Current (.thread t) x := by
  cases hw : writes x with
  | some v => exact Memory.Current.act_self (Option.isSome_iff_exists.mpr ⟨v, hw⟩)
  | none =>
      exact h.mono (accessing_within hM) (Memory.act_history hw) (hM.le_act_self (Or.inl rfl))

/-- Who knew of all accesses still does, when there is none. -/
theorem accessing_kept (hM : M.Within) (h : M.Current a x) (hw : writes x = none)
    (hr : returns a = false) : (accessing M t writes returns).Current a x := by
  refine h.mono (accessing_within hM) (Memory.act_history hw) (hM.le_act rfl fun ht => ?_)
  exact absurd (hr.symm.trans ht) Bool.false_ne_true

end Accessing

/-- What a step of thread `t` makes of `R`: it passes on what it has learned, accesses
memory, and returns. -/
abbrev stepMemory (R : Memory Nat (Option Nat) Party) (t : Nat) (o : Oracle) (th : Thread)
    (s s' : Store) : Memory Nat (Option Nat) Party :=
  accessing (R.act (.thread t) (th.exchange t o s s' fun _ => none)) t
    (fun x => if s'.os.mem x = s.contents x then none else some (some t)) (s.returns s')

section After

variable {R : Memory Nat (Option Nat) Party} {t : Nat} {o : Oracle} {th : Thread} {s s' : Store}
  {a b : Party} {x : Nat}

theorem stepMemory_within (hR : R.Within) : (stepMemory R t o th s s').Within :=
  accessing_within (hR.act _ _)

theorem current_self (hR : R.Within) (h : R.Current a x)
    (ha : a = .thread t ∨ a ∈ th.learns s) :
    (stepMemory R t o th s s').Current (.thread t) x :=
  accessing_self (hR.act _ _)
    (h.mono (hR.act _ _) (Memory.act_history rfl) (Thread.known_self hR ha))

theorem current_kept (hR : R.Within) (h : R.Current a x) (hw : s'.os.mem x = s.contents x)
    (hr : s.returns s' a = false) (hle : R.known a x ≤
      (R.act (.thread t) (th.exchange t o s s' fun _ => none)).known a x) :
    (stepMemory R t o th s s').Current a x :=
  accessing_kept (hR.act _ _) (h.mono (hR.act _ _) (Memory.act_history rfl) hle) (if_pos hw) hr

/-- Who is told by an unlock or a release knows what the thread has learned. -/
theorem current_told (hR : R.Within) (h : R.Current a x) (ha : a = .thread t ∨ a ∈ th.learns s)
    (hw : s'.os.mem x = s.contents x) (hr : s.returns s' b = false)
    (hb : th.tells t s s' b = true ∨ th.adds o s b = true) :
    (stepMemory R t o th s s').Current b x := by
  refine accessing_kept (hR.act _ _) ?_ (if_pos hw) hr
  refine h.mono (hR.act _ _) (Memory.act_history rfl) ?_
  exact Nat.le_trans (Thread.known_self hR ha) (Thread.known_told hb)

/-- A pointer that is returned carries what the thread knows. -/
theorem current_returned (hR : R.Within) (h : (stepMemory R t o th s s').Current (.thread t) x)
    (hr : s.returns s' b = true) : (stepMemory R t o th s s').Current b x :=
  h.mono (stepMemory_within hR) rfl (Memory.after_le_act (Or.inl hr))

theorem contents_of_mapped (hx : s.os.mapped x = true) (h : s'.os.mem x = s.os.mem x) :
    s'.os.mem x = s.contents x := by
  unfold Store.contents
  rw [if_pos hx]
  exact h

end After

/-- What thread `t` knows of when it has locked and collected what it does in its step. -/
def Learned (R : Memory Nat (Option Nat) Party) (sys : System) (t : Nat) (x : Nat) : Prop :=
  ∃ a, R.Current a x ∧ (a = .thread t ∨ a ∈ (sys.threads t).learns sys.store)

/-- The page is one of the thread's heap, or of no heap and the thread is in the critical
section. -/
def Thread.Tends (s : Store) (th : Thread) (q : PageId) : Prop :=
  (∃ k, th.home = some k ∧ s.page.owner q = .heap k) ∨
    (∀ k, s.page.owner q ≠ .heap k) ∧ (th.pc.locks = true ∨ th.pc.locked = true)

section Step

variable {ps : PageSize} {sys : System} {G G' : Ghost} {t u : Nat} {o : Oracle} {s' : Store}
  {th' : Thread} {R : Memory Nat (Option Nat) Party} {q : PageId} {x : Nat}

/-- A thread that works on a page knows of all accesses to the bytes of it that it does
not leave to others. -/
theorem BlockViews.learned (h : BlockViews sys R) (hinv : SysInv ps sys G)
    (hown : OwnStep ps t sys G o s' th' G') (hq : IsPage (IsSegment sys.store.os.regions) q)
    (hx : q.Spans x) (htends : (sys.threads t).Tends sys.store q)
    (htaken : ∀ p g, sys.store.grants p = some g → p ≤ x → x < p + g.usable →
      g.holder.thread = some t)
    (hwaits : sys.store.Waits q x → (sys.threads t).collects sys.store = some q) :
    Learned R sys t x := by
  by_cases hheld : sys.store.Taken x
  · obtain ⟨p, g, hg, hlo, hhi⟩ := hheld
    have hcur := h.held p g x hg hlo hhi
    rw [Holder.party_of_thread (htaken p g hg hlo hhi)] at hcur
    exact ⟨_, hcur, Or.inl rfl⟩
  · by_cases hlist : sys.store.Waits q x
    · exact ⟨_, h.waiting q x hq hlist, Or.inr (Thread.learns_threadFree (hwaits hlist))⟩
    · rcases htends with ⟨k, hhome, howner⟩ | ⟨howner, hcentral⟩
      · exact ⟨_, h.mine t k q x hhome howner ⟨hq, hx, hheld, hlist⟩, Or.inl rfl⟩
      · exact ⟨_, h.pooled q x howner ⟨hq, hx, hheld, hlist⟩, hinv.locker_learned hown.ok hcentral⟩

/-- A thread that writes a byte knows of all accesses to it. -/
theorem BlockViews.writer (h : BlockViews sys R) (hinv : SysInv ps sys G)
    (hown : OwnStep ps t sys G o s' th' G') (hx : sys.store.InRegion x)
    (hne : s'.os.mem x ≠ sys.store.os.mem x) : Learned R sys t x := by
  cases hown.written hinv hx hne with
  | @block p g hg hthread hlo hhi =>
      have hcur := h.held p g x hg hlo hhi
      rw [Holder.party_of_thread hthread] at hcur
      exact ⟨_, hcur, Or.inl rfl⟩
  | page hq hspans hworks _ hlist =>
      refine h.learned hinv hown hq hspans ?_ (fun p g hg hlo hhi => ?_) hlist
      · rcases hworks with ⟨_, k, hheap, howner⟩ | ⟨_, howner, hcentral⟩
        · exact Or.inl ⟨k, (hinv.threads t).home_of_heap hheap, howner⟩
        · exact Or.inr ⟨howner, hcentral⟩
      · by_contra hother
        refine hne (hown.outcome.frame.bytes p g hg ?_ ?_ x hlo hhi)
        · rintro heq
          exact hother (by rw [heq]; rfl)
        · rintro heq
          exact hother (by rw [heq]; rfl)

section Spare

variable (hinv : SysInv ps sys G) (hown : OwnStep ps t sys G o s' th' G')
  (hlisted : OwnersListed sys.store) (hq : IsPage (IsSegment sys.store.os.regions) q)
  (hx : s'.Spare q x)

include hinv hown hq hx

/-- A byte that is spare after a step and was not before: its block has been freed to the
local list of the thread's page. -/
theorem OwnStep.spare_taken {p : Nat} {g : Grant} (hg : sys.store.grants p = some g)
    (hlo : p ≤ x) (hhi : x < p + g.usable) : g.holder = .freeing t ∧
      ∃ k, (sys.threads t).heap = some k ∧ sys.store.page.owner q = .heap k ∧
        s'.page.owner q = .heap k := by
  obtain ⟨i, ho⟩ := hinv.data.inv.origin_of_spans hq hx.spans hg hlo hhi
  cases hg' : s'.grants p with
  | some g' =>
      have husable := (hown.outcome.frame.same p g g' hg hg').2
      exact absurd ⟨p, g', hg', hlo, by omega⟩ hx.free
  | none =>
      obtain ⟨hholder, hlocal | hwaits⟩ := hown.freed hinv hg ho hg'
      · exact ⟨hholder, hlocal⟩
      · exact absurd (hwaits x hlo hhi) hx.listed

include hlisted in
/-- Or its list has been collected. -/
theorem OwnStep.spare_waits (hwaits : sys.store.Waits q x) :
    (sys.threads t).collects sys.store = some q := by
  by_contra hnot
  exact hx.listed (hown.waits_after hinv hlisted hq hwaits hnot)

include hlisted in
/-- Where thread `t` does not work, the byte was spare before, and is not written. -/
theorem OwnStep.spare_before (hnot : ¬ (sys.threads t).WorksOn sys.store q) :
    sys.store.Spare q x ∧ s'.os.mem x = sys.store.contents x := by
  have htaken : ¬ sys.store.Taken x := by
    rintro ⟨p, g, hg, hlo, hhi⟩
    obtain ⟨_, k, hheap, howner, _⟩ := hown.spare_taken hinv hq hx hg hlo hhi
    exact hnot (Or.inl ⟨hq, k, hheap, howner⟩)
  have hwaits : ¬ sys.store.Waits q x := fun hwaits =>
    hnot (hinv.collects_works (hown.spare_waits hinv hlisted hq hx hwaits))
  have hin := hq.inRegion hx.spans
  refine ⟨⟨hq, hx.spans, htaken, hwaits⟩,
    contents_of_mapped (hin.mapped hinv.data.inv.regions) ?_⟩
  by_contra hne
  cases hown.written hinv hin hne with
  | @block p g hg _ hlo hhi => exact htaken ⟨p, g, hg, hlo, hhi⟩
  | page hq' hx' hworks =>
      obtain rfl := hinv.data.inv.spans_unique hq hq' hx.spans hx'
      exact hnot hworks

end Spare

theorem contents_of_inRegion (hinv : SysInv ps sys G) (hx : sys.store.InRegion x)
    (h : s'.os.mem x = sys.store.os.mem x) : s'.os.mem x = sys.store.contents x :=
  contents_of_mapped (hx.mapped hinv.data.inv.regions) h

/-- A heap that has pages has had its thread before the step. -/
theorem OwnStep.home_before (hown : OwnStep ps t sys G o s' th' G') (hinv : SysInv ps sys G)
    (hlisted : OwnersListed sys.store) {k : Nat} (howner : sys.store.page.owner q = .heap k)
    (hhome : ((sys.setThread t s' th').threads u).home = some k) :
    (sys.threads u).home = some k := by
  by_cases hu : u = t
  · subst hu
    obtain ⟨c, hmem⟩ := hinv.data.cls_of_owner (hlisted q (by simp [howner])) howner
    obtain ⟨v, size, hreg⟩ := hinv.data.homes k c (List.ne_nil_of_mem hmem)
    have hreg' := (((hinv.setThread hown.outcome).threads u).home k _).mpr ⟨rfl, hhome⟩
    by_cases hv : v = u
    · subst hv
      exact (((hinv.threads v).home k size).mp hreg).2
    · have hkept := (hown.outcome.frame.homes v hv k size).mpr hreg
      cases congrArg Region.purpose (Option.some.inj (hkept.symm.trans hreg'))
      exact absurd rfl hv
  · rwa [System.setThread_of_ne hu] at hhome

/-- A page that ends with the heap of thread `t` was its to tend. -/
theorem OwnStep.tends_before (hown : OwnStep ps t sys G o s' th' G') (hinv : SysInv ps sys G)
    (hlisted : OwnersListed sys.store) {k : Nat} (howner : s'.page.owner q = .heap k)
    (hhome : sys.store.page.owner q = .heap k → (sys.threads t).home = some k) :
    (sys.threads t).Tends sys.store q := by
  cases (stepThread_owner hown.run).passing hinv.data (hinv.threads t) hown.ok hlisted q with
  | take _ hevent hold => exact Or.inr ⟨fun k => by simp [hold], Thread.pageEvent_central hevent⟩
  | release _ _ _ _ hnew | abandon _ _ _ _ hnew => cases hnew.symm.trans howner
  | rest _ hsame =>
      have hold := (hsame k).mp howner
      exact Or.inl ⟨k, hhome hold, hold⟩

/-- A region that is new has been mapped in this step. -/
theorem OwnStep.large_new (hown : OwnStep ps t sys G o s' th' G') (hinv : SysInv ps sys G)
    {r : Request} {offset size b p : Nat} {g : Grant}
    (hpc' : th'.pc = .registerLarge r offset size b) (hg : s'.grants p = some g)
    (ho : g.origin = .large b) (hlo : p ≤ x) (hhi : x < p + g.usable) :
    sys.store.os.mapped x = false := by
  have hsettled : ¬ Settles (sys.threads t) th' := by
    intro hs
    have htransit := hs.transit
    unfold Thread.transit at htransit
    rw [hpc'] at htransit
    cases htransit
  have hok := hown.ok
  unfold StepOk at hok
  cases stepThread_effect hown.busy hown.run with
  | quiet _ _ hs | registerSegment _ _ _ hs | unmapSegment _ _ hs | registerLarge _ _ _ hs
  | unmapLarge _ _ hs => exact absurd hs hsettled
  | mapHeap | mapSegment | unregisterSegment | dropLarge | linkHeap | unlinkHeap | unmapHeap =>
      cases hpc'
  | mapLarge hpc hmap hq =>
      cases hpc'
      rw [hpc] at hok
      have hargs : LargeArgs r offset size := (hinv.threads t).args_at hpc
      have hm := osAllocAligned_mapped hok hargs.bound (by decide) hmap
      obtain ⟨_, _, hreg, rfl, husable, _⟩ := hown.outcome.data.inv.grants.large p g b hg ho
      rw [hq.regions] at hreg
      dsimp only at hreg
      rw [hm.regions, Function.update_self] at hreg
      cases hreg
      exact hm.fresh x (by omega) (by omega)

section Own

variable (h : BlockViews sys R) (hinv : SysInv ps sys G) (hown : OwnStep ps t sys G o s' th' G')
  (hlisted : OwnersListed sys.store)

include h hinv hown hlisted

/-- What is spare after a step in a page that the thread works on. -/
theorem BlockViews.learned_spare (hq : IsPage (IsSegment sys.store.os.regions) q)
    (hx : s'.Spare q x) (htends : (sys.threads t).Tends sys.store q) : Learned R sys t x := by
  refine h.learned hinv hown hq hx.spans htends (fun p g hg hlo hhi => ?_)
    (hown.spare_waits hinv hlisted hq hx)
  rw [(hown.spare_taken hinv hq hx hg hlo hhi).1]
  rfl

theorem BlockViews.mine_after {k : Nat}
    (hhome : ((sys.setThread t s' th').threads u).home = some k)
    (howner : s'.page.owner q = .heap k) (hx : s'.Spare q x) :
    (stepMemory R t o (sys.threads t) sys.store s').Current (.thread u) x := by
  have hkeep := stepThread_owner hown.run
  obtain ⟨hq, _⟩ := hkeep.listed hinv.data (hinv.threads t) hlisted
    (show s'.page.owner q ≠ .null by simp [howner])
  have hpass := hkeep.passing hinv.data (hinv.threads t) hown.ok hlisted q
  by_cases hu : u = t
  · subst hu
    have htends := hown.tends_before hinv hlisted howner
      fun hold => hown.home_before hinv hlisted hold hhome
    obtain ⟨a, hcur, ha⟩ := h.learned_spare hinv hown hlisted hq hx htends
    exact current_self h.within hcur ha
  · rw [System.setThread_of_ne hu] at hhome
    have hother : (sys.threads t).heap ≠ some k := fun hheap => hu (hinv.heap_unique hheap hhome)
    have hold : sys.store.page.owner q = .heap k := by
      cases hpass with
      | take hheap _ _ hnew =>
          cases hnew.symm.trans howner
          exact absurd hheap hother
      | release _ _ _ _ hnew | abandon _ _ _ _ hnew => cases hnew.symm.trans howner
      | rest _ hsame => exact (hsame k).mp howner
    have hnot : ¬ (sys.threads t).WorksOn sys.store q := by
      rintro (⟨_, k', hheap, hown'⟩ | ⟨_, hnone, _⟩)
      · cases hown'.symm.trans hold
        exact hother hheap
      · exact hnone k hold
    obtain ⟨hspare, hmem⟩ := hown.spare_before hinv hlisted hq hx hnot
    exact current_kept h.within (h.mine u k q x hhome hold hspare) hmem rfl
      (Thread.known_thread h.within u)

omit hlisted in
/-- Who has the lock after a step in the critical section. -/
theorem BlockViews.locker_after (hlearned : Learned R sys t x)
    (hcentral : (sys.threads t).pc.locks = true ∨ (sys.threads t).pc.locked = true)
    (hmem : s'.central.mtx ≠ some t → s'.os.mem x = sys.store.contents x) :
    (stepMemory R t o (sys.threads t) sys.store s').Current s'.central.locker x := by
  obtain ⟨a, hcur, ha⟩ := hlearned
  rcases hown.locker_after hinv hcentral with heq | ⟨heq, hmtx, htells⟩
  · rw [heq]
    exact current_self h.within hcur ha
  · rw [heq]
    exact current_told h.within hcur ha (hmem hmtx) rfl (Or.inl htells)

theorem BlockViews.pooled_after
    (hfresh : ∀ x, sys.store.maps s' x = true → ∀ a, R.Current a x)
    (howner : ∀ k, s'.page.owner q ≠ .heap k) (hx : s'.Spare q x) :
    (stepMemory R t o (sys.threads t) sys.store s').Current s'.central.locker x := by
  have hkeep := stepThread_owner hown.run
  by_cases hq : IsPage (IsSegment sys.store.os.regions) q
  · -- Without the lock the thread writes only to the pages of its heap.
    have hmem : s'.central.mtx ≠ some t → s'.os.mem x = sys.store.contents x := by
      intro hmtx
      have hin := hq.inRegion hx.spans
      refine contents_of_inRegion hinv hin ?_
      by_contra hne
      cases hown.written hinv hin hne with
      | @block p g hg _ hlo hhi =>
          obtain ⟨_, k, _, _, hnew⟩ := hown.spare_taken hinv hq hx hg hlo hhi
          exact howner k hnew
      | page hq' hx' _ hkept _ =>
          obtain rfl := hinv.data.inv.spans_unique hq hq' hx.spans hx'
          rcases hkept with ⟨k, _, hnew⟩ | hlock
          · exact howner k hnew
          · exact hmtx hlock
    cases hkeep.passing hinv.data (hinv.threads t) hown.ok hlisted q with
    | take _ _ _ hnew => exact absurd hnew (howner _)
    | @release k hheap hevent _ hold | @abandon k hheap hevent _ hold =>
        refine h.locker_after hinv hown ?_ (Thread.pageEvent_central hevent) hmem
        exact h.learned_spare hinv hown hlisted hq hx
          (Or.inl ⟨k, (hinv.threads t).home_of_heap hheap, hold⟩)
    | rest _ hsame =>
        have hold : ∀ k, sys.store.page.owner q ≠ .heap k :=
          fun k heq => howner k ((hsame k).mpr heq)
        by_cases hcentral : (sys.threads t).pc.locks = true ∨ (sys.threads t).pc.locked = true
        · refine h.locker_after hinv hown ?_ hcentral hmem
          exact h.learned_spare hinv hown hlisted hq hx (Or.inr ⟨hold, hcentral⟩)
        · have hnot : ¬ (sys.threads t).WorksOn sys.store q := by
            rintro (⟨_, k, _, hheld⟩ | ⟨_, _, hworks⟩)
            · exact hold k hheld
            · exact hcentral hworks
          obtain ⟨hspare, hsame⟩ := hown.spare_before hinv hlisted hq hx hnot
          push Not at hcentral
          have hlocks := Bool.eq_false_iff.mpr hcentral.1
          have hlocked := Bool.eq_false_iff.mpr hcentral.2
          rw [(stepThread_central hown.run hlocks hlocked).2]
          refine current_kept h.within (h.pooled q x hold hspare) hsame ?_
            (Thread.known_locker h.within _ hlocks hlocked)
          unfold Central.locker
          cases sys.store.central.mtx <;> rfl
  · have hin' := hx.page.inRegion hx.spans
    have hbounds := hx.page.area_bounds
    obtain ⟨hlo, hhi⟩ := hx.spans
    obtain ⟨hlocked, hunmapped⟩ := (stepThread_effect hown.busy hown.run).segment_new hinv.data
      (hinv.threads t) hown.ok hx.page.1 (fun hseg => hq ⟨hseg, hx.page.2⟩)
    have hmaps : sys.store.maps s' x = true := by
      unfold Store.maps
      rw [hunmapped x (by omega) (by omega), hin'.mapped hown.outcome.data.inv.regions]
      rfl
    have hmtx := hown.outcome.thread.mtx.mpr hlocked
    unfold Central.locker
    rw [hmtx]
    exact current_self h.within (hfresh x hmaps (.thread t)) (Or.inl rfl)

theorem BlockViews.waiting_after (hq' : IsPage (IsSegment s'.os.regions) q) (hx : s'.Waits q x) :
    (stepMemory R t o (sys.threads t) sys.store s').Current (.threadFree q) x := by
  have hdata := hinv.data.inv
  obtain ⟨hq, ⟨hwaits, hnot⟩ | ⟨hpush, hmem, p, g, hg, hholder, hlo, hhi⟩⟩ :=
    hown.waits_before hinv hlisted hq' hx
  · have hsame := contents_of_inRegion hinv (hq.inRegion (hdata.waits_spans hq hwaits))
      (hown.waits_same hinv hq hnot hwaits)
    refine current_kept h.within (h.waiting q x hq hwaits) hsame rfl (h.within.le_act ?_ ?_)
    · -- A page that is taken from the pool has no blocks that wait.
      refine beq_eq_false_iff_ne.mpr fun hevent => ?_
      have hkeep := stepThread_owner hown.run
      cases hkeep.passing hinv.data (hinv.threads t) hown.ok hlisted q with
      | take _ _ hold => exact hdata.pool_not_waits hinv.data.limbo hq hold hwaits
      | release _ hevent' | abandon _ hevent' => cases hevent.symm.trans hevent'
      | rest hrest => exact hrest _ hevent rfl
    · exact fun ht => by cases ht
  · have hcur := h.held p g x hg hlo hhi
    rw [hholder] at hcur
    refine current_told h.within hcur (Or.inl rfl) ?_ rfl (Or.inr (beq_iff_eq.mpr hpush))
    exact contents_of_inRegion hinv (hdata.taken_inRegion ⟨p, g, hg, hlo, hhi⟩) (congrFun hmem x)

/-- The bytes of a block that the thread gets from a page. -/
theorem BlockViews.learned_served {k c p i : Nat} {g : Grant} (hnone : sys.store.grants p = none)
    (hheap : (sys.threads t).heap = some k) (hmem : q ∈ G'.cls k c)
    (hg : s'.grants p = some g) (ho : g.origin = .small q i) (hlo : p ≤ x)
    (hhi : x < p + g.usable) : Learned R sys t x := by
  have hdata' := hown.outcome.data
  have hgrant := hdata'.inv.smallGrant hg ho
  have hbounds := hgrant.bounds
  have howner := (hdata'.owner_of_cls hmem).2
  have hkeep := stepThread_owner hown.run
  obtain ⟨hq, _⟩ := hkeep.listed hinv.data (hinv.threads t) hlisted
    (show s'.page.owner q ≠ .null by simp [howner])
  refine h.learned hinv hown hq ⟨by omega, by omega⟩
    (hown.tends_before hinv hlisted howner fun _ => (hinv.threads t).home_of_heap hheap)
    (fun p₀ g₀ hg₀ hlo₀ hhi₀ => ?_) ?_
  · by_contra hother
    have hne : g₀.holder ≠ .freeing t := by
      intro heq
      exact hother (by rw [heq]; rfl)
    obtain ⟨g₁, hg₁⟩ := hown.outcome.frame.kept p₀ g₀ hg₀ hne
    have husable := (hown.outcome.frame.same p₀ g₀ g₁ hg₀ hg₁).2
    have hpne : p₀ ≠ p := by
      rintro rfl
      cases hnone.symm.trans hg₀
    have hd := hdata'.inv.grants_disjoint hg₁ hg hpne
    omega
  · intro hwaits
    by_contra hnot
    exact hdata'.inv.waits_not_taken hgrant.page (hown.waits_after hinv hlisted hq hwaits hnot)
      ⟨p, g, hg, hlo, hhi⟩

theorem BlockViews.held_after (hfresh : ∀ x, sys.store.maps s' x = true → ∀ a, R.Current a x)
    {p : Nat} {g : Grant} (hg : s'.grants p = some g) (hlo : p ≤ x) (hhi : x < p + g.usable) :
    (stepMemory R t o (sys.threads t) sys.store s').Current (g.holder.party p) x := by
  -- What the thread itself knows, it passes on with a pointer that it returns.
  have hpass : sys.store.given p = false → sys.store.grants p ≠ some g → Learned R sys t x →
      (stepMemory R t o (sys.threads t) sys.store s').Current (g.holder.party p) x := by
    rintro hgiven hne ⟨a, hcur, ha⟩
    have hself : (stepMemory R t o (sys.threads t) sys.store s').Current (.thread t) x :=
      current_self h.within hcur ha
    rcases hown.holder_after hg hne with hclient | hthread
    · rw [hclient]
      refine current_returned h.within hself ?_
      change (s'.given p && !sys.store.given p) = true
      rw [hgiven]
      simp [Store.given, hg, hclient]
    · rwa [Holder.party_of_thread hthread]
  cases hown.grantStep hinv hg with
  | same hold =>
      have hcur := h.held p g x hold hlo hhi
      have hin := hinv.data.inv.taken_inRegion ⟨p, g, hold, hlo, hhi⟩
      by_cases hmine : g.holder.thread = some t
      · rw [Holder.party_of_thread hmine] at hcur ⊢
        exact current_self h.within hcur (Or.inl rfl)
      · have hsame := contents_of_inRegion hinv hin (hown.outcome.frame.bytes p g hold
          (fun heq => hmine (by rw [heq]; rfl)) (fun heq => hmine (by rw [heq]; rfl)) x hlo hhi)
        cases hthread : g.holder.thread with
        | some u =>
            rw [Holder.party_of_thread hthread] at hcur ⊢
            exact current_kept h.within hcur hsame rfl (Thread.known_thread h.within u)
        | none =>
            have hclient := Holder.client_of_thread hthread
            rw [hclient] at hcur ⊢
            have hgiven : (s'.given p && !sys.store.given p) = false := by
              simp [Store.given, hold, hclient]
            exact current_kept h.within hcur hsame hgiven
              (Nat.le_of_eq (Thread.known_pointer hgiven).symm)
  | @turned g₀ hold hthread =>
      have husable := (hown.outcome.frame.same p g₀ g hold hg).2
      have hcur := h.held p g₀ x hold hlo (by omega)
      rw [Holder.party_of_thread hthread] at hcur
      by_cases heq : g₀ = g
      · rw [← heq, Holder.party_of_thread hthread]
        exact current_self h.within hcur (Or.inl rfl)
      · refine hpass ?_ (by rw [hold]; simpa using heq) ⟨_, hcur, Or.inl rfl⟩
        simp only [Store.given, hold, Option.any_some, beq_eq_false_iff_ne]
        intro hclient
        rw [hclient] at hthread
        cases hthread
  | @served k c i pg hnone hheap _ hmem ho =>
      refine hpass (by simp [Store.given, hnone]) (by rw [hnone]; simp) ?_
      exact h.learned_served hinv hown hlisted hnone hheap hmem hg ho hlo hhi
  | @mapped r offset size b hnone hpc' ho =>
      refine hpass (by simp [Store.given, hnone]) (by rw [hnone]; simp) ?_
      refine ⟨.thread t, hfresh x ?_ _, Or.inl rfl⟩
      have hin' := hown.outcome.data.inv.taken_inRegion ⟨p, g, hg, hlo, hhi⟩
      unfold Store.maps
      rw [hown.large_new hinv hpc' hg ho hlo hhi, hin'.mapped hown.outcome.data.inv.regions]
      rfl

/-- A step of a thread. -/
theorem BlockViews.step (hfresh : ∀ x, sys.store.maps s' x = true → ∀ a, R.Current a x) :
    BlockViews (sys.setThread t s' th') (stepMemory R t o (sys.threads t) sys.store s') where
  within := stepMemory_within h.within
  held := fun _ _ _ hg hlo hhi => h.held_after hinv hown hlisted hfresh hg hlo hhi
  waiting := fun _ _ hq hx => h.waiting_after hinv hown hlisted hq hx
  mine := fun _ _ _ _ hhome howner hx => h.mine_after hinv hown hlisted hhome howner hx
  pooled := fun _ _ howner hx => h.pooled_after hinv hown hlisted hfresh howner hx

end Own

end Step

section Outside

variable {ps : PageSize} {sys sys' : System} {G : Ghost} {l : Label} {t : Nat}
  {M M' R : Memory Nat (Option Nat) Party} {x : Nat}

/-- What is no step of a thread keeps the blocks that are handed out. -/
theorem SysInv.outside (hinv : SysInv ps sys G) (hstep : Step ps sys l sys')
    (hl : ∀ t o, l ≠ .step t o) :
    SysInv ps sys' G ∧ ∀ x, sys.store.Taken x → sys'.store.Taken x := by
  obtain ⟨G', hchange⟩ := hinv.change hstep
  cases hchange with
  | thread => exact absurd rfl (hl _ _)
  | client _ _ _ _ _ hkept hout =>
      refine ⟨hinv.setThread hout, ?_⟩
      rintro x ⟨p, g, hg, hlo, hhi⟩
      obtain ⟨g', hg'⟩ := hkept p g hg
      have husable := (hout.frame.same p g g' hg hg').2
      exact ⟨p, g', hg', hlo, by omega⟩
  | world hw hinv' => exact ⟨hinv.setOs hw hinv', fun _ hx => hx⟩

/-- What is no step of a thread, and adds no access to memory that is not handed out. -/
theorem BlockViews.outside (h : BlockViews sys M) (hinv : SysInv ps sys G)
    (hstep : Step ps sys l sys') (hl : ∀ t o, l ≠ .step t o) (hwithin : M'.Within)
    (hkept : ∀ a x, ¬ sys.store.Taken x → M.Current a x → M'.Current a x)
    (hheld : ∀ p g x, sys'.store.grants p = some g → p ≤ x → x < p + g.usable →
      M'.Current (g.holder.party p) x) : BlockViews sys' M' := by
  obtain ⟨hinv', htaken⟩ := hinv.outside hstep hl
  obtain ⟨hpage, hregions⟩ := hinv.owns_outside hstep hl
  have hcentral : sys'.store.central = sys.store.central := by rw [exec_store hl hstep.2]
  have hpages : ∀ {q}, IsPage (IsSegment sys'.store.os.regions) q →
      IsPage (IsSegment sys.store.os.regions) q :=
    fun hq => ⟨(hregions _ _ (by simp)).mp hq.1, hq.2⟩
  have hwaits : ∀ {q x}, IsPage (IsSegment sys'.store.os.regions) q →
      (sys'.store.Waits q x ↔ sys.store.Waits q x) := by
    intro q x hq
    rw [hinv'.data.inv.waits_iff hq, hinv.data.inv.waits_iff (hpages hq), hpage]
  have hspare : ∀ {q x}, sys'.store.Spare q x → sys.store.Spare q x := fun hx =>
    ⟨hpages hx.page, hx.spans, fun htake => hx.free (htaken _ htake),
      fun hwait => hx.listed ((hwaits hx.page).mpr hwait)⟩
  refine ⟨hwithin, hheld, fun q x hq hx => ?_, fun u k q x hhome howner hx => ?_,
    fun q x howner hx => ?_⟩
  · have hx' := (hwaits hq).mp hx
    exact hkept _ x (hinv.data.inv.waits_not_taken (hpages hq) hx')
      (h.waiting q x (hpages hq) hx')
  · have hreg := ((hinv'.threads u).home k _).mpr ⟨rfl, hhome⟩
    have hhome' := (((hinv.threads u).home k _).mp ((hregions k _ (by simp)).mp hreg)).2
    rw [hpage] at howner
    exact hkept _ x (hspare hx).free (h.mine u k q x hhome' howner (hspare hx))
  · rw [hcentral]
    rw [hpage] at howner
    exact hkept _ x (hspare hx).free (h.pooled q x howner (hspare hx))

section Calls

variable {call : Call} {p : Nat} {g : Grant}

/-- What a call takes over is the client's until then. -/
theorem Call.takes_given {s s' : Store} (h : call.takes s s' x = true) : ∃ p g,
    s.grants p = some g ∧ g.holder = .client ∧ s'.given p = false ∧ p ≤ x ∧
      x < p + g.usable := by
  have hptr : ∀ p, (s.given p && !s'.given p && s.covers p x) = true → ∃ p g,
      s.grants p = some g ∧ g.holder = .client ∧ s'.given p = false ∧ p ≤ x ∧
        x < p + g.usable := by
    intro p hp
    simp only [Bool.and_eq_true, Bool.not_eq_true'] at hp
    obtain ⟨⟨hgiven, hgone⟩, hcovers⟩ := hp
    obtain ⟨g, hg, hclient⟩ := Store.given_iff.mp hgiven
    simp only [Store.covers, hg, Option.any_some, Bool.and_eq_true, decide_eq_true_eq] at hcovers
    exact ⟨p, g, hg, hclient, hgone, hcovers⟩
  cases call with
  | free p => exact hptr p h
  | realloc p _ => exact hptr p h
  | malloc | calloc | alignedAlloc => cases h

variable (hinv : SysInv ps sys G) (hstep : Step ps sys (.call t call) sys')

include hinv hstep

/-- A pointer after the first part of a call was there before, and was the client's if the
call has changed it. -/
theorem SysInv.call_grants (hg : sys'.store.grants p = some g) :
    sys.store.grants p = some g ∨ ∃ g₀, sys.store.grants p = some g₀ ∧
      .pointer p ∈ call.receives ∧ g.usable = g₀.usable ∧ g₀.holder = .client ∧
      (g.holder = .client ∨ g.holder.thread = some t) := by
  obtain ⟨⟨_, _, hok⟩, hrun⟩ := hstep
  rw [exec_call] at hrun
  cases hrun
  rcases enterGrants_cases hg with hsame | ⟨g₀, hg₀, hp, _, husable, hholder⟩
  · exact Or.inl hsame
  · have hclient := hok.given hinv.data.inv hp hg₀
    rw [hclient] at hholder
    exact Or.inr ⟨g₀, hg₀, hp, husable, hclient, hholder⟩

/-- The first part of a call returns no pointer. -/
theorem SysInv.call_returns (a : Party) : sys.store.returns sys'.store a = false := by
  cases a with
  | thread | central | heaps | regions | threadFree => rfl
  | pointer p =>
      change (sys'.store.given p && !sys.store.given p) = false
      cases hgiven : sys'.store.given p with
      | false => rfl
      | true =>
          obtain ⟨g, hg, hclient⟩ := Store.given_iff.mp hgiven
          have hbefore : sys.store.given p = true := by
            rcases hinv.call_grants hstep hg with hsame | ⟨g₀, hg₀, _, _, hclient₀, _⟩
            · exact Store.given_iff.mpr ⟨g, hsame, hclient⟩
            · exact Store.given_iff.mpr ⟨g₀, hg₀, hclient₀⟩
          rw [hbefore]
          rfl

omit hstep in
/-- A block that stays with the client, or was never the client's, is not taken over. -/
theorem SysInv.call_keeps {g₀ : Grant} (hg₀ : sys.store.grants p = some g₀)
    (hg : sys'.store.grants p = some g) (hholder : g₀.holder = .client → g.holder = .client)
    (hlo : p ≤ x) (hhi : x < p + g₀.usable) : call.takes sys.store sys'.store x ≠ true := by
  intro htakes
  obtain ⟨p', g', hg', hclient, hgone, hlo', hhi'⟩ := Call.takes_given htakes
  have hp : p' = p := by
    by_contra hne
    have hd := hinv.data.inv.grants_disjoint hg' hg₀ hne
    omega
  subst hp
  cases hg'.symm.trans hg₀
  rw [Store.given_iff.mpr ⟨g, hg, hholder hclient⟩] at hgone
  cases hgone

/-- The first part of a call. -/
theorem BlockViews.enter (h : BlockViews sys R) : BlockViews sys'
    (accessing (R.act (.thread t) (call.exchange fun _ => none)) t
      (fun x => if call.takes sys.store sys'.store x then some (some t) else none)
      (sys.store.returns sys'.store)) := by
  have hR : (R.act (.thread t) (call.exchange fun _ => none)).Within := h.within.act _ _
  have hcall : ∀ {a x}, R.Current a x →
      (R.act (.thread t) (call.exchange fun _ => none)).Current a x := fun {a _} hcur =>
    hcur.mono hR (Memory.act_history rfl) (Call.known_le h.within a)
  have hreturns := hinv.call_returns hstep
  refine h.outside hinv hstep (by simp) (accessing_within hR) (fun a x hfree hcur => ?_)
    (fun p g x hg hlo hhi => ?_)
  · refine accessing_kept hR (hcall hcur) (if_neg fun htakes => ?_) (hreturns a)
    obtain ⟨p, g, hg, _, _, hlo, hhi⟩ := Call.takes_given htakes
    exact hfree ⟨p, g, hg, hlo, hhi⟩
  · rcases hinv.call_grants hstep hg with hsame | ⟨g₀, hg₀, hp, husable, hclient₀, hholder⟩
    · exact accessing_kept hR (hcall (h.held p g x hsame hlo hhi))
        (if_neg (hinv.call_keeps hsame hg id hlo hhi)) (hreturns _)
    · rw [husable] at hhi
      have hcur := h.held p g₀ x hg₀ hlo hhi
      rw [hclient₀] at hcur
      rcases hholder with hclient | hthread
      · rw [hclient]
        exact accessing_kept hR (hcall hcur)
          (if_neg (hinv.call_keeps hg₀ hg (fun _ => hclient) hlo hhi)) (hreturns _)
      · rw [Holder.party_of_thread hthread]
        exact accessing_self hR
          (hcur.mono hR (Memory.act_history rfl) (Call.known_self h.within hp))

end Calls

end Outside

section Runs

variable {ps : PageSize} {sys : System} {M : Memory Nat (Option Nat) Party}

theorem Recorded.blockViews {P : System → Label → Prop}
    (h : Recorded ps P observeMemory blockMemory sys M) : BlockViews sys M := by
  induction h with
  | init => exact .init
  | @step sys sys' M l hrun hstep _ ih =>
      obtain ⟨G, hinv⟩ := hrun.reachableBy.reachable.inv
      have hnew := ih.renew (sys.store.maps sys'.store)
      by_cases hthread : ∃ t o, l = .step t o
      · obtain ⟨t, o, rfl⟩ := hthread
        obtain ⟨s', th', G', hown, rfl⟩ := hinv.own_step hstep
        exact hnew.step hinv hown hrun.reachableBy.reachable.ownersListed
          fun x hx a => Memory.renew_current hx a
      · push Not at hthread
        by_cases hcall : ∃ t call, l = .call t call
        · obtain ⟨t, call, rfl⟩ := hcall
          exact BlockViews.enter hinv hstep hnew
        · push Not at hcall
          have hsame : observeMemory M sys l sys' = M.renew (sys.store.maps sys'.store) none := by
            cases l with
            | step t o => exact absurd rfl (hthread t o)
            | call t call => exact absurd rfl (hcall t call)
            | spawn | guardExit | finish | write | foreignMap | foreignUnmap | foreignWrite => rfl
          obtain ⟨hgrants, _⟩ := exec_outside hthread hcall hstep.2
          rw [hsame]
          refine hnew.outside hinv hstep hthread hnew.within (fun _ _ _ hcur => hcur) ?_
          rw [hgrants]
          exact hnew.held

/-- Memory is not reused before all that was done with it is known. In every run and
whatever threads free whatever blocks: whoever has a block, the client to whom it was
returned or the thread that works on it, knows of all accesses that any thread has made
to any of its bytes since they were mapped; and a thread that changes a byte of a segment
or a large region, be it in a link of a free list, knows of all earlier accesses to it by
the mutexes it has locked and the list it has collected. -/
theorem frees_happen_before_reuse
    (h : Recorded ps (fun _ _ => True) observeMemory blockMemory sys M) :
    (∀ p g x, sys.store.grants p = some g → p ≤ x → x < p + g.usable →
      M.Current (g.holder.party p) x) ∧
    ∀ t o sys' x, Step ps sys (.step t o) sys' → sys.store.InRegion x →
      sys'.store.os.mem x ≠ sys.store.os.mem x →
      M.reach (.thread t) ((sys.threads t).learns sys.store) x + 1 = (M.history x).length := by
  have hviews := h.blockViews
  obtain ⟨G, hinv⟩ := h.reachableBy.reachable.inv
  refine ⟨hviews.held, fun t o sys' x hstep hx hne => ?_⟩
  obtain ⟨s', th', G', hown, rfl⟩ := hinv.own_step hstep
  obtain ⟨a, hcur, ha⟩ := hviews.writer hinv hown hx hne
  have hlt := hviews.within.reach_lt (.thread t) ((sys.threads t).learns sys.store) x
  have hle := Memory.le_reach_of (x := x) ha (M := M)
  unfold Memory.Current at hcur
  omega

/-- A block that another thread has freed is collected and returned again, and whoever
has it now knows of that thread's accesses. -/
theorem frees_happen_before_reuse_remote : ∃ sys M,
    Recorded page4k (fun _ _ => True) observeMemory blockMemory sys M ∧
    sys.store.given (2 ^ 43 + 63 * pageSize) = true ∧
    M.history (2 ^ 43 + 63 * pageSize) = [none, some 1] ∧
    M.Current (.pointer (2 ^ 43 + 63 * pageSize)) (2 ^ 43 + 63 * pageSize) := by
  obtain ⟨w, hrun, hcheck⟩ := schedule_reaches page4k (P := fun _ _ => True) (fun _ _ => true)
    observeMemory blockMemory
    (firstMalloc 0 8192 ++ [.spawn 1, .call 1 (.free (2 ^ 43 + 63 * pageSize)), .step 1 false,
      .step 1 false, .call 0 (.malloc 8192), .step 0 false, .step 0 false])
    (fun w => w.sys.store.given (2 ^ 43 + 63 * pageSize) &&
      w.sys.store.covers (2 ^ 43 + 63 * pageSize) (2 ^ 43 + 63 * pageSize) &&
      w.log.history (2 ^ 43 + 63 * pageSize) == [none, some 1])
    (fun _ _ _ => trivial) (by decide +kernel)
  simp only [Bool.and_eq_true, beq_iff_eq] at hcheck
  obtain ⟨⟨hgiven, hcovers⟩, hhistory⟩ := hcheck
  refine ⟨w.sys, w.log, hrun, hgiven, hhistory, ?_⟩
  obtain ⟨g, hg, hclient⟩ := Store.given_iff.mp hgiven
  simp only [Store.covers, hg, Option.any_some, Bool.and_eq_true, decide_eq_true_eq] at hcovers
  have hcur := (frees_happen_before_reuse hrun).1 _ g _ hg hcovers.1 hcovers.2
  rwa [hclient] at hcur

end Runs

end HMalloc
