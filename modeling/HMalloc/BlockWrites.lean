import HMalloc.AddressSpace
import HMalloc.Synchronisation

/-!
Which bytes of segments and large regions a step writes. A thread writes into the
blocks it works on, and into pages that are its to write: a page of its own heap, the
page it has taken from the pool, or an abandoned page that the sweep collects. Of the
blocks on a page's `thread_free` list it writes those it collects.
-/

namespace HMalloc

open Bytes Linked

/-- The byte lies in the page. -/
def PageId.Spans (q : PageId) (x : Nat) : Prop := q.start ≤ x ∧ x < q.start + pageSize

/-- The byte lies in a block on the page's `thread_free` list. -/
def Store.Waits (s : Store) (q : PageId) (x : Nat) : Prop :=
  ∃ l, Chain (link s.os.mem) (ptr (s.page.threadFree q)) l ∧
    ∃ b ∈ l, b ≤ x ∧ x < b + s.page.blockSize q

/-- The byte lies in a block that is handed out. -/
def Store.Taken (s : Store) (x : Nat) : Prop :=
  ∃ p g, s.grants p = some g ∧ p ≤ x ∧ x < p + g.usable

/-- The byte lies in a segment or in a large region. -/
def Store.InRegion (s : Store) (x : Nat) : Prop :=
  ∃ b r, Region.At s.os.regions x b r ∧ r.purpose.Tagged

section Lists

variable {ps : PageSize} {s s' : Store} {G : Ghost} {q : PageId} {x : Nat}

theorem Store.InRegion.mapped (h : s.InRegion x) (hr : RegionsOk s.os.mapped s.os.regions) :
    s.os.mapped x = true := by
  obtain ⟨b, r, ⟨hb, hlo, hhi⟩, _⟩ := h
  exact hr.mapped b r hb x hlo hhi

/-- The table of the region registry is elsewhere. -/
theorem Store.InRegion.tables {os : Os} (h : s.InRegion x)
    (hr : RegionsOk s.os.mapped s.os.regions) (hstep : TableStep s.os os) :
    os.mem x = s.os.mem x := by
  obtain ⟨b, r, ⟨hb, hlo, hhi⟩, htag⟩ := h
  refine hstep.mem hr b r hb ?_ x hlo hhi
  rcases htag with heq | ⟨offset, heq⟩ <;> simp [heq]

/-- What is mapped is not where something new is. -/
theorem Os.Mapped.outside {os os' : Os} {r size : Nat} {purpose : Purpose}
    (hm : os.Mapped os' r size purpose) (hx : os.mapped x = true) : x < r ∨ r + size ≤ x := by
  by_contra hin
  rw [hm.fresh x (by omega) (by omega)] at hx
  cases hx

theorem IsPage.inRegion (hq : IsPage (IsSegment s.os.regions) q) (hx : q.Spans x) :
    s.InRegion x := by
  have hb := hq.area_bounds
  obtain ⟨hlo, hhi⟩ := hx
  exact ⟨q.seg, _, ⟨hq.1, by omega, by simp only; omega⟩, Or.inl rfl⟩

theorem Inv.taken_inRegion (h : Inv ps s G) (hx : s.Taken x) : s.InRegion x := by
  obtain ⟨p, g, hg, hlo, hhi⟩ := hx
  obtain ⟨b, r, hb, hle, _, hcase⟩ := h.grant_in_region hg
  rcases hcase with ⟨hpurpose, _⟩ | ⟨offset, hpurpose, _⟩
  · exact ⟨b, r, ⟨hb, by omega, by omega⟩, Or.inl hpurpose⟩
  · exact ⟨b, r, ⟨hb, by omega, by omega⟩, Or.inr ⟨offset, hpurpose⟩⟩

/-- A byte lies in one page. -/
theorem Inv.spans_unique (h : Inv ps s G) {q' : PageId} (hq : IsPage (IsSegment s.os.regions) q)
    (hq' : IsPage (IsSegment s.os.regions) q') (hx : q.Spans x) (hx' : q'.Spans x) : q = q' := by
  by_contra hne
  have hd := h.regions.pages_disjoint hq hq' hne
  obtain ⟨_, _⟩ := hx
  obtain ⟨_, _⟩ := hx'
  omega

/-- The list of every page ends. -/
theorem Inv.remote_chain (h : Inv ps s G) (hq : IsPage (IsSegment s.os.regions) q) :
    Chain (link s.os.mem) (ptr (s.page.threadFree q)) (G.page q).remote := by
  have hloc := (h.pages q hq).loc
  have hvacant : Vacant (s.page.row q) (G.page q) →
      Chain (link s.os.mem) (ptr (s.page.threadFree q)) (G.page q).remote := by
    intro hv
    rw [hv.remote, show s.page.threadFree q = 0 from hv.threadFree, ptr_zero]
    exact chain_nil.mpr rfl
  unfold LocOk at hloc
  cases hl : (G.page q).loc with
  | pool =>
      rw [hl] at hloc
      exact hvacant hloc.2.2
  | limbo =>
      rw [hl] at hloc
      exact hvacant hloc
  | held =>
      rw [hl] at hloc
      exact hloc.2.2.remote
  | abandoned =>
      rw [hl] at hloc
      exact hloc.2.remote

theorem Inv.waits_iff (h : Inv ps s G) (hq : IsPage (IsSegment s.os.regions) q) :
    s.Waits q x ↔ ∃ b ∈ (G.page q).remote, b ≤ x ∧ x < b + s.page.blockSize q := by
  constructor
  · rintro ⟨l, hl, hx⟩
    rwa [hl.unique (h.remote_chain hq)] at hx
  · exact fun hx => ⟨_, h.remote_chain hq, hx⟩

theorem Store.not_waits (h : s.page.threadFree q = 0) : ¬ s.Waits q x := by
  rintro ⟨l, hl, b, hb, _⟩
  rw [h, ptr_zero] at hl
  rw [hl.nil_of_none] at hb
  cases hb

/-- A block on one of the two lists lies in its page. -/
theorem Inv.free_in_page (h : Inv ps s G) (hq : IsPage (IsSegment s.os.regions) q) {b : Nat}
    (hb : b ∈ (G.page q).free ∨ b ∈ (G.page q).remote) :
    q.start ≤ b ∧ b + s.page.blockSize q ≤ q.start + pageSize ∧ 16 ≤ s.page.blockSize q := by
  have hin := h.page_inService hq (a := b) (by tauto)
  obtain ⟨i, hi, rfl⟩ := hin.exists_slot (a := b) (by tauto)
  have hbounds := hin.slot_bounds hi
  have harea : (s.page.row q).area = q.start := (h.pages q hq).area
  have hsize : (s.page.row q).blockSize = s.page.blockSize q := rfl
  have hpos := hin.block_size.2.1
  omega

theorem Inv.waits_spans (h : Inv ps s G) (hq : IsPage (IsSegment s.os.regions) q)
    (hx : s.Waits q x) : q.Spans x := by
  obtain ⟨b, hb, hlo, hhi⟩ := (h.waits_iff hq).mp hx
  obtain ⟨hlow, hhigh, _⟩ := h.free_in_page hq (Or.inr hb)
  exact ⟨by omega, by omega⟩

/-- A block on the list is not handed out. -/
theorem Inv.waits_not_taken (h : Inv ps s G) (hq : IsPage (IsSegment s.os.regions) q)
    (hx : s.Waits q x) : ¬ s.Taken x := by
  rintro ⟨p, g, hg, hlo, hhi⟩
  obtain ⟨b, hb, hblo, hbhi⟩ := (h.waits_iff hq).mp hx
  have hd := h.free_grant_disjoint hq (Or.inr hb) hg
  change p + g.usable ≤ b ∨ b + s.page.blockSize q ≤ p at hd
  omega

/-- A block on the list is not on the local free list. -/
theorem Inv.free_not_waits (h : Inv ps s G) (hq : IsPage (IsSegment s.os.regions) q) {b : Nat}
    (hb : b ∈ (G.page q).free) (hlo : b ≤ x) (hhi : x < b + s.page.blockSize q) :
    ¬ s.Waits q x := by
  intro hx
  obtain ⟨b', hb', hblo, hbhi⟩ := (h.waits_iff hq).mp hx
  have hin := h.page_inService hq (Or.inl hb)
  have hne := hin.free_ne_remote hb hb'
  obtain ⟨i, _, rfl⟩ := hin.exists_slot (Or.inl hb)
  obtain ⟨j, _, rfl⟩ := hin.exists_slot (Or.inr (Or.inl hb'))
  have hd := hin.slots_disjoint hne
  change (s.page.row q).block i + s.page.blockSize q ≤ _ ∨ _ + s.page.blockSize q ≤ _ at hd
  omega

/-- The first block of the local free list. -/
theorem Inv.free_head_mem (h : Inv ps s G) {k c : Nat} (hq : q ∈ G.cls k c)
    (hne : s.page.free q ≠ 0) : s.page.free q ∈ (G.page q).free := by
  obtain ⟨hpage, hloc, _⟩ := h.own_page hq
  have hhead := ((h.pages q hpage).inService (by simp [hloc])).free.head_eq
  rw [show (s.page.row q).free = s.page.free q from rfl, ptr_of_ne hne] at hhead
  exact List.mem_of_head? hhead.symm

/-- No block waits for a page that is in the pool. -/
theorem Inv.pool_not_waits (h : Inv ps s G) (hlimbo : G.limbo = none)
    (hq : IsPage (IsSegment s.os.regions) q) (howner : s.page.owner q = .null) :
    ¬ s.Waits q x := by
  refine Store.not_waits ?_
  have hloc := (h.pages q hq).loc
  rw [h.owner_eq hlimbo hq] at howner
  unfold LocOk at hloc
  cases hl : (G.page q).loc with
  | pool =>
      rw [hl] at hloc
      exact hloc.2.2.threadFree
  | limbo =>
      rw [hl] at hloc
      exact hloc.threadFree
  | held | abandoned =>
      rw [hl] at howner
      cases howner

/-- The list is the same when its head and its links are. -/
theorem Inv.waits_congr (h : Inv ps s G) (hq : IsPage (IsSegment s.os.regions) q)
    (hhead : s'.page.threadFree q = s.page.threadFree q)
    (hsize : s'.page.blockSize q = s.page.blockSize q)
    (hlinks : ∀ y, s.Waits q y → s'.os.mem y = s.os.mem y) :
    s'.Waits q x ↔ s.Waits q x := by
  have hchain : Chain (link s'.os.mem) (ptr (s'.page.threadFree q)) (G.page q).remote := by
    rw [hhead]
    refine (h.remote_chain hq).congr fun b hb => link_congr fun y hlo hhi => hlinks y ?_
    have hsize := (h.free_in_page hq (Or.inr hb)).2.2
    exact (h.waits_iff hq).mpr ⟨b, hb, hlo, by omega⟩
  rw [h.waits_iff hq, ← hsize]
  constructor
  · rintro ⟨l, hl, hx⟩
    rwa [hl.unique hchain] at hx
  · exact fun hx => ⟨_, hchain, hx⟩

end Lists

/-- The page serves blocks, and its area is where it should be. -/
structure Store.Workable (s : Store) (q : PageId) (g : PageGhost) : Prop where
  inService : InService s.os.mem (s.page.row q) g
  area : s.page.area q = q.start
  pos : 0 < q.start
  bound : q.start + pageSize ≤ 2 ^ 64

section Writes

variable {ps : PageSize} {s s' : Store} {G : Ghost} {g : PageGhost} {q : PageId} {x : Nat}

theorem Inv.workable (h : Inv ps s G) (hq : IsPage (IsSegment s.os.regions) q)
    (hserv : (G.page q).loc ≠ .pool ∧ (G.page q).loc ≠ .limbo) : s.Workable q (G.page q) := by
  have hrange := h.area_range hq
  have harea := (h.pages q hq).area
  rw [harea] at hrange
  exact ⟨(h.pages q hq).inService hserv, harea, hrange.1, hrange.2⟩

/-- `page_collect` writes inside the page. -/
theorem Store.Workable.collect (h : s.Workable q g) (hrun : pageCollect s q = some s') :
    (∃ g', s'.Workable q g') ∧ ∀ x, ¬ q.Spans x → s'.os.mem x = s.os.mem x := by
  have hin := h.inService
  have harea : (s.page.row q).area = q.start := h.area
  unfold pageCollect at hrun
  dsimp only at hrun
  split at hrun
  · rename_i hzero
    cases hrun
    have hrow : ({ s.page with
        threadFree := Function.update s.page.threadFree q 0 } : Pages).row q = s.page.row q := by
      simp [Pages.row, hzero]
    refine ⟨⟨g, ?_, h.area, h.pos, h.bound⟩, fun _ _ => rfl⟩
    change InService s.os.mem (Pages.row _ q) g
    rw [hrow]
    exact hin
  · rename_i hne
    simp only [Option.bind_eq_bind, Option.bind_eq_some_iff] at hrun
    obtain ⟨⟨tail, n⟩, hwalk, hrun⟩ := hrun
    cases hrun
    rcases List.eq_nil_or_concat g.remote with hnil | ⟨rs, b, hremote⟩
    · have hchain := hin.remote
      rw [hnil] at hchain
      exact absurd (ptr_eq_none.mp (chain_nil.mp hchain)) hne
    · rw [List.concat_eq_append] at hremote
      obtain ⟨hwalk', hin'⟩ := hin.collect (by rw [harea]; exact h.bound) hremote
      change walkTail s.os.mem (s.page.capacity q) (s.page.threadFree q) 1 = _ at hwalk'
      rw [hwalk'] at hwalk
      cases hwalk
      obtain ⟨i, hi, heq⟩ := hin.exists_slot (a := tail) (Or.inr (Or.inl (by simp [hremote])))
      have hbounds := hin.slot_bounds hi
      have hpos := hin.block_size.2.1
      refine ⟨⟨{ g with free := g.remote ++ g.free, remote := [] }, ?_, h.area, h.pos, h.bound⟩,
        fun y hy => ?_⟩
      · convert hin' using 1 <;> simp [Pages.row]
      · refine writeWord_outside _ _ _ _ ?_
        unfold PageId.Spans at hy
        omega

/-- `page_extend` writes inside the page. -/
theorem Store.Workable.extend (h : s.Workable q g) (hx : ¬ q.Spans x) :
    (pageExtend s q).os.mem x = s.os.mem x := by
  have hin := h.inService
  have harea : (s.page.row q).area = q.start := h.area
  have hres : s.page.reserved q ≤ s.page.capacity q := hin.reserved
  have hcap : s.page.capacity q ≤ 4096 := hin.capacity_le
  have hrem : Word.sub 32 (s.page.capacity q) (s.page.reserved q) =
      s.page.capacity q - s.page.reserved q := Word.sub_eq (by omega) hres
  by_cases hfull : s.page.capacity q - s.page.reserved q = 0
  · rw [pageExtend_full (hrem.trans hfull)]
  · have hbatch := extendBatch_le (s.page.blockSize q) (s.page.capacity q - s.page.reserved q)
    have heq := fun mem head => pageExtend_room mem head hrem hfull
    generalize extendBatch (s.page.blockSize q) (s.page.capacity q - s.page.reserved q) = n
      at hbatch heq
    obtain ⟨mem', head, hloop, _, hsame⟩ := hin.extend (by rw [harea]; exact h.pos)
      (by rw [harea]; exact h.bound) (n := n)
      (show s.page.reserved q + n ≤ s.page.capacity q by omega)
    rw [heq mem' head hloop]
    refine hsame x ?_
    have hmul : (s.page.reserved q + n) * s.page.blockSize q ≤
        s.page.capacity q * s.page.blockSize q := Nat.mul_le_mul_right _ (by omega)
    have hfit : s.page.capacity q * s.page.blockSize q ≤ pageSize := by
      rw [show s.page.capacity q = pageSize / s.page.blockSize q from hin.capacity]
      exact Nat.div_mul_le_self _ _
    rw [Nat.add_mul] at hmul
    rw [PageState.block, harea]
    change x < q.start + s.page.reserved q * s.page.blockSize q ∨
      q.start + s.page.reserved q * s.page.blockSize q + n * s.page.blockSize q ≤ x
    unfold PageId.Spans at hx
    omega

/-- `page_make_available` writes inside the page. -/
theorem Store.Workable.makeAvailable (h : s.Workable q g) {available : Bool}
    (hrun : pageMakeAvailable s q = some (available, s')) (hx : ¬ q.Spans x) :
    s'.os.mem x = s.os.mem x := by
  unfold pageMakeAvailable at hrun
  split at hrun
  · cases hrun
    rfl
  · simp only [Option.bind_eq_bind, Option.bind_eq_some_iff] at hrun
    obtain ⟨s₁, hcollect, hrun⟩ := hrun
    obtain ⟨⟨g', h'⟩, hmem⟩ := h.collect hcollect
    split at hrun
    · cases hrun
      exact hmem x hx
    · split at hrun
      · cases hrun
        exact (h'.extend hx).trans (hmem x hx)
      · cases hrun
        exact hmem x hx

theorem pageMakeAvailable_ready {available : Bool} (hfree : s.page.free q ≠ 0)
    (hrun : pageMakeAvailable s q = some (available, s')) : s' = s := by
  unfold pageMakeAvailable at hrun
  rw [if_pos hfree] at hrun
  cases hrun
  rfl

/-- `deliver` writes inside the block. -/
theorem deliver_outside (t : Nat) (th : Thread) (r : Request) {b usable : Nat} (origin : Origin)
    (hsize : r.size ≤ usable) (hx : x < b ∨ b + usable ≤ x) :
    (deliver s t th r b usable origin).1.os.mem x = s.os.mem x := by
  cases ho : r.old with
  | none =>
      rw [deliver_of_new _ _ _ _ _ _ _ ho]
      exact deliver_mem _ _ _ _ _ hsize hx
  | some old =>
      obtain ⟨old, u⟩ := old
      rw [deliver_of_old _ _ _ _ _ _ _ ho]
      change copy _ b old _ x = _
      rw [copy_outside _ _ _ _ _ (by split <;> omega)]
      exact deliver_mem _ _ _ _ _ hsize hx

end Writes

/-- The page is the thread's to write: it is in a class list of its heap, or no heap
owns it and the thread is in the critical section of the central heap. -/
def Thread.WorksOn (s : Store) (th : Thread) (q : PageId) : Prop :=
  s.Holds th q ∨ IsPage (IsSegment s.os.regions) q ∧ (∀ k, s.page.owner q ≠ .heap k) ∧
    (th.pc.locks = true ∨ th.pc.locked = true)

/-- Where a byte lies that a step of thread `t` writes. -/
inductive ByteWritten (t : Nat) (th : Thread) (s s' : Store) (x : Nat) : Prop where
  /-- In a block that the thread works on. -/
  | block {p : Nat} {g : Grant} (hg : s.grants p = some g) (hthread : g.holder.thread = some t)
      (hlo : p ≤ x) (hhi : x < p + g.usable)
  /-- In a page that is its to write, and still is after the step. -/
  | page {q : PageId} (hq : IsPage (IsSegment s.os.regions) q) (hx : q.Spans x)
      (hworks : th.WorksOn s q)
      (hkept : (∃ k, th.heap = some k ∧ s'.page.owner q = .heap k) ∨ s'.central.mtx = some t)
      (hlist : s.Waits q x → th.collects s = some q)

section Written

variable {ps : PageSize} {o : Oracle} {s s' : Store} {G G' : Ghost} {t : Nat} {th th' : Thread}
  {q : PageId} {x : Nat}

theorem ByteWritten.own (hinv : Inv ps s G) {k c : Nat} (hheap : th.heap = some k)
    (hq : q ∈ G.cls k c) (hx : q.Spans x) (howner : s'.page.owner q = s.page.owner q)
    (hlist : s.Waits q x → th.collects s = some q) : ByteWritten t th s s' x := by
  obtain ⟨hpage, hheld⟩ := hinv.owner_held hq
  exact .page hpage hx (Or.inl ⟨hpage, k, hheap, hheld⟩)
    (Or.inl ⟨k, hheap, howner.trans hheld⟩) hlist

/-- The block that is delivered lies in the page that serves it. -/
theorem deliverBlock_written {s₁ : Store} {r : Request} {b : Nat}
    (hinv' : Inv ps (deliverBlock s₁ t th r q b).1 G')
    (hne : (deliverBlock s₁ t th r q b).1.os.mem x ≠ s₁.os.mem x) :
    (b ≤ x ∧ x < b + s₁.page.blockSize q) ∧ q.Spans x := by
  have hblock : ∃ g, (deliverBlock s₁ t th r q b).1.grants b = some g ∧ g.size = r.size ∧
      g.usable = s₁.page.blockSize q ∧ ∃ i, g.origin = .small q i := by
    unfold deliverBlock
    cases ho : r.old with
    | none =>
        rw [deliver_of_new _ _ _ _ _ _ _ ho]
        exact ⟨_, Function.update_self .., rfl, rfl, _, rfl⟩
    | some old =>
        obtain ⟨old, u⟩ := old
        rw [deliver_of_old _ _ _ _ _ _ _ ho]
        by_cases hb : b = old
        · subst hb
          exact ⟨_, (setHolder_self ..).trans (by rw [Function.update_self]; rfl), rfl, rfl, _, rfl⟩
        · exact ⟨_, (setHolder_of_ne _ _ hb).trans (Function.update_self ..), rfl, rfl, _, rfl⟩
  obtain ⟨g, hg, hsize, husable, i, horigin⟩ := hblock
  have hgrant := hinv'.smallGrant hg horigin
  have hfits := hgrant.size
  have hbounds := hgrant.bounds
  rw [hsize, husable] at hfits
  rw [husable] at hbounds
  have hin : b ≤ x ∧ x < b + s₁.page.blockSize q := by
    by_contra hout
    exact hne (deliver_outside t th r _ hfits (by omega))
  exact ⟨hin, by omega, by omega⟩

/-- `central_acquire_page` has a page: what is written lies in it. -/
theorem AcquireEnd.written {r : Request} {c : Nat} (h : AcquireEnd s t th r c s' th')
    (hinv : Inv ps s G) (hclass : c < numSizeClasses) (hinv' : Inv ps s' G')
    (hne : s'.os.mem x ≠ s.os.mem x) :
    ∃ k np, th.heap = some k ∧ freshPage s = some np ∧ np.Spans x ∧
      s'.page.owner np = .heap k := by
  have hmade : ∀ {k np s₁ s₂ available}, takePage s k c (classToSize c) = some (np, s₁) →
      pageMakeAvailable (linkFresh { s₁ with central := { s₁.central with mtx := none } } k c np)
        np = some (available, s₂) → freshPage s = some np ∧ s₂.page.owner np = .heap k ∧
          (¬ np.Spans x → s₂.os.mem x = s.os.mem x) := by
    intro k np s₁ s₂ available htake hmake
    obtain ⟨hfresh, howner⟩ := takePage_owner htake
    have hpage := (hinv.freshPage hfresh).1
    have hrange := hinv.area_range hpage
    have harea := (hinv.pages np hpage).area
    rw [harea] at hrange
    refine ⟨hfresh, ?_, fun hx => ?_⟩
    · rw [pageMakeAvailable_owner hmake]
      exact (congrFun howner np).trans (Function.update_self ..)
    · obtain ⟨b, seg, central, _, _, rfl⟩ := takePage_shape htake
      have hwork : Store.Workable (linkFresh { setUpPage { s with seg := seg, central := central }
          np k c (classToSize c) with central := { central with mtx := none } } k c np) np
          ⟨[], [], [], .held k c⟩ := by
        refine ⟨?_, harea, hrange.1, hrange.2⟩
        refine inService_fresh hclass ?_ ?_ ?_ ?_ ?_ ?_ ?_ ?_ ⟨rfl, rfl, rfl⟩ <;>
          exact Function.update_self ..
      exact hwork.makeAvailable hmake hx
  cases h with
  | @served k b np s₁ s₂ s₃ hheap htake hmake hpop =>
      obtain ⟨hfresh, howner, hmem⟩ := hmade htake hmake
      obtain ⟨_, _, rfl⟩ := pagePop_shape hpop
      refine ⟨k, np, hheap, hfresh, ?_, ?_⟩
      · by_contra hx
        refine hne (Eq.trans ?_ (hmem hx))
        by_contra hdeliver
        exact hx (deliverBlock_written hinv' hdeliver).2
      · exact (congrFun (congrArg Pages.owner (deliver_page ..)) np).trans howner
  | @failed k np s₁ s₂ hheap htake hmake =>
      obtain ⟨hfresh, howner, hmem⟩ := hmade htake hmake
      refine ⟨k, np, hheap, hfresh, ?_, ?_⟩
      · by_contra hx
        refine hne (Eq.trans ?_ (hmem hx))
        rw [(failAlloc_eq s₂ th r).1]
      · exact (congrFun (congrArg Pages.owner (failAlloc_page ..)) np).trans howner

theorem stepAfter_mem {after : After} (h : stepAfter s th after = some (s', th')) :
    s'.os = s.os := by
  cases after with
  | freed result =>
      cases h
      rfl
  | destroying c next =>
      simp only [stepAfter, Option.bind_eq_bind, Option.bind_eq_some_iff] at h
      obtain ⟨k, _, h⟩ := h
      obtain ⟨slot, pc, heq, _⟩ := destroyNext_shape
        { s with central := { s.central with mtx := none } } th k c next
      cases heq.symm.trans (Option.some.inj h)
      rfl
  | sweeping q c cur =>
      cases h
      rfl

theorem centralReleasePage_mem {dead : Option Nat} {s₁ : Store} {after : After}
    (hpool : centralReleasePage s q = some (s₁, dead))
    (h : afterPool s₁ t th dead after = some (s', th')) : s'.os = s.os := by
  have hos : s₁.os = s.os := by
    obtain ⟨seg, central, rfl⟩ := poolReturn_shape (show poolReturn _ q = _ from hpool)
    rfl
  cases dead with
  | none =>
      have hafter : s'.os = s₁.os := stepAfter_mem h
      exact hafter.trans hos
  | some b =>
      cases h
      exact hos

theorem sweepVisit_written {cur : Option PageId} {next : SweepNext} {g : PageGhost}
    (h : sweepVisit s cur q = some (s', next)) (hwork : s.Workable q g)
    (hne : s'.os.mem x ≠ s.os.mem x) : q.Spans x := by
  obtain ⟨s₁, hcollect, ⟨_, dead, _, hpool⟩ | ⟨_, rfl, _⟩⟩ := sweepVisit_cases h
  · by_contra hx
    obtain ⟨seg, central, rfl⟩ := poolReturn_shape hpool
    exact hne ((hwork.collect hcollect).2 x hx)
  · by_contra hx
    exact hne ((hwork.collect hcollect).2 x hx)

/-- A link in a block that the thread works on. -/
theorem ByteWritten.link (hinv : Inv ps s G) {p : Nat} {g : Grant} (hg : s.grants p = some g)
    (hthread : g.holder.thread = some t) {pg : PageId} {i v : Nat} (ho : g.origin = .small pg i)
    (hmem : s'.os.mem = writeWord s.os.mem p v) (hne : s'.os.mem x ≠ s.os.mem x) :
    ByteWritten t th s s' x := by
  have hwords := (hinv.smallGrant hg ho).two_words
  have hin : p ≤ x ∧ x < p + 8 := by
    by_contra hout
    refine hne ?_
    rw [hmem]
    exact writeWord_outside _ _ _ _ (by omega)
  exact .block hg hthread hin.1 (by omega)

end Written

section Steps

variable {ps : PageSize} {sys : System} {G G' : Ghost} {t : Nat} {o : Oracle} {s' : Store}
  {th' : Thread} {x : Nat}

/-- The block a thread frees is its own to write. -/
theorem SysInv.freeing_written (hinv : SysInv ps sys G) {p v : Nat}
    (hfreeing : (sys.threads t).pc.freeing = some p)
    (hsmall : ∀ g b, sys.store.grants p = some g → g.origin ≠ .large b)
    (hmem : s'.os.mem = writeWord sys.store.os.mem p v)
    (hne : s'.os.mem x ≠ sys.store.os.mem x) :
    ByteWritten t (sys.threads t) sys.store s' x := by
  obtain ⟨g, hg, hholder⟩ := ((hinv.threads t).holders p (.freeing t) rfl).mpr hfreeing
  cases ho : g.origin with
  | large b => exact absurd ho (hsmall g b hg)
  | small pg i =>
      exact ByteWritten.link hinv.data.inv hg (by rw [hholder]; rfl) ho hmem hne

/-- `central_acquire_page` at the end of a step. -/
theorem OwnStep.acquire_written (hown : OwnStep ps t sys G o s' th' G') (hinv : SysInv ps sys G)
    {s₀ : Store} {r : Request} {c : Nat} (hinv₀ : Inv ps s₀ G) (hclass : c < numSizeClasses)
    (hfresh : freshPage s₀ = freshPage sys.store)
    (hcentral : (sys.threads t).pc.locks = true ∨ (sys.threads t).pc.locked = true)
    (hend : AcquireEnd s₀ t (sys.threads t) r c s' th') (hne : s'.os.mem x ≠ s₀.os.mem x) :
    ByteWritten t (sys.threads t) sys.store s' x := by
  obtain ⟨k, np, hheap, hnp, hx, howner⟩ :=
    hend.written hinv₀ hclass hown.outcome.data.inv hne
  rw [hfresh] at hnp
  obtain ⟨hpage, hloc⟩ := hinv.data.inv.freshPage hnp
  have hnull : sys.store.page.owner np = .null := by
    rw [hinv.data.inv.owner_eq hinv.data.limbo hpage, hloc]
    rfl
  refine .page hpage hx (Or.inr ⟨hpage, by simp [hnull], hcentral⟩) (Or.inl ⟨k, hheap, howner⟩) ?_
  exact fun hwaits => absurd hwaits (hinv.data.inv.pool_not_waits hinv.data.limbo hpage hnull)

/-- A walk makes one page of its heap available, and takes a block from it if it can. -/
theorem SysInv.walk_written (hinv : SysInv ps sys G) {r : Request} {c : Nat} {p : PageId}
    {available : Bool} {s₁ : Store} (hpc : (sys.threads t).pc = .walk r c p)
    (hmake : pageMakeAvailable sys.store p = some (available, s₁))
    (howner : s'.page.owner p = sys.store.page.owner p)
    (hserve : s'.os.mem x ≠ s₁.os.mem x → p.Spans x ∧ s₁.page.free p ≤ x ∧
      x < s₁.page.free p + s₁.page.blockSize p)
    (hne : s'.os.mem x ≠ sys.store.os.mem x) : ByteWritten t (sys.threads t) sys.store s' x := by
  obtain ⟨k, hk, _, before, after, hsplit, _⟩ := (hinv.threads t).heap_at hpc rfl rfl
  have hp : p ∈ G.cls k c := by simp [hsplit]
  obtain ⟨hpage, hloc, _⟩ := hinv.data.inv.own_page hp
  have hspans : p.Spans x := by
    by_contra hx
    have hmade := (hinv.data.inv.workable hpage (by simp [hloc])).makeAvailable hmake hx
    exact hx (hserve (by rw [hmade]; exact hne)).1
  refine ByteWritten.own hinv.data.inv hk hp hspans howner fun hwaits => ?_
  by_cases hfree : sys.store.page.free p = 0
  · simp [Thread.collects, hpc, hfree]
  · -- The page had a free block: nothing else is written, and that one does not wait.
    obtain rfl := pageMakeAvailable_ready hfree hmake
    obtain ⟨_, hlo, hhi⟩ := hserve hne
    exact absurd hwaits
      (hinv.data.inv.free_not_waits hpage (hinv.data.inv.free_head_mem hp hfree) hlo hhi)

/-- A round of the sweep collects a page that has been abandoned. -/
theorem OwnStep.sweep_written (hown : OwnStep ps t sys G o s' th' G') (hinv : SysInv ps sys G)
    {r : Request} {c : Nat} {cur : Option PageId} {pg : PageId} {next : SweepNext}
    (hpc : (sys.threads t).pc = .sweep r c cur) (hread : cursorRead sys.store cur = some pg)
    (hvisit : sweepVisit sys.store cur pg = some (s', next)) (hlocked : th'.pc.locked = true)
    (hne : s'.os.mem x ≠ sys.store.os.mem x) : ByteWritten t (sys.threads t) sys.store s' x := by
  have hdata := hinv.data.inv
  have hcur : CursorOk G cur := ((hinv.threads t).lock_at hpc).2
  obtain ⟨before, after, hsplit, _⟩ := hdata.cursor_split hcur hread
  obtain ⟨hpage, hloc⟩ := (hdata.lists.places.abandoned pg).mp (by simp [hsplit])
  have howner : sys.store.page.owner pg = .abandoned := by
    rw [hdata.owner_eq hinv.data.limbo hpage, hloc]
    rfl
  have hspans := sweepVisit_written hvisit (hdata.workable hpage (by simp [hloc])) hne
  refine .page hpage hspans (Or.inr ⟨hpage, by simp [howner], Or.inr (by rw [hpc]; rfl)⟩)
    (Or.inr (hown.outcome.thread.mtx.mpr hlocked)) fun _ => ?_
  simp [Thread.collects, hpc, hread]

/-- Every byte that a step writes is one of these. -/
theorem OwnStep.written (hown : OwnStep ps t sys G o s' th' G') (hinv : SysInv ps sys G)
    (hx : sys.store.InRegion x) (hne : s'.os.mem x ≠ sys.store.os.mem x) :
    ByteWritten t (sys.threads t) sys.store s' x := by
  have hth := hinv.threads t
  have hdata := hinv.data.inv
  have hmapped := hx.mapped hdata.regions
  have hok := hown.ok
  have hinv' := hown.outcome.data.inv
  unfold StepOk at hok
  cases stepThread_cases hown.run with
  | idle | enterWalk | enterAcquire | linkHeap | lock | sweepMap | unregisterSegment | dropLarge
  | exchange | unlinkHeap => exact absurd rfl hne
  | createHeap hpc hheap hmap =>
      rw [hpc] at hok
      have hm := osAllocAligned_mapped (hok hheap) (heapBytes_lt ps) ps.bytes_lt hmap
      exact absurd (hm.mem_old x hmapped) hne
  | @serve r c k b s₁ hpc hheap hfree hpop =>
      have hserving : Serving sys.store G k none := hth.lists_at hpc rfl hheap
      have hmem := hserving.head_mem (c := c) fun hempty => hfree (hempty ▸ hdata.sentinel)
      have hpage := (hdata.owner_held hmem).1
      have howner := popDeliver_owner hpop t (sys.threads t) r
      obtain ⟨rfl, _, rfl⟩ := pagePop_shape hpop
      obtain ⟨⟨hlo, hhi⟩, hspans⟩ := deliverBlock_written hinv' hne
      refine ByteWritten.own hdata hheap hmem hspans (congrFun howner _) fun hwaits => ?_
      exact absurd hwaits (hdata.free_not_waits hpage (hdata.free_head_mem hmem hfree) hlo hhi)
  | @walkServe r c k b p s₁ s₂ hpc hheap hmake hpop =>
      have howner := (popDeliver_owner hpop t (sys.threads t) r).trans
        ((heapRotateToFront_owner ..).trans (pageMakeAvailable_owner hmake))
      refine hinv.walk_written hpc hmake (congrFun howner p) (fun hserve => ?_) hne
      obtain ⟨next, prev, slot, hrotate, _⟩ := heapRotateToFront_shape s₁ k c p
      rw [hrotate] at hpop
      obtain ⟨rfl, _, rfl⟩ := pagePop_shape hpop
      obtain ⟨⟨hlo, hhi⟩, hspans⟩ := deliverBlock_written hinv' hserve
      exact ⟨hspans, hlo, hhi⟩
  | walkNext hpc hmake | walkEnd hpc hmake =>
      exact hinv.walk_written hpc hmake (congrFun (pageMakeAvailable_owner hmake) _)
        (fun hsame => absurd rfl hsame) hne
  | acquire hpc havail hend =>
      exact hown.acquire_written hinv hdata (hth.args_at hpc).1 rfl (Or.inl (by rw [hpc]; rfl))
        hend hne
  | sweepOn hpc hread hvisit | sweepDrop hpc hread hvisit =>
      exact hown.sweep_written hinv hpc hread hvisit rfl hne
  | sweepAcquire hpc hread havail hend =>
      exact hown.acquire_written hinv hdata (hth.args_at hpc).1 rfl (Or.inr (by rw [hpc]; rfl))
        hend hne
  | segmentRefused hpc hmap =>
      rw [(failAlloc_eq _ _ _).1] at hne
      exact absurd rfl hne
  | @mapSegment r c b os hpc hmap =>
      rw [hpc] at hok
      have hm := osAllocAligned_mapped hok (by decide) (by decide) hmap
      have hav : sys.store.central.avail = none := (hth.lock_at hpc).2
      have hinit := initSegment_spec (s := { sys.store with os := os }) b hav
      have hout := hm.outside hmapped
      have hsize : sizeofSegment ≤ segmentSize := by decide
      refine absurd ?_ hne
      rw [hinit.rest]
      exact (fill_outside _ _ _ _ _ (by omega)).trans (hm.mem_old x hmapped)
  | @registerSegment r c b w reg _ _ hpc hreg hend =>
      rw [hpc] at hok
      obtain ⟨hinv₀, htables⟩ := hdata.register hreg (hok w reg hreg)
      refine hown.acquire_written hinv hinv₀ (hth.args_at hpc).1 rfl
        (Or.inr (by rw [hpc]; rfl)) hend ?_
      change s'.os.mem x ≠ w.os.mem x
      rw [hx.tables hdata.regions htables]
      exact hne
  | unmapSegment hpc hafter =>
      rw [stepAfter_mem hafter] at hne
      exact absurd (congrFun (osFree_mem ..) x) hne
  | largeRefused hpc hmap =>
      rw [(failAlloc_eq _ _ _).1] at hne
      exact absurd rfl hne
  | @mapLarge r offset mmapSize b os hpc hmap =>
      rw [hpc] at hok
      have hargs : LargeArgs r offset mmapSize := hth.args_at hpc
      have hm := osAllocAligned_mapped hok hargs.bound (by decide) hmap
      have hout := hm.outside hmapped
      have hlow := hargs.low
      have hfits := hargs.fits
      refine absurd ?_ hne
      exact (largeHeader_outside os.mem b mmapSize offset r.size (by omega)).trans
        (hm.mem_old x hmapped)
  | @registerLarge r offset mmapSize b w reg hpc hreg =>
      rw [hpc] at hok
      obtain ⟨_, htables⟩ := hdata.register hreg (hok w reg hreg)
      have hargs : LargeArgs r offset mmapSize := hth.args_at hpc
      have hfits := hargs.fits
      obtain ⟨g, hg, hholder⟩ := (hth.holders (b + offset) (.fresh t) rfl).mpr (by rw [hpc]; rfl)
      obtain ⟨hregion, g', hg', horigin⟩ := hth.pointers_at hpc
      cases hg.symm.trans hg'
      obtain ⟨size, offset', hregion', _, husable, _⟩ := hdata.grants.large _ _ b hg horigin
      cases hregion.symm.trans hregion'
      have hin : b + offset ≤ x ∧ x < b + offset + (mmapSize - offset) := by
        by_contra hout
        refine hne ((deliver_outside t _ r _ (by omega) (by omega)).trans ?_)
        exact hx.tables hdata.regions htables
      exact .block hg (by rw [hholder]; rfl) hin.1 (by omega)
  | freeLocal hpc hsmall | freeDrained hpc hsmall | freeRemote hpc hsmall =>
      refine hinv.freeing_written (by rw [hpc]; rfl) (fun g b hg ho => ?_) rfl hne
      rw [(hdata.decode_large hg ho).2] at hsmall
      cases hsmall
  | retry hpc =>
      obtain ⟨_, g, pg, i, hg, ho⟩ := hth.pointers_at hpc
      refine hinv.freeing_written (by rw [hpc]; rfl) (fun g' b hg' ho' => ?_) rfl hne
      cases hg.symm.trans hg'
      cases ho.symm.trans ho'
  | release hpc hunlink hpool hafter =>
      obtain ⟨_, rfl⟩ := unlinkEmpty_shape hunlink
      rw [centralReleasePage_mem hpool hafter] at hne
      exact absurd rfl hne
  | unmapLarge => exact absurd (congrFun (osFree_mem ..) x) hne
  | @destroy c p _ hpc hcollect =>
      obtain ⟨k, hk, hleaving⟩ := hth.heap_at hpc rfl rfl
      have hp : p ∈ G.cls k c := List.mem_of_head? hleaving.list.head_eq.symm
      obtain ⟨hpage, hloc, _⟩ := hdata.own_page hp
      have hspans : p.Spans x := by
        by_contra hout
        exact hne (((hdata.workable hpage (by simp [hloc])).collect hcollect).2 x hout)
      exact ByteWritten.own hdata hk hp hspans (congrFun (pageCollect_owner hcollect) p)
        fun _ => by simp [Thread.collects, hpc]
  | handRelease hpc _ hpool hafter =>
      rw [centralReleasePage_mem hpool hafter] at hne
      exact absurd rfl hne
  | handAbandon hpc _ hafter =>
      rw [stepAfter_mem hafter] at hne
      exact absurd rfl hne
  | unmapHeap => exact absurd (congrFun (osFree_mem ..) x) hne

end Steps

end HMalloc
