import HMalloc.Large
import HMalloc.SegmentMap
import HMalloc.ThreadInv

/-!
The frames of the operations a step is made of, and the two ways a thread's
invariant is taken to its next program counter: inside a call the thread works
on the same pointers as before (`ThreadOk.advance`), at the end of a call it
holds none (`ThreadOk.ret`).
-/

namespace HMalloc

open Bytes Linked

section Frames

variable {ps : PageSize} {s s' : Store} {G G' : Ghost} {t : Nat}

/-- A page is in the lists of one thread only. -/
theorem Inv.page_ne (hinv : Inv ps s G) {k c size : Nat} {pg : PageId} (hpg : pg ∈ G.cls k c)
    (hk : s.os.regions k = some ⟨size, .heap t⟩) {u h size' c' : Nat} (hu : u ≠ t)
    (hh : s.os.regions h = some ⟨size', .heap u⟩) {q : PageId} (hq : q ∈ G.cls h c') :
    q ≠ pg := by
  rintro rfl
  have h₁ := ((hinv.lists.places.cls k c q).mp hpg).2
  have h₂ := ((hinv.lists.places.cls h c' q).mp hq).2
  rw [h₁] at h₂
  cases h₂
  rw [hk] at hh
  cases hh
  exact hu rfl

/-- The pointers are as before. -/
theorem same_grants (hgrants : s'.grants = s.grants) :
    ∀ p g g', s.grants p = some g → s'.grants p = some g' →
      g'.origin = g.origin ∧ g'.usable = g.usable := by
  intro p g g' hg hg'
  rw [hgrants, hg] at hg'
  cases hg'
  exact ⟨rfl, rfl⟩

/-- An operation on a page of the thread's own heap. -/
theorem StepFrame.page (hinv : Inv ps s G) {pg : PageId} (hp : PageStep pg s s') {k c size : Nat}
    (hpg : pg ∈ G.cls k c) (hk : s.os.regions k = some ⟨size, .heap t⟩) (g : PageGhost) :
    StepFrame t s G s' (G.setPage pg g) where
  homes := fun u _ h size' => by rw [hp.regions]
  lists := fun u hu h size' hh => by
    refine ⟨by rw [hp.rest], rfl, fun c' q hq => ?_, fun c' q hq => ?_⟩
    · have hne := hinv.page_ne hpg hk hu hh hq
      exact ⟨congrFun hp.next q, congrFun hp.prev q, congrArg PageState.used (hp.row q hne)⟩
    · have hne := hinv.page_ne hpg hk hu hh hq
      exact .of_row (hp.row q hne) (by rw [Ghost.setPage_of_ne G g hne])
  holders := fun u _ p g' _ => by rw [hp.grants]
  kept := fun p g' hg _ => ⟨g', by rw [hp.grants]; exact hg⟩
  same := same_grants hp.grants
  bytes := fun p g' hg _ _ => hp.bytes p g' hg
  lock := fun u _ _ => ⟨by rw [hp.rest], rfl, rfl, fun b => by rw [hp.regions]⟩
  unlocked := fun u _ hm => by rw [hp.rest]; exact hm

/-- Moving a page that is in no class list of a heap keeps the heap's lists. -/
theorem MoveStep.sameLists {pg : PageId} {k : Nat} (hinv : Inv ps s G) (hm : MoveStep G pg s s')
    (hcls : G'.cls k = G.cls k) (hnot : ∀ c, pg ∉ G.cls k c)
    (hghost : ∀ q, q ≠ pg → G'.page q = G.page q) : SameLists s G s' G' k where
  slot := by rw [hm.rest]
  cls := hcls
  pages := by
    intro c x hx
    refine hm.links x (fun heq => hnot c (heq ▸ hx)) ?_
    rw [((hinv.lists.places.cls k c x).mp hx).2]
    simp
  blocks := by
    intro c x hx
    have hne : x ≠ pg := fun heq => hnot c (heq ▸ hx)
    exact .of_row (hm.row x hne) (by rw [hghost x hne])

/-- A page moves to or from the central heap, whose lock no other thread has. -/
theorem StepFrame.move {pg : PageId} (hinv : Inv ps s G) (hm : MoveStep G pg s s')
    (hother : ∀ u, u ≠ t → ∀ h size, s.os.regions h = some ⟨size, .heap u⟩ →
      G'.cls h = G.cls h ∧ ∀ c, pg ∉ G.cls h c)
    (hghost : ∀ q, q ≠ pg → G'.page q = G.page q)
    (hmtx : ∀ u, u ≠ t → s.central.mtx ≠ some u) : StepFrame t s G s' G' where
  homes := fun u _ h size => by rw [hm.regions]
  lists := fun u hu h size hh => by
    obtain ⟨hcls, hnot⟩ := hother u hu h size hh
    exact hm.sameLists hinv hcls hnot hghost
  holders := fun u _ p g _ => by rw [hm.grants]
  kept := fun p g hg _ => ⟨g, by rw [hm.grants]; exact hg⟩
  same := same_grants hm.grants
  bytes := fun p g hg _ _ => hm.bytes p g hg
  lock := fun u hu h => absurd h (hmtx u hu)
  unlocked := fun u hu _ => by rw [hm.mtx]; exact hmtx u hu

/-- The thread relinks one of its class lists. -/
theorem StepFrame.relink (hinv : Inv ps s G) {k c size : Nat}
    (hr : Relinked s s' k c (G.cls k c)) (hk : s.os.regions k = some ⟨size, .heap t⟩)
    (l : List PageId) : StepFrame t s G s' (G.setCls k c l) where
  homes := fun u _ h size' => by rw [hr.rest]
  lists := fun u hu h size' hh => by
    have hne : h ≠ k := by
      rintro rfl
      rw [hk] at hh
      cases hh
      exact hu rfl
    refine ⟨funext fun c' => hr.slot h c' (Or.inl hne), Function.update_of_ne hne .., ?_,
      fun c' q _ => .of_row (hr.row q) rfl⟩
    intro c' q hq
    have hq' : q ∉ G.cls k c := fun hmem => hinv.page_ne hmem hk hu hh hq rfl
    refine ⟨(hr.links q hq').1, (hr.links q hq').2, ?_⟩
    rw [hr.rest]
  holders := fun u _ p g _ => by rw [hr.rest]
  kept := fun p g hg _ => ⟨g, by rw [hr.rest]; exact hg⟩
  same := same_grants (by rw [hr.rest])
  bytes := fun p g hg _ _ x _ _ => by rw [hr.rest]
  lock := fun u _ _ => ⟨by rw [hr.rest], rfl, rfl, fun b => by rw [hr.rest]⟩
  unlocked := fun u _ hm => by rw [hr.rest]; exact hm

/-- The thread takes or gives back the lock. -/
theorem StepFrame.setMtx (G : Ghost) (mtx : Option Nat)
    (hm : ∀ u, u ≠ t → s.central.mtx ≠ some u) (hm' : ∀ u, u ≠ t → mtx ≠ some u) :
    StepFrame t s G { s with central := { s.central with mtx := mtx } } G where
  homes := fun _ _ _ _ => Iff.rfl
  lists := fun _ _ _ _ _ => .of_pages rfl rfl rfl rfl
  holders := fun _ _ _ _ _ => Iff.rfl
  kept := fun _ g hg _ => ⟨g, hg⟩
  same := same_grants rfl
  bytes := fun _ _ _ _ _ _ _ _ => rfl
  lock := fun u hu h => absurd h (hm u hu)
  unlocked := fun u hu _ => hm' u hu

/-- A step that changes the mapped regions, the registry, the heap registry and
the thread's own slots, and nothing in the lists. -/
theorem StepFrame.world (hpage : s'.page = s.page) (hcentral : s'.central = s.central)
    (hgrants : s'.grants = s.grants)
    (hregions : ∀ u, u ≠ t → ∀ h size,
      (s'.os.regions h = some ⟨size, .heap u⟩ ↔ s.os.regions h = some ⟨size, .heap u⟩))
    (hslot : ∀ u, u ≠ t → ∀ h size, s.os.regions h = some ⟨size, .heap u⟩ → s'.slot h = s.slot h)
    (hcls : G'.cls = G.cls) (hghost : G'.page = G.page)
    (hlock : ∀ u, u ≠ t → s.central.mtx = some u → G'.abandoned = G.abandoned ∧
      G'.dying = G.dying ∧ ∀ b, IsSegment s'.os.regions b ↔ IsSegment s.os.regions b)
    (hbytes : ∀ p g, s.grants p = some g → ∀ x, p ≤ x → x < p + g.usable →
      s'.os.mem x = s.os.mem x) : StepFrame t s G s' G' where
  homes := hregions
  lists := fun u hu h size hh =>
    .of_pages (hslot u hu h size hh) (congrFun hcls h) hpage hghost
  holders := fun _ _ _ _ _ => by rw [hgrants]
  kept := fun p g hg _ => ⟨g, by rw [hgrants]; exact hg⟩
  same := same_grants hgrants
  bytes := fun p g hg _ _ => hbytes p g hg
  lock := fun u hu h => ⟨hcentral, hlock u hu h⟩
  unlocked := fun u _ hm => by rw [hcentral]; exact hm

end Frames

section Threads

variable {ps : PageSize} {s s' : Store} {G G' : Ghost} {t : Nat} {th : Thread}

theorem Thread.home_of_linked {th : Thread} (h : th.pc.unlinked = none) : th.home = th.heap := by
  unfold Thread.home
  rw [h]
  rfl

/-- The heap of a thread is its home. -/
theorem ThreadOk.home_of_heap (h : ThreadOk ps s G t th) {k : Nat} (hk : th.heap = some k) :
    th.home = some k := by
  refine (Thread.home_of_linked ?_).trans hk
  by_contra hlink
  rw [h.unlinked hlink] at hk
  cases hk

theorem ThreadOk.args_at {pc : Pc} (h : ThreadOk ps s G t th) (hpc : th.pc = pc) : pc.Args :=
  hpc ▸ h.args

theorem ThreadOk.pointers_at {pc : Pc} (h : ThreadOk ps s G t th) (hpc : th.pc = pc) :
    PointersOk s pc :=
  hpc ▸ h.pointers

theorem ThreadOk.lock_at {pc : Pc} (h : ThreadOk ps s G t th) (hpc : th.pc = pc) : LockOk s G pc :=
  hpc ▸ h.lock

theorem ThreadOk.lists_at {pc : Pc} {k : Nat} (h : ThreadOk ps s G t th) (hpc : th.pc = pc)
    (hlink : pc.unlinked = none) (hheap : th.heap = some k) : HeapOk s G k pc := by
  subst hpc
  exact h.lists k ((Thread.home_of_linked hlink).trans hheap)

/-- The heap of a thread that works on it. -/
theorem ThreadOk.heap_at {pc : Pc} (h : ThreadOk ps s G t th) (hpc : th.pc = pc)
    (hneeds : pc.needsHeap = true) (hlink : pc.unlinked = none) :
    ∃ k, th.heap = some k ∧ HeapOk s G k pc := by
  have hne : th.heap ≠ none := h.needs (hpc ▸ hneeds)
  obtain ⟨k, hheap⟩ := Option.ne_none_iff_exists'.mp hne
  exact ⟨k, hheap, h.lists_at hpc hlink hheap⟩

/-- The heap of a thread that is not just creating it. -/
theorem ThreadOk.region (h : ThreadOk ps s G t th) (hlink : th.pc.unlinked = none) {a : Nat}
    (ha : th.heap = some a) : s.os.regions a = some ⟨heapBytes ps, .heap t⟩ :=
  (h.home a _).mpr ⟨rfl, (Thread.home_of_linked hlink).trans ha⟩

/-- The pointers a thread works on. -/
theorem ThreadOk.held (h : ThreadOk ps s G t th) {p : Nat} {g : Grant} (hg : s.grants p = some g)
    (hh : g.holder.thread = some t) :
    (g.holder = .moving t ∧ ∃ q u, th.pc.request = some q ∧ q.old = some (p, u)) ∨
      (g.holder = .freeing t ∧ th.pc.freeing = some p) ∨
      (g.holder = .fresh t ∧ th.pc.result = some p) := by
  have hholds := (h.holders p g.holder hh).mp ⟨g, hg, rfl⟩
  cases hg' : g.holder with
  | client =>
      rw [hg'] at hh
      cases hh
  | moving u =>
      rw [hg'] at hholds hh
      cases hh
      exact Or.inl ⟨rfl, hholds⟩
  | freeing u =>
      rw [hg'] at hholds hh
      cases hh
      exact Or.inr (Or.inl ⟨rfl, hholds⟩)
  | fresh u =>
      rw [hg'] at hholds hh
      cases hh
      exact Or.inr (Or.inr ⟨rfl, hholds⟩)

/-- What a thread holds depends on what its program counter says of its pointers. -/
theorem Pc.holds_congr {pc pc' : Pc} {p : Nat} (hrequest : pc'.request = pc.request)
    (hfreeing : pc'.freeing = pc.freeing) (hresult : pc.result = some p ↔ pc'.result = some p)
    (holder : Holder) : pc.Holds p holder ↔ pc'.Holds p holder := by
  cases holder with
  | client => exact Iff.rfl
  | moving =>
      change (∃ q usable, pc.request = some q ∧ _) ↔ ∃ q usable, pc'.request = some q ∧ _
      rw [hrequest]
  | freeing =>
      change pc.freeing = some p ↔ pc'.freeing = some p
      rw [hfreeing]
  | fresh => exact hresult

/-- The thread works on the same pointers at its next program counter. -/
theorem ThreadOk.holders_of {pc : Pc} (h : ThreadOk ps s G t th) (hgrants : s'.grants = s.grants)
    (hrequest : pc.request = th.pc.request) (hfreeing : pc.freeing = th.pc.freeing)
    (hresult : pc.result = th.pc.result) (p : Nat) (holder : Holder)
    (hholder : holder.thread = some t) :
    (∃ g, s'.grants p = some g ∧ g.holder = holder) ↔ pc.Holds p holder := by
  rw [hgrants, h.holders p holder hholder]
  exact Pc.holds_congr hrequest hfreeing (by rw [hresult]) holder

/-- The thread is given a pointer that nobody had. -/
theorem ThreadOk.holders_granted {pc : Pc} {p₀ : Nat} {g₀ : Grant} (h : ThreadOk ps s G t th)
    (hnone : s.grants p₀ = none) (hfresh : g₀.holder = .fresh t)
    (hrequest : pc.request = th.pc.request) (hfreeing : pc.freeing = th.pc.freeing)
    (hold : th.pc.result = none) (hresult : pc.result = some p₀) (p : Nat) (holder : Holder)
    (hholder : holder.thread = some t) :
    (∃ g, Function.update s.grants p₀ (some g₀) p = some g ∧ g.holder = holder) ↔
      pc.Holds p holder := by
  have hheld := h.holders p holder hholder
  by_cases hp : p = p₀
  · rw [hp, hnone] at hheld
    rw [hp, Function.update_self]
    constructor
    · rintro ⟨g, hg, rfl⟩
      cases hg
      rw [hfresh]
      exact hresult
    · intro hholds
      cases holder with
      | client => cases hholder
      | moving u =>
          obtain ⟨q, usable, hq, ho⟩ := hholds
          obtain ⟨_, hg, _⟩ := hheld.mpr ⟨q, usable, hrequest ▸ hq, ho⟩
          cases hg
      | freeing u =>
          obtain ⟨_, hg, _⟩ := hheld.mpr (hfreeing.symm.trans hholds)
          cases hg
      | fresh u =>
          obtain rfl : u = t := Option.some.inj hholder
          exact ⟨g₀, rfl, hfresh⟩
  · rw [Function.update_of_ne hp, hheld]
    refine Pc.holds_congr hrequest hfreeing ?_ holder
    rw [hold, hresult]
    exact ⟨(fun hf => by cases hf), fun hf => absurd (Option.some.inj hf).symm hp⟩

/-- The pointer of a large region that is not registered yet. -/
theorem ThreadOk.large_grant (h : ThreadOk ps s G t th) (hinv : Inv ps s G) {q : Request}
    {offset mmapSize b : Nat} (hpc : th.pc = .registerLarge q offset mmapSize b) :
    ∃ g, s.grants (b + offset) = some g ∧ g.holder = .fresh t ∧ g.origin = .large b ∧
      g.usable = mmapSize - offset := by
  obtain ⟨hb, g, hg, ho⟩ : LargeGrant s (b + offset) b mmapSize offset := h.pointers_at hpc
  obtain ⟨g', hg', hfresh⟩ := (h.holders (b + offset) (.fresh t) rfl).mpr (by rw [hpc]; rfl)
  rw [hg] at hg'
  cases hg'
  obtain ⟨size, offset', hb', _, husable, _⟩ := hinv.grants.large _ g b hg ho
  rw [hb] at hb'
  cases hb'
  exact ⟨g, hg, hfresh, ho, husable⟩

/-- The thread goes on inside its call. -/
theorem ThreadOk.advance {pc : Pc} (h : ThreadOk ps s G t th)
    (hregions : ∀ a size, s'.os.regions a = some ⟨size, .heap t⟩ ↔
      s.os.regions a = some ⟨size, .heap t⟩)
    (hgrants : s'.grants = s.grants) (hlink : th.pc.unlinked = none) (hlink' : pc.unlinked = none)
    (hrequest : pc.request = th.pc.request) (hfreeing : pc.freeing = th.pc.freeing)
    (hresult : pc.result = th.pc.result) (hargs : pc.Args)
    (hneeds : pc.needsHeap = true → th.heap ≠ none)
    (hlists : ∀ a, th.heap = some a → HeapOk s' G' a pc) (hpointers : PointersOk s' pc)
    (hmtx : s'.central.mtx = some t ↔ pc.locked = true) (hlock : LockOk s' G' pc) :
    ThreadOk ps s' G' t { th with pc := pc } where
  args := hargs
  home := by
    intro a size
    rw [hregions, h.home, Thread.home_of_linked hlink, Thread.home_of_linked hlink']
  needs := hneeds
  unlinked := fun hne => absurd hlink' hne
  lists := by
    intro a ha
    rw [Thread.home_of_linked hlink'] at ha
    exact hlists a ha
  holders := h.holders_of hgrants hrequest hfreeing hresult
  moved := by
    intro q p usable g hq
    rw [hgrants]
    exact h.moved q p usable g (hrequest.symm.trans hq)
  pointers := hpointers
  mtx := hmtx
  lock := hlock

/-- The thread's call is over. -/
theorem ThreadOk.ret (h : ThreadOk ps s G t th) (result : Nat)
    (hregions : ∀ a size, s'.os.regions a = some ⟨size, .heap t⟩ ↔
      s.os.regions a = some ⟨size, .heap t⟩)
    (hlink : th.pc.unlinked = none) (hnone : ∀ p g, s'.grants p = some g → g.holder.thread ≠ some t)
    (hlists : ∀ a, th.heap = some a → Serving s' G' a none) (hmtx : s'.central.mtx ≠ some t) :
    ThreadOk ps s' G' t (th.ret result) where
  args := trivial
  home := by
    intro a size
    rw [hregions, h.home, Thread.home_of_linked hlink]
    exact Iff.rfl
  needs := fun hneeds => by cases hneeds
  unlinked := fun hne => absurd rfl hne
  lists := hlists
  holders := by
    intro p holder hholder
    constructor
    · rintro ⟨g, hg, hh⟩
      exact absurd (hh ▸ hholder) (hnone p g hg)
    · intro hholds
      exact absurd hholds (Pc.idle_holds hholder)
  moved := fun q p usable g hq => by cases hq
  pointers := trivial
  mtx := ⟨fun hm => absurd hm hmtx, fun hl => by cases hl⟩
  lock := trivial

end Threads

end HMalloc
