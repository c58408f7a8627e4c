import HMalloc.Classes
import HMalloc.System

/-!
What holds of a thread at each of its program counters, and what a step of
another thread leaves alone. `ThreadOk` is stated over the columns that only
the thread itself changes: its heap's class lists, the pointers it is working
on and, while it has the lock, the central heap. `StepFrame` says that a step
touches nothing of the sort that belongs to another thread, so that `ThreadOk`
of every other thread survives it (`ThreadOk.frame`).
-/

namespace HMalloc

open Bytes Linked

/-- The thread that works on a pointer. -/
def Holder.thread : Holder → Option Nat
  | .client => none
  | .moving t | .freeing t | .fresh t => some t

def After.request : After → Option Request
  | .sweeping q _ _ => some q
  | _ => none

/-- The request of the allocation call a thread is in. -/
def Pc.request : Pc → Option Request
  | .small q _ | .linkHeap q _ _ | .walk q _ _ | .acquire q _ | .sweep q _ _
  | .mapSegment q _ | .registerSegment q _ _ | .large q _ _ | .registerLarge q _ _ _ => some q
  | .unregisterSegment _ after | .unmapSegment _ after => after.request
  | _ => none

/-- The pointer a thread is freeing. -/
def Pc.freeing : Pc → Option Nat
  | .free p _ | .remote p _ _ | .unmapLarge p _ _ _ => some p
  | _ => none

def After.result : After → Option Nat
  | .freed result => ptr result
  | _ => none

/-- The block a thread has got and not yet returned. -/
def Pc.result : Pc → Option Nat
  | .registerLarge _ offset _ base => some (base + offset)
  | .free _ r | .remote _ _ r | .release _ r | .unmapLarge _ _ _ r => ptr r
  | .unregisterSegment _ after | .unmapSegment _ after => after.result
  | _ => none

/-- The pointers a thread works on, by program counter. -/
def Pc.Holds (pc : Pc) (p : Nat) : Holder → Prop
  | .client => False
  | .moving _ => ∃ q usable, pc.request = some q ∧ q.old = some (p, usable)
  | .freeing _ => pc.freeing = some p
  | .fresh _ => pc.result = some p

/-- A thread that is in no call works on no pointer. -/
theorem Pc.idle_holds {t p : Nat} {holder : Holder} (h : holder.thread = some t) :
    ¬ Pc.idle.Holds p holder := by
  intro hholds
  cases holder with
  | client => cases h
  | moving =>
      obtain ⟨q, usable, hq, _⟩ := hholds
      cases hq
  | freeing => cases hholds
  | fresh => cases hholds

/-- The program counters inside the critical section of the central heap. -/
def Pc.locked : Pc → Bool
  | .sweep _ _ _ | .mapSegment _ _ | .registerSegment _ _ _ | .unregisterSegment _ _
  | .unmapSegment _ _ => true
  | _ => false

/-- A request of size class `c`. -/
def SmallArgs (q : Request) (c : Nat) : Prop := c < numSizeClasses ∧ q.size ≤ classToSize c

/-- A request for a large region. -/
structure LargeArgs (q : Request) (offset mmapSize : Nat) : Prop where
  low : largeOffset ≤ offset
  aligned : allocAlign ∣ offset
  high : offset < segmentSize
  pos : 0 < q.size
  fits : offset + q.size ≤ mmapSize
  bound : mmapSize < 2 ^ 64

def After.Args : After → Prop
  | .freed _ => True
  | .destroying c _ => c < numSizeClasses
  | .sweeping q c _ => SmallArgs q c

/-- What holds of the arguments carried by a program counter. -/
def Pc.Args : Pc → Prop
  | .small q c | .linkHeap q c _ | .walk q c _ | .acquire q c | .sweep q c _
  | .mapSegment q c | .registerSegment q c _ => SmallArgs q c
  | .unregisterSegment _ after | .unmapSegment _ after => after.Args
  | .large q offset mmapSize | .registerLarge q offset mmapSize _ => LargeArgs q offset mmapSize
  | .destroy c _ | .hand c _ _ => c < numSizeClasses
  | _ => True

def After.needsHeap : After → Bool
  | .freed _ => false
  | _ => true

/-- The program counters of a thread that has a heap. -/
def Pc.needsHeap : Pc → Bool
  | .walk _ _ _ | .acquire _ _ | .sweep _ _ _ | .mapSegment _ _ | .registerSegment _ _ _
  | .release _ _ | .destroy _ _ | .hand _ _ _ | .unlinkHeap | .unmapHeap => true
  | .unregisterSegment _ after | .unmapSegment _ after => after.needsHeap
  | _ => false

/-- The heap `heap_create` has mapped and not yet linked. -/
def Pc.unlinked : Pc → Option Nat
  | .linkHeap _ _ h => some h
  | _ => none

/-- The address of the thread's heap, from its mapping to its unmapping. -/
def Thread.home (th : Thread) : Option Nat := th.pc.unlinked.or th.heap

/-- All blocks of a page of class `c` are in use. -/
def Store.Full (s : Store) (c : Nat) (pg : PageId) : Prop :=
  s.page.used pg = pageSize / classToSize c

/-- A heap that serves: its class lists are intact, and behind the head of a
list there is no page without blocks in use, except `drained`. -/
structure Serving (s : Store) (G : Ghost) (h : Nat) (drained : Option PageId) : Prop where
  lists : ∀ c, s.ClassList h c (G.cls h c)
  occupied : ∀ c, ∀ pg ∈ (G.cls h c).tail, some pg ≠ drained → s.page.used pg ≠ 0

/-- A heap that serves, all pages of class `c` full. -/
structure Filled (s : Store) (G : Ghost) (h c : Nat) : Prop extends Serving s G h none where
  full : ∀ pg ∈ G.cls h c, s.Full c pg

/-- A heap that is being destroyed and has come to page `head` of class `c`. -/
structure Leaving (s : Store) (G : Ghost) (h c : Nat) (head : Option PageId) : Prop where
  done : ∀ c' < c, G.cls h c' = []
  list : Chain s.page.next head (G.cls h c)
  todo : ∀ c' > c, s.ClassList h c' (G.cls h c')

def HeapAfter (s : Store) (G : Ghost) (h : Nat) : After → Prop
  | .freed _ => Serving s G h none
  | .destroying c next => Leaving s G h c next
  | .sweeping _ c _ => Filled s G h c

/-- The class lists of a thread's heap, by program counter. -/
def HeapOk (s : Store) (G : Ghost) (h : Nat) : Pc → Prop
  | .walk _ c p => Serving s G h none ∧ ∃ l r, G.cls h c = l ++ p :: r ∧ ∀ x ∈ l, s.Full c x
  | .acquire _ c | .sweep _ c _ | .mapSegment _ c | .registerSegment _ c _ => Filled s G h c
  | .unregisterSegment _ after | .unmapSegment _ after => HeapAfter s G h after
  | .release pg _ => Serving s G h (some pg) ∧ s.page.used pg = 0 ∧ ∃ c, pg ∈ (G.cls h c).tail
  | .destroy c p => Leaving s G h c (some p)
  | .hand c p next => Leaving s G h c (some p) ∧ s.page.next p = next
  | .unlinkHeap | .unmapHeap => ∀ c, G.cls h c = []
  | _ => Serving s G h none

/-- A pointer into a large region. -/
def LargeGrant (s : Store) (p b size offset : Nat) : Prop :=
  s.os.regions b = some ⟨size, .large offset⟩ ∧ ∃ g, s.grants p = some g ∧ g.origin = .large b

/-- What is known of the pointers a thread works on, by program counter. -/
def PointersOk (s : Store) : Pc → Prop
  | .registerLarge _ offset mmapSize b => LargeGrant s (b + offset) b mmapSize offset
  | .remote p head _ =>
      readWord s.os.mem p = head ∧ ∃ g pg i, s.grants p = some g ∧ g.origin = .small pg i
  | .unmapLarge p b size _ => ∃ offset, LargeGrant s p b size offset
  | _ => True

def CursorOk (G : Ghost) (cur : Option PageId) : Prop := ∀ q, cur = some q → q ∈ G.abandoned

def After.CursorOk (G : Ghost) : After → Prop
  | .sweeping _ _ cur => HMalloc.CursorOk G cur
  | _ => True

/-- The free pages are those of segment `b`, which has just been mapped. -/
structure Central.OnlyFree (central : Central) (b : Nat) : Prop where
  avail : central.avail = some b
  idle : central.freeSegments = 1
  pages : central.freePageCount = usablePagesPerSegment

/-- What a thread that has the lock knows of the central heap. -/
def LockOk (s : Store) (G : Ghost) : Pc → Prop
  | .sweep _ _ cur => G.dying = none ∧ CursorOk G cur
  | .mapSegment _ _ => G.dying = none ∧ s.central.avail = none
  | .registerSegment _ _ b =>
      G.dying = none ∧ s.central.OnlyFree b ∧ IsSegment s.os.regions b
  | .unregisterSegment b after | .unmapSegment b after =>
      G.dying = some b ∧ after.CursorOk G
  | _ => True

/-- The invariant of one thread. -/
structure ThreadOk (ps : PageSize) (s : Store) (G : Ghost) (t : Nat) (th : Thread) : Prop where
  args : th.pc.Args
  home : ∀ h size, s.os.regions h = some ⟨size, .heap t⟩ ↔
    size = heapBytes ps ∧ th.home = some h
  needs : th.pc.needsHeap = true → th.heap ≠ none
  unlinked : th.pc.unlinked ≠ none → th.heap = none
  lists : ∀ h, th.home = some h → HeapOk s G h th.pc
  holders : ∀ p holder, holder.thread = some t →
    ((∃ g, s.grants p = some g ∧ g.holder = holder) ↔ th.pc.Holds p holder)
  moved : ∀ q p usable g, th.pc.request = some q → q.old = some (p, usable) →
    s.grants p = some g → g.usable = usable
  pointers : PointersOk s th.pc
  mtx : s.central.mtx = some t ↔ th.pc.locked = true
  lock : LockOk s G th.pc

/-- The blocks of a page are the same in two states, but for its remote list. -/
structure SameBlocks (s : Store) (G : Ghost) (s' : Store) (G' : Ghost) (pg : PageId) : Prop where
  row : s'.page.row pg = { s.page.row pg with threadFree := s'.page.threadFree pg }
  free : (G'.page pg).free = (G.page pg).free

/-- The class lists of heap `h` are the same in two states. -/
structure SameLists (s : Store) (G : Ghost) (s' : Store) (G' : Ghost) (h : Nat) : Prop where
  slot : s'.slot h = s.slot h
  cls : G'.cls h = G.cls h
  pages : ∀ c, ∀ pg ∈ G.cls h c, s'.page.next pg = s.page.next pg ∧
    s'.page.prev pg = s.page.prev pg ∧ s'.page.used pg = s.page.used pg
  blocks : ∀ c, ∀ pg ∈ G.cls h c, SameBlocks s G s' G' pg

/-- What a step of thread `t` leaves alone. -/
structure StepFrame (t : Nat) (s : Store) (G : Ghost) (s' : Store) (G' : Ghost) : Prop where
  homes : ∀ u, u ≠ t → ∀ h size,
    (s'.os.regions h = some ⟨size, .heap u⟩ ↔ s.os.regions h = some ⟨size, .heap u⟩)
  lists : ∀ u, u ≠ t → ∀ h size, s.os.regions h = some ⟨size, .heap u⟩ → SameLists s G s' G' h
  holders : ∀ u, u ≠ t → ∀ p g, g.holder.thread = some u →
    (s'.grants p = some g ↔ s.grants p = some g)
  kept : ∀ p g, s.grants p = some g → g.holder ≠ .freeing t → ∃ g', s'.grants p = some g'
  same : ∀ p g g', s.grants p = some g → s'.grants p = some g' →
    g'.origin = g.origin ∧ g'.usable = g.usable
  bytes : ∀ p g, s.grants p = some g → g.holder ≠ .freeing t → g.holder ≠ .fresh t →
    ∀ x, p ≤ x → x < p + g.usable → s'.os.mem x = s.os.mem x
  lock : ∀ u, u ≠ t → s.central.mtx = some u → s'.central = s.central ∧
    G'.abandoned = G.abandoned ∧ G'.dying = G.dying ∧
    ∀ b, IsSegment s'.os.regions b ↔ IsSegment s.os.regions b
  unlocked : ∀ u, u ≠ t → s.central.mtx ≠ some u → s'.central.mtx ≠ some u

theorem SameBlocks.of_row {s s' : Store} {G G' : Ghost} {pg : PageId}
    (hrow : s'.page.row pg = s.page.row pg) (hfree : (G'.page pg).free = (G.page pg).free) :
    SameBlocks s G s' G' pg := by
  refine ⟨?_, hfree⟩
  rw [show s'.page.threadFree pg = s.page.threadFree pg from congrArg PageState.threadFree hrow]
  exact hrow

theorem SameBlocks.trans {s s' s'' : Store} {G G' G'' : Ghost} {pg : PageId}
    (h₁ : SameBlocks s G s' G' pg) (h₂ : SameBlocks s' G' s'' G'' pg) :
    SameBlocks s G s'' G'' pg where
  row := by rw [h₂.row, h₁.row]
  free := h₂.free.trans h₁.free

/-- The pages are as before. -/
theorem SameLists.of_pages {s s' : Store} {G G' : Ghost} {h : Nat} (hslot : s'.slot h = s.slot h)
    (hcls : G'.cls h = G.cls h) (hpage : s'.page = s.page) (hghost : G'.page = G.page) :
    SameLists s G s' G' h where
  slot := hslot
  cls := hcls
  pages := fun _ _ _ => by rw [hpage]; exact ⟨rfl, rfl, rfl⟩
  blocks := fun _ _ _ => .of_row (by rw [hpage]) (by rw [hghost])

theorem SameLists.refl (s : Store) (G : Ghost) (h : Nat) : SameLists s G s G h :=
  .of_pages rfl rfl rfl rfl

theorem SameLists.trans {s s' s'' : Store} {G G' G'' : Ghost} {h : Nat}
    (h₁ : SameLists s G s' G' h) (h₂ : SameLists s' G' s'' G'' h) : SameLists s G s'' G'' h where
  slot := h₂.slot.trans h₁.slot
  cls := h₂.cls.trans h₁.cls
  pages := fun c pg hpg => by
    obtain ⟨n₁, p₁, u₁⟩ := h₁.pages c pg hpg
    obtain ⟨n₂, p₂, u₂⟩ := h₂.pages c pg (by rw [h₁.cls]; exact hpg)
    exact ⟨n₂.trans n₁, p₂.trans p₁, u₂.trans u₁⟩
  blocks := fun c pg hpg =>
    (h₁.blocks c pg hpg).trans (h₂.blocks c pg (by rw [h₁.cls]; exact hpg))

theorem StepFrame.refl (t : Nat) (s : Store) (G : Ghost) : StepFrame t s G s G where
  homes := fun _ _ _ _ => Iff.rfl
  lists := fun _ _ _ _ _ => SameLists.refl s G _
  holders := fun _ _ _ _ _ => Iff.rfl
  kept := fun _ g hg _ => ⟨g, hg⟩
  same := fun p g g' hg hg' => by
    rw [hg] at hg'
    cases hg'
    exact ⟨rfl, rfl⟩
  bytes := fun _ _ _ _ _ _ _ _ => rfl
  lock := fun _ _ _ => ⟨rfl, rfl, rfl, fun _ => Iff.rfl⟩
  unlocked := fun _ _ h => h

/-- Frames compose as long as the first part leaves the pointers alone. -/
theorem StepFrame.trans {t : Nat} {s s' s'' : Store} {G G' G'' : Ghost}
    (h₁ : StepFrame t s G s' G') (h₂ : StepFrame t s' G' s'' G'') (hgrants : s'.grants = s.grants) :
    StepFrame t s G s'' G'' where
  homes := fun u hu h size => (h₂.homes u hu h size).trans (h₁.homes u hu h size)
  lists := fun u hu h size hh =>
    (h₁.lists u hu h size hh).trans (h₂.lists u hu h size ((h₁.homes u hu h size).mpr hh))
  holders := fun u hu p g hg => (h₂.holders u hu p g hg).trans (h₁.holders u hu p g hg)
  kept := fun p g hg hf => h₂.kept p g (by rw [hgrants]; exact hg) hf
  same := fun p g g' hg hg' => h₂.same p g g' (by rw [hgrants]; exact hg) hg'
  bytes := fun p g hg hf hr x hlo hhi =>
    (h₂.bytes p g (by rw [hgrants]; exact hg) hf hr x hlo hhi).trans
      (h₁.bytes p g hg hf hr x hlo hhi)
  lock := fun u hu hm => by
    obtain ⟨c₁, a₁, d₁, s₁⟩ := h₁.lock u hu hm
    obtain ⟨c₂, a₂, d₂, s₂⟩ := h₂.lock u hu (by rw [c₁]; exact hm)
    exact ⟨c₂.trans c₁, a₂.trans a₁, d₂.trans d₁, fun b => (s₂ b).trans (s₁ b)⟩
  unlocked := fun u hu hm => h₂.unlocked u hu (h₁.unlocked u hu hm)

section Frame

variable {s s' : Store} {G G' : Ghost} {h : Nat}

theorem SameLists.classList (hs : SameLists s G s' G' h) {c : Nat}
    (hl : s.ClassList h c (G.cls h c)) : s'.ClassList h c (G'.cls h c) := by
  rw [hs.cls]
  refine hl.congr (congrFun hs.slot c) ?_
  intro q hq
  obtain ⟨hn, hp, _⟩ := hs.pages c q hq
  exact ⟨hn, hp⟩

theorem Serving.frame {drained : Option PageId} (hv : Serving s G h drained)
    (hs : SameLists s G s' G' h) : Serving s' G' h drained where
  lists := fun c => hs.classList (hv.lists c)
  occupied := by
    intro c pg hpg hd
    rw [hs.cls] at hpg
    rw [(hs.pages c pg (List.mem_of_mem_tail hpg)).2.2]
    exact hv.occupied c pg hpg hd

theorem Filled.frame {c : Nat} (hf : Filled s G h c) (hs : SameLists s G s' G' h) :
    Filled s' G' h c where
  toServing := hf.toServing.frame hs
  full := by
    intro pg hpg
    rw [hs.cls] at hpg
    unfold Store.Full
    rw [(hs.pages c pg hpg).2.2]
    exact hf.full pg hpg

theorem Leaving.frame {c : Nat} {head : Option PageId} (hv : Leaving s G h c head)
    (hs : SameLists s G s' G' h) : Leaving s' G' h c head where
  done := fun c' hc => by rw [hs.cls]; exact hv.done c' hc
  list := by
    rw [hs.cls]
    exact hv.list.congr (fun q hq => (hs.pages c q hq).1)
  todo := fun c' hc => hs.classList (hv.todo c' hc)

theorem HeapAfter.frame {after : After} (hv : HeapAfter s G h after)
    (hs : SameLists s G s' G' h) : HeapAfter s' G' h after := by
  cases after with
  | freed r => exact Serving.frame hv hs
  | destroying c next => exact Leaving.frame hv hs
  | sweeping q c cur => exact Filled.frame hv hs

theorem HeapOk.frame {pc : Pc} (hv : HeapOk s G h pc) (hs : SameLists s G s' G' h) :
    HeapOk s' G' h pc := by
  cases pc with
  | walk q c p =>
      obtain ⟨hserve, l, r, hsplit, hfull⟩ := hv
      refine ⟨hserve.frame hs, l, r, by rw [hs.cls]; exact hsplit, ?_⟩
      intro x hx
      unfold Store.Full
      rw [(hs.pages c x (by rw [hsplit]; simp [hx])).2.2]
      exact hfull x hx
  | acquire q c => exact Filled.frame hv hs
  | sweep q c cur => exact Filled.frame hv hs
  | mapSegment q c => exact Filled.frame hv hs
  | registerSegment q c b => exact Filled.frame hv hs
  | unregisterSegment b after => exact HeapAfter.frame hv hs
  | unmapSegment b after => exact HeapAfter.frame hv hs
  | release pg r =>
      obtain ⟨hserve, hused, c, hmem⟩ := hv
      refine ⟨hserve.frame hs, ?_, c, by rw [hs.cls]; exact hmem⟩
      rw [(hs.pages c pg (List.mem_of_mem_tail hmem)).2.2]
      exact hused
  | destroy c p => exact Leaving.frame hv hs
  | hand c p next =>
      obtain ⟨hleave, hnext⟩ := hv
      refine ⟨hleave.frame hs, ?_⟩
      have hmem : p ∈ G.cls h c := List.mem_of_head? hleave.list.head_eq.symm
      rw [(hs.pages c p hmem).1]
      exact hnext
  | unlinkHeap =>
      intro c
      rw [hs.cls]
      exact hv c
  | unmapHeap =>
      intro c
      rw [hs.cls]
      exact hv c
  | idle => exact Serving.frame hv hs
  | small q c => exact Serving.frame hv hs
  | linkHeap q c a => exact Serving.frame hv hs
  | large q off m => exact Serving.frame hv hs
  | registerLarge q off m b => exact Serving.frame hv hs
  | free p r => exact Serving.frame hv hs
  | remote p hd r => exact Serving.frame hv hs
  | unmapLarge p b size r => exact Serving.frame hv hs

end Frame

/-- A pointer into a large region keeps the region. -/
theorem LargeGrant.frame {ps : PageSize} {s s' : Store} {G G' : Ghost} (hinv : Inv ps s G)
    (hinv' : Inv ps s' G') {p b size offset : Nat} (hl : LargeGrant s p b size offset)
    (hkeep : ∀ g, s.grants p = some g → s'.grants p = some g) : LargeGrant s' p b size offset := by
  obtain ⟨hreg, g, hg, ho⟩ := hl
  have hg' := hkeep g hg
  obtain ⟨size₁, offset₁, hreg₁, hp₁, hu₁, _⟩ := hinv.grants.large p g b hg ho
  obtain ⟨size₂, offset₂, hreg₂, hp₂, hu₂, _⟩ := hinv'.grants.large p g b hg' ho
  rw [hreg] at hreg₁
  cases hreg₁
  obtain ⟨_, _, _, _, hlt⟩ := hinv.regions.large b size offset hreg
  obtain ⟨_, _, _, _, hlt₂⟩ := hinv'.regions.large b size₂ offset₂ hreg₂
  obtain rfl : offset₂ = offset := by omega
  obtain rfl : size₂ = size := by omega
  exact ⟨hreg₂, g, hg', ho⟩

/-- The invariant of a thread survives the steps of the others. -/
theorem ThreadOk.frame {ps : PageSize} {s s' : Store} {G G' : Ghost} {t u : Nat} {th : Thread}
    (h : ThreadOk ps s G u th) (hinv : Inv ps s G) (hinv' : Inv ps s' G')
    (hf : StepFrame t s G s' G') (hu : u ≠ t) : ThreadOk ps s' G' u th where
  args := h.args
  home := fun a size => (hf.homes u hu a size).trans (h.home a size)
  needs := h.needs
  unlinked := h.unlinked
  lists := fun a ha =>
    (h.lists a ha).frame (hf.lists u hu a _ ((h.home a _).mpr ⟨rfl, ha⟩))
  holders := by
    intro p holder hholder
    rw [← h.holders p holder hholder]
    constructor
    · rintro ⟨g, hg, rfl⟩
      exact ⟨g, (hf.holders u hu p g hholder).mp hg, rfl⟩
    · rintro ⟨g, hg, rfl⟩
      exact ⟨g, (hf.holders u hu p g hholder).mpr hg, rfl⟩
  moved := by
    intro q p usable g hq hold hg
    obtain ⟨g₀, hg₀, hh⟩ := (h.holders p (.moving u) rfl).mpr ⟨q, usable, hq, hold⟩
    have hg₁ := (hf.holders u hu p g₀ (by rw [hh]; rfl)).mpr hg₀
    rw [hg] at hg₁
    cases hg₁
    exact h.moved q p usable g hq hold hg₀
  pointers := by
    -- The pointers in question are held by `u`, so they are untouched.
    have hkeep : ∀ p holder, holder.thread = some u → th.pc.Holds p holder →
        ∀ g, s.grants p = some g → s'.grants p = some g ∧ g.holder = holder := by
      intro p holder hh hholds g hg
      obtain ⟨g₀, hg₀, rfl⟩ := (h.holders p holder hh).mpr hholds
      rw [hg] at hg₀
      cases hg₀
      exact ⟨(hf.holders u hu p g hh).mpr hg, rfl⟩
    have hpointers := h.pointers
    cases hpc : th.pc with
    | registerLarge q offset mmapSize b =>
        rw [hpc] at hpointers
        exact hpointers.frame hinv hinv' (fun g hg =>
          (hkeep (b + offset) (.fresh u) rfl (by rw [hpc]; rfl) g hg).1)
    | remote p head r =>
        rw [hpc] at hpointers
        obtain ⟨hword, g, pg, i, hg, ho⟩ := hpointers
        obtain ⟨hg', hh⟩ := hkeep p (.freeing u) rfl (by rw [hpc]; rfl) g hg
        refine ⟨?_, g, pg, i, hg', ho⟩
        rw [← hword]
        apply readWord_congr
        intro x hlo hhi
        have hsize := (hinv.smallGrant hg ho).two_words
        refine hf.bytes p g hg ?_ ?_ x hlo (by omega)
        · rw [hh]
          simpa using hu
        · rw [hh]
          simp
    | unmapLarge p b size r =>
        rw [hpc] at hpointers
        obtain ⟨offset, hl⟩ := hpointers
        exact ⟨offset, hl.frame hinv hinv' (fun g hg =>
          (hkeep p (.freeing u) rfl (by rw [hpc]; rfl) g hg).1)⟩
    | idle | small | linkHeap | walk | acquire | sweep | mapSegment | registerSegment
    | unregisterSegment | unmapSegment | large | free | release | destroy | hand | unlinkHeap
    | unmapHeap => trivial
  mtx := by
    rw [← h.mtx]
    constructor
    · intro hm
      by_contra hne
      exact hf.unlocked u hu hne hm
    · intro hm
      rw [(hf.lock u hu hm).1]
      exact hm
  lock := by
    by_cases hm : s.central.mtx = some u
    · obtain ⟨hc, ha, hd, hseg⟩ := hf.lock u hu hm
      have hlock := h.lock
      cases hpc : th.pc with
      | sweep q c cur =>
          rw [hpc] at hlock
          exact ⟨hd.trans hlock.1, fun x hx => by rw [ha]; exact hlock.2 x hx⟩
      | mapSegment q c =>
          rw [hpc] at hlock
          exact ⟨hd.trans hlock.1, by rw [hc]; exact hlock.2⟩
      | registerSegment q c b =>
          rw [hpc] at hlock
          exact ⟨hd.trans hlock.1, by rw [hc]; exact hlock.2.1, (hseg b).mpr hlock.2.2⟩
      | unregisterSegment b after =>
          rw [hpc] at hlock
          refine ⟨hd.trans hlock.1, ?_⟩
          cases after with
          | sweeping q c cur => exact fun x hx => by rw [ha]; exact hlock.2 x hx
          | freed | destroying => trivial
      | unmapSegment b after =>
          rw [hpc] at hlock
          refine ⟨hd.trans hlock.1, ?_⟩
          cases after with
          | sweeping q c cur => exact fun x hx => by rw [ha]; exact hlock.2 x hx
          | freed | destroying => trivial
      | idle | small | linkHeap | walk | acquire | large | registerLarge | free | remote
      | release | unmapLarge | destroy | hand | unlinkHeap | unmapHeap => trivial
    · have hfree : th.pc.locked = false := by
        cases hl : th.pc.locked with
        | false => rfl
        | true => exact absurd (h.mtx.mpr hl) hm
      cases hpc : th.pc with
      | sweep | mapSegment | registerSegment | unregisterSegment | unmapSegment =>
          rw [hpc] at hfree
          cases hfree
      | idle | small | linkHeap | walk | acquire | large | registerLarge | free | remote
      | release | unmapLarge | destroy | hand | unlinkHeap | unmapHeap => trivial

/-- The invariant of the data, with every class list in a mapped heap and no
segment between lists while the lock is free. -/
structure Consistent (ps : PageSize) (s : Store) (G : Ghost) : Prop where
  inv : Inv ps s G
  limbo : G.limbo = none
  homes : ∀ h c, G.cls h c ≠ [] → ∃ t size, s.os.regions h = some ⟨size, .heap t⟩
  dying : s.central.mtx = none → G.dying = none

/-- The invariant of the system. -/
structure SysInv (ps : PageSize) (sys : System) (G : Ghost) : Prop where
  data : Consistent ps sys.store G
  threads : ∀ t, ThreadOk ps sys.store G t (sys.threads t)

/-- The blocks in use of class `c` of heap `h`, as `used` counts them. -/
def usedSum (s : Store) (G : Ghost) (h c : Nat) : Nat := ((G.cls h c).map s.page.used).sum

/-- A class list gets a page only when all its pages are full, and then a block
of the new page is taken at once. -/
def Growth (G : Ghost) (s' : Store) (G' : Ghost) : Prop :=
  ∀ h c, (G'.cls h c).length ≤ (G.cls h c).length ∨
    ((G'.cls h c).length = (G.cls h c).length + 1 ∧ s'.ClassList h c (G'.cls h c) ∧
      usedSum s' G' h c = (G.cls h c).length * (pageSize / classToSize c) + 1)

theorem Growth.of_cls {G G' : Ghost} (s' : Store) (h : G'.cls = G.cls) : Growth G s' G' :=
  fun _ _ => Or.inl (by rw [h])

/-- What is proved of a step of thread `t`. -/
structure Outcome (ps : PageSize) (t : Nat) (s : Store) (G : Ghost) (s' : Store) (G' : Ghost)
    (th' : Thread) : Prop where
  data : Consistent ps s' G'
  thread : ThreadOk ps s' G' t th'
  frame : StepFrame t s G s' G'
  growth : Growth G s' G'

/-- A step of one thread keeps the invariant of the system. -/
theorem SysInv.setThread {ps : PageSize} {sys : System} {G G' : Ghost} (h : SysInv ps sys G)
    {t : Nat} {s' : Store} {th' : Thread} (ho : Outcome ps t sys.store G s' G' th') :
    SysInv ps (sys.setThread t s' th') G' where
  data := ho.data
  threads := by
    intro u
    by_cases hu : u = t
    · subst hu
      change ThreadOk ps s' G' u (Function.update sys.threads u th' u)
      rw [Function.update_self]
      exact ho.thread
    · change ThreadOk ps s' G' u (Function.update sys.threads t th' u)
      rw [Function.update_of_ne hu]
      exact (h.threads u).frame h.data.inv ho.data.inv ho.frame hu

theorem SysInv.init (ps : PageSize) : SysInv ps System.init Ghost.init where
  data := ⟨Inv.init ps, rfl, fun h c hne => absurd rfl hne, fun _ => rfl⟩
  threads := by
    intro t
    refine ⟨trivial, ?_, ?_, ?_, ?_, ?_, ?_, trivial, ?_, trivial⟩
    · intro h size
      simp [System.init, Store.init, Os.init, Thread.init, Thread.home, Pc.unlinked]
    · intro hneeds
      cases hneeds
    · intro _
      rfl
    · intro h hh
      cases hh
    · intro p holder hholder
      constructor
      · rintro ⟨g, hg, _⟩
        cases hg
      · intro hholds
        exact absurd hholds (Pc.idle_holds hholder)
    · intro q p usable g hq
      cases hq
    · simp [System.init, Store.init, Thread.init, Pc.locked]

end HMalloc
