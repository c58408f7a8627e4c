import HMalloc.SlowPath

/-!
What follows the release of a page: the end of `hm_free`, the next page or
class of `heap_destroy`, or the next round of the sweep. `Finishing` is what a
thread brings there, from the page it has released or from the segment it has
unmapped.
-/

namespace HMalloc

open Bytes Linked

section FinishFree

variable {ps : PageSize} {s₀ s : Store} {G₀ G : Ghost} {t : Nat} {th : Thread}

/-- `hm_free` or `hm_realloc` returns: the thread holds at most the block it
returns, which becomes the client's. -/
theorem finishFree_spec (h : ThreadOk ps s₀ G₀ t th)
    (hregions : ∀ a size, s.os.regions a = some ⟨size, .heap t⟩ ↔
      s₀.os.regions a = some ⟨size, .heap t⟩)
    (hlink : th.pc.unlinked = none) (hinv : Inv ps s G) {result : Nat}
    (hown : ∀ p g, s.grants p = some g → g.holder.thread = some t →
      g.holder = .fresh t ∧ ptr result = some p)
    (hresult : result ≠ 0 → ∃ g, s.grants result = some g ∧ g.holder = .fresh t)
    (hlists : ∀ a, th.heap = some a → Serving s G a none) (hmtx : s.central.mtx ≠ some t) :
    Inv ps (finishFree s th result).1 G ∧
      ThreadOk ps (finishFree s th result).1 G t (finishFree s th result).2 ∧
      StepFrame t s G (finishFree s th result).1 G := by
  unfold finishFree
  by_cases hzero : result = 0
  · rw [if_pos hzero]
    refine ⟨hinv, h.ret result hregions hlink ?_ hlists hmtx, StepFrame.refl t s G⟩
    intro p g hg hh
    have := (hown p g hg hh).2
    rw [hzero] at this
    cases this
  · rw [if_neg hzero]
    obtain ⟨g₀, hg₀, hfresh⟩ := hresult hzero
    refine h.handBack result hregions hlink hinv hg₀ (by rw [hfresh]; rfl) ?_ hlists hmtx
    intro p g hg hh
    exact (ptr_eq_some.mp (hown p g hg hh).2).1.symm

end FinishFree

section Scan

variable {ps : PageSize} {s : Store} {G : Ghost} {k : Nat}

/-- A class beyond the last one has no pages. -/
theorem Inv.cls_nil (h : Inv ps s G) {c : Nat} (hc : numSizeClasses ≤ c) : G.cls k c = [] := by
  by_contra hne
  obtain ⟨x, hx⟩ := List.exists_mem_of_ne_nil _ hne
  have := (h.own_page hx).2.2.2.2.2
  omega

/-- The program counters `heap_destroy` goes to: the next page, or the end. -/
structure NextPc (s : Store) (G : Ghost) (k : Nat) (pc : Pc) : Prop where
  unlinked : pc.unlinked = none
  request : pc.request = none
  freeing : pc.freeing = none
  result : pc.result = none
  args : pc.Args
  needs : pc.needsHeap = true
  locked : pc.locked = false
  lists : HeapOk s G k pc
  pointers : PointersOk s pc
  lock : LockOk s G pc

/-- The scan of `heap_destroy` stops at the next class with pages. -/
theorem scanClasses_spec (h : Inv ps s G) {n c : Nat} (hn : n + c = numSizeClasses)
    (hdone : ∀ c' < c, G.cls k c' = []) (htodo : ∀ c' ≥ c, s.ClassList k c' (G.cls k c')) :
    NextPc s G k (scanClasses s k n c) := by
  induction n generalizing c with
  | zero =>
      refine ⟨rfl, rfl, rfl, rfl, trivial, rfl, rfl, ?_, trivial, trivial⟩
      intro c'
      by_cases hc : c' < c
      · exact hdone c' hc
      · exact h.cls_nil (by omega)
  | succ n ih =>
      unfold scanClasses
      have hclass := htodo c (Nat.le_refl c)
      by_cases hslot : s.slot k c = emptyPage
      · rw [if_pos hslot]
        have hnil : G.cls k c = [] := by
          unfold Store.ClassList Store.classHead at hclass
          rw [if_pos hslot] at hclass
          exact (DList.toChain hclass).nil_of_none
        refine ih (by omega) ?_ (fun c' hc => htodo c' (by omega))
        intro c' hc
        by_cases heq : c' = c
        · rw [heq]
          exact hnil
        · exact hdone c' (by omega)
      · rw [if_neg hslot]
        refine ⟨rfl, rfl, rfl, rfl, (by omega : c < numSizeClasses), rfl, rfl, ?_, trivial, trivial⟩
        refine ⟨hdone, ?_, fun c' hc => htodo c' (by omega)⟩
        have hchain := DList.toChain hclass
        rwa [Store.classHead_eq hslot rfl] at hchain

end Scan

section After

variable {ps : PageSize} {s : Store} {G : Ghost} {t : Nat} {th : Thread} {after : After}

/-- What a thread brings to `stepAfter`; `dead` is the segment that is still to
be unmapped. -/
structure Finishing (ps : PageSize) (s : Store) (G : Ghost) (t : Nat) (th : Thread)
    (after : After) (dead : Option Nat) : Prop where
  ok : ∃ s₀ G₀, ThreadOk ps s₀ G₀ t th ∧ s.grants = s₀.grants ∧
    ∀ a size, s.os.regions a = some ⟨size, .heap t⟩ ↔ s₀.os.regions a = some ⟨size, .heap t⟩
  linked : th.pc.unlinked = none
  request : th.pc.request = after.request
  freeing : th.pc.freeing = none
  result : th.pc.result = after.result
  args : after.Args
  needs : after.needsHeap = true → th.heap ≠ none
  lists : ∀ a, th.heap = some a → HeapAfter s G a after
  cursor : after.CursorOk G
  dying : G.dying = dead
  mtx : ∀ u, u ≠ t → s.central.mtx ≠ some u

/-- The end of `hm_free`. -/
theorem after_freed {result : Nat} (hinv : Inv ps s G) (hlimbo : G.limbo = none)
    (hhomes : ∀ h c, G.cls h c ≠ [] → ∃ u size, s.os.regions h = some ⟨size, .heap u⟩)
    (hf : Finishing ps s G t th (.freed result) none) :
    Outcome ps t s G
      (finishFree { s with central := { s.central with mtx := none } } th result).1 G
      (finishFree { s with central := { s.central with mtx := none } } th result).2 := by
  obtain ⟨s₀, G₀, hok, hgrants, hregions⟩ := hf.ok
  have hown : ∀ p g, s.grants p = some g → g.holder.thread = some t →
      g.holder = .fresh t ∧ ptr result = some p := by
    intro p g hg hh
    rw [hgrants] at hg
    rcases hok.held hg hh with ⟨_, q, u, hq, _⟩ | ⟨_, hfr⟩ | ⟨hfresh, hr⟩
    · cases hf.request.symm.trans hq
    · cases hf.freeing.symm.trans hfr
    · exact ⟨hfresh, hf.result.symm.trans hr⟩
  have hresult : result ≠ 0 → ∃ g, s.grants result = some g ∧ g.holder = .fresh t := by
    intro hne
    rw [hgrants]
    exact (hok.holders result (.fresh t) rfl).mpr (hf.result.trans (ptr_of_ne hne))
  obtain ⟨hinv', hthread, hframe⟩ := finishFree_spec
    (s := { s with central := { s.central with mtx := none } }) hok hregions hf.linked
    (hinv.setMtx none) hown hresult
    (fun a ha => by
      obtain ⟨hl, ho⟩ := hf.lists a ha
      exact ⟨hl, ho⟩) (by simp)
  refine ⟨⟨hinv', hlimbo, hhomes, fun _ => hf.dying⟩, hthread, ?_, Growth.of_cls _ rfl⟩
  exact (StepFrame.setMtx G none hf.mtx (fun _ _ => by simp)).trans hframe rfl

theorem destroyNext_page (s : Store) (th : Thread) (k c : Nat) {p : PageId} (hp : p ≠ emptyPage) :
    destroyNext s th k c (some p) = (s, { th with pc := .destroy c p }) := if_pos hp

/-- `heap_destroy` goes on. -/
theorem after_destroying {c k : Nat} {next : Option PageId} (hinv : Inv ps s G)
    (hlimbo : G.limbo = none)
    (hhomes : ∀ h c, G.cls h c ≠ [] → ∃ u size, s.os.regions h = some ⟨size, .heap u⟩)
    (hf : Finishing ps s G t th (.destroying c next) none) (hheap : th.heap = some k) :
    Outcome ps t s G
      (destroyNext { s with central := { s.central with mtx := none } } th k c next).1 G
      (destroyNext { s with central := { s.central with mtx := none } } th k c next).2 := by
  obtain ⟨s₀, G₀, hok, hgrants, hregions⟩ := hf.ok
  obtain ⟨hdone, hlist, htodo⟩ : Leaving s G k c next := hf.lists k hheap
  have hregion : s.os.regions k = some ⟨heapBytes ps, .heap t⟩ :=
    (hregions k _).mpr (hok.region hf.linked hheap)
  have hframe₁ := StepFrame.setMtx (t := t) (s := s) G none hf.mtx (fun _ _ => by simp)
  have hpass : ∀ (s' : Store) (pc : Pc), s'.grants = s.grants → s'.os = s.os →
      s'.central.mtx = none → NextPc s' G k pc → ThreadOk ps s' G t { th with pc := pc } := by
    intro s' pc hg hos hm hnext
    refine hok.advance ?_ (hg.trans hgrants) hf.linked hnext.unlinked
      (hnext.request.trans hf.request.symm) (hnext.freeing.trans hf.freeing.symm)
      (hnext.result.trans hf.result.symm) hnext.args (fun _ => by rw [hheap]; simp) ?_
      hnext.pointers ?_ hnext.lock
    · intro a size
      rw [hos]
      exact hregions a size
    · intro a ha
      rw [hheap] at ha
      cases ha
      exact hnext.lists
    · rw [hm, hnext.locked]
      simp
  -- The class is done, or there was nothing left of it.
  have hend : G.cls k c = [] → Outcome ps t s G
      (destroyNext.endClass { s with central := { s.central with mtx := none } } th k c).1 G
      (destroyNext.endClass { s with central := { s.central with mtx := none } } th k c).2 := by
    intro hnil
    have hslot : ∀ c', c' ≠ c →
        Function.update s.slot k (Function.update (s.slot k) c emptyPage) k c' = s.slot k c' :=
      fun c' hc => update_update_of_ne s.slot _ (Or.inr hc)
    have hinv' := (hinv.setMtx none).setSlot
      (Function.update s.slot k (Function.update (s.slot k) c emptyPage))
    refine ⟨⟨hinv', hlimbo, hhomes, fun _ => hf.dying⟩, ?_, ?_, Growth.of_cls _ rfl⟩
    · refine hpass _ _ rfl rfl rfl (scanClasses_spec hinv' ?_ ?_ ?_)
      · have hlt : c < numSizeClasses := hf.args
        omega
      · intro c' hc
        by_cases heq : c' = c
        · rw [heq]
          exact hnil
        · exact hdone c' (by omega)
      · intro c' hc
        exact (htodo c' (by omega)).congr (hslot c' (by omega)) (fun _ _ => ⟨rfl, rfl⟩)
    · refine hframe₁.trans (StepFrame.world rfl rfl rfl (fun _ _ _ _ => Iff.rfl) ?_ rfl rfl
        (fun _ _ _ => ⟨rfl, rfl, fun _ => Iff.rfl⟩) (fun _ _ _ _ _ _ => rfl)) rfl
      intro u hu a size ha
      refine Function.update_of_ne ?_ ..
      rintro rfl
      cases hregion.symm.trans ha
      exact hu rfl
  cases next with
  | none => exact hend hlist.nil_of_none
  | some p =>
      have hmem : p ∈ G.cls k c := List.mem_of_head? hlist.head_eq.symm
      rw [destroyNext_page _ th k c (hinv.own_page hmem).2.2.1]
      refine ⟨⟨hinv.setMtx none, hlimbo, hhomes, fun _ => hf.dying⟩, ?_, hframe₁,
        Growth.of_cls _ rfl⟩
      exact hpass _ _ rfl rfl rfl ⟨rfl, rfl, rfl, rfl, hf.args, rfl, rfl, ⟨hdone, hlist, htodo⟩,
        trivial, trivial⟩

/-- What follows the release of a page. -/
theorem after_outcome (hinv : Inv ps s G) (hlimbo : G.limbo = none)
    (hhomes : ∀ h c, G.cls h c ≠ [] → ∃ u size, s.os.regions h = some ⟨size, .heap u⟩)
    (hf : Finishing ps s G t th after none)
    (hlocked : ∀ q c cur, after = .sweeping q c cur → s.central.mtx = some t) {s' : Store}
    {th' : Thread} (hrun : stepAfter s th after = some (s', th')) :
    ∃ G', Outcome ps t s G s' G' th' := by
  cases after with
  | freed result =>
      cases hrun
      exact ⟨G, after_freed hinv hlimbo hhomes hf⟩
  | destroying c next =>
      obtain ⟨k, hheap⟩ := Option.ne_none_iff_exists'.mp (hf.needs rfl)
      have hrun' : some (destroyNext { s with central := { s.central with mtx := none } } th k c
          next) = some (s', th') := by
        rw [← hrun]
        have hbind : ∀ f : Nat → Option (Store × Thread), th.heap.bind f = f k := by
          intro f
          rw [hheap]
          rfl
        simp only [stepAfter, Option.bind_eq_bind, hbind]
        rfl
      have hout := after_destroying hinv hlimbo hhomes hf hheap
      rw [Option.some.inj hrun'] at hout
      exact ⟨G, hout⟩
  | sweeping q c cur =>
      cases hrun
      obtain ⟨s₀, G₀, hok, hgrants, hregions⟩ := hf.ok
      have hmtx := hlocked q c cur rfl
      refine ⟨G, ⟨hinv, hlimbo, hhomes, fun _ => hf.dying⟩, ?_, StepFrame.refl t s G,
        Growth.of_cls _ rfl⟩
      exact hok.advance hregions hgrants hf.linked rfl hf.request.symm hf.freeing.symm
        hf.result.symm hf.args (fun _ => hf.needs rfl) hf.lists trivial
        ⟨fun _ => rfl, fun _ => hmtx⟩ ⟨hf.dying, hf.cursor⟩

/-- A page has been returned to the pool outside a sweep. -/
theorem afterPool_outcome {dead : Option Nat} (hinv : Inv ps s G) (hlimbo : G.limbo = none)
    (hhomes : ∀ h c, G.cls h c ≠ [] → ∃ u size, s.os.regions h = some ⟨size, .heap u⟩)
    (hf : Finishing ps s G t th after dead) (hafter : ∀ q c cur, after ≠ .sweeping q c cur)
    {s' : Store} {th' : Thread} (hrun : afterPool s t th dead after = some (s', th')) :
    ∃ G', Outcome ps t s G s' G' th' := by
  cases dead with
  | none =>
      exact after_outcome hinv hlimbo hhomes hf (fun q c cur heq => absurd heq (hafter q c cur))
        hrun
  | some b =>
      cases hrun
      obtain ⟨s₀, G₀, hok, hgrants, hregions⟩ := hf.ok
      refine ⟨G, ⟨hinv.setMtx _, hlimbo, hhomes, fun hnone => by cases hnone⟩, ?_,
        StepFrame.setMtx G (some t) hf.mtx (fun u hu heq => hu (Option.some.inj heq).symm),
        Growth.of_cls _ rfl⟩
      refine hok.advance hregions hgrants hf.linked rfl hf.request.symm hf.freeing.symm
        hf.result.symm hf.args hf.needs ?_ trivial ⟨fun _ => rfl, fun _ => rfl⟩
        ⟨hf.dying, hf.cursor⟩
      intro a ha
      exact HeapAfter.frame (hf.lists a ha) (.of_pages rfl rfl rfl rfl)

end After

end HMalloc
