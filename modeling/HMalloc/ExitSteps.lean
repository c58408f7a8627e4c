import HMalloc.FreeSteps

/-!
How pages leave a heap: `hm_free` hands back an empty page that is not the head
of its list, and the destructor of a thread's `HeapGuard` hands over all pages,
class by class, before it unlinks and unmaps the heap.
-/

namespace HMalloc

open Bytes Linked

theorem Ghost.setCls_same (G : Ghost) (k c : Nat) : G.setCls k c (G.cls k c) = G := by
  unfold Ghost.setCls
  rw [Function.update_eq_self, Function.update_eq_self]

/-- Lists that have become shorter do not add to the growth. -/
theorem Growth.of_le {G G' G'' : Ghost} {s'' : Store}
    (hle : ∀ h c, (G'.cls h c).length ≤ (G.cls h c).length) (hg : Growth G' s'' G'') :
    Growth G s'' G'' := by
  intro h c
  have hshort := hle h c
  rcases hg h c with hno | ⟨hlen, hsum⟩
  · exact Or.inl (by omega)
  · by_cases heq : (G'.cls h c).length = (G.cls h c).length
    · exact Or.inr ⟨by omega, by rw [← heq]; exact hsum⟩
    · exact Or.inl (by omega)

/-- Page `pg` of class `c` of heap `k` has been handed to the central heap;
`dead` is a segment that is to be unmapped. -/
structure Handed (ps : PageSize) (s : Store) (G : Ghost) (k c : Nat) (pg : PageId) (s' : Store)
    (G' : Ghost) (dead : Option Nat) : Prop where
  inv : Inv ps s' G'
  move : MoveStep G pg s s'
  cls : G'.cls = G.clsWithout k c pg
  page : ∀ q, q ≠ pg → G'.page q = G.page q
  limbo : G'.limbo = none
  dying : G'.dying = dead

section Handed

variable {ps : PageSize} {s s' : Store} {G G' : Ghost} {t k c : Nat} {pg : PageId}
  {dead : Option Nat}

/-- `central_release_page`. -/
theorem Inv.releasePage_handed (h : Inv ps s G) (hlimbo : G.limbo = none)
    (hdying : G.dying = none) (hpg : pg ∈ G.cls k c) (hused : s.page.used pg = 0) :
    ∃ s' dead G', centralReleasePage s pg = some (s', dead) ∧ Handed ps s G k c pg s' G' dead := by
  obtain ⟨s', dead, hrun, hmove, hcase⟩ := h.releasePage hlimbo hdying hpg hused
  have hpage : ∀ q, q ≠ pg → ((G.release k c pg).put pg.seg pg).page q = G.page q := by
    intro q hq
    simp [Ghost.put, Ghost.release, Function.update_of_ne hq]
  rcases hcase with ⟨rfl, hinv⟩ | ⟨rfl, _, hinv⟩
  · exact ⟨s', none, _, hrun, hinv, hmove, rfl, hpage, rfl, hdying⟩
  · exact ⟨s', _, _, hrun, hinv, hmove, rfl, hpage, rfl, rfl⟩

/-- `central_abandon_page`. -/
theorem Inv.abandonPage_handed (h : Inv ps s G) (hlimbo : G.limbo = none)
    (hdying : G.dying = none) (hpg : pg ∈ G.cls k c) :
    Handed ps s G k c pg (centralAbandonPage s pg) (G.abandon k c pg) none := by
  obtain ⟨hinv, hmove⟩ := h.abandonPage hlimbo hdying hpg
  exact ⟨hinv, hmove, rfl, fun q hq => Function.update_of_ne hq .., hlimbo, hdying⟩

theorem Handed.cls_of_ne (h : Handed ps s G k c pg s' G' dead) {a c' : Nat}
    (hne : a ≠ k ∨ c' ≠ c) : G'.cls a c' = G.cls a c' := by
  rw [h.cls]
  exact update_update_of_ne G.cls _ hne

theorem Handed.cls_self (h : Handed ps s G k c pg s' G' dead) :
    G'.cls k c = (G.cls k c).filter (· ≠ pg) := by
  rw [h.cls, Ghost.clsWithout, Function.update_self, Function.update_self]

theorem Handed.length_le (h : Handed ps s G k c pg s' G' dead) (a c' : Nat) :
    (G'.cls a c').length ≤ (G.cls a c').length := by
  by_cases hne : a ≠ k ∨ c' ≠ c
  · rw [h.cls_of_ne hne]
  · obtain ⟨rfl, rfl⟩ : a = k ∧ c' = c := by tauto
    rw [h.cls_self]
    exact List.length_filter_le ..

/-- The links of the other pages of class lists are as before. -/
theorem Handed.links (h : Handed ps s G k c pg s' G' dead) (hinv : Inv ps s G) {a c' : Nat}
    {q : PageId} (hq : q ∈ G.cls a c') (hne : q ≠ pg) :
    s'.page.next q = s.page.next q ∧ s'.page.prev q = s.page.prev q ∧
      s'.page.used q = s.page.used q := by
  refine h.move.links q hne ?_
  rw [((hinv.lists.places.cls a c' q).mp hq).2]
  simp

theorem Handed.homes (h : Handed ps s G k c pg s' G' dead)
    (hhomes : ∀ a c', G.cls a c' ≠ [] → ∃ u size, s.os.regions a = some ⟨size, .heap u⟩)
    (a c' : Nat) (hne : G'.cls a c' ≠ []) : ∃ u size, s'.os.regions a = some ⟨size, .heap u⟩ := by
  rw [h.move.regions]
  refine hhomes a c' (fun hnil => hne ?_)
  have := h.length_le a c'
  rw [hnil] at this
  exact List.eq_nil_of_length_eq_zero (Nat.le_zero.mp this)

theorem Handed.frame (h : Handed ps s G k c pg s' G' dead) (hinv : Inv ps s G)
    (hpg : pg ∈ G.cls k c) {size : Nat} (hk : s.os.regions k = some ⟨size, .heap t⟩)
    (hmtx : ∀ u, u ≠ t → s.central.mtx ≠ some u) : StepFrame t s G s' G' := by
  refine StepFrame.move hinv h.move ?_ h.page hmtx
  intro u hu a size' ha
  have hak : a ≠ k := by
    rintro rfl
    rw [hk] at ha
    cases ha
    exact hu rfl
  refine ⟨funext fun c' => h.cls_of_ne (Or.inl hak), fun c' hmem => ?_⟩
  exact hinv.page_ne hpg hk hu ha hmem rfl

/-- The class lists of the heap after a page behind the head has been unlinked from
them (to `s₁`) and handed over. -/
theorem Handed.serving {s₁ : Store} (h : Handed ps s₁ G k c pg s' G' dead) (hinv : Inv ps s G)
    (hinv₁ : Inv ps s₁ G) (hserve : Serving s G k (some pg)) {x : PageId} {l r : List PageId}
    (hcls : G.cls k c = (x :: l) ++ pg :: r) (hlist : s₁.ClassList k c ((x :: l) ++ r))
    (hrelink : Relinked s s₁ k c (G.cls k c)) : Serving s' G' k none := by
  have hpg : pg ∈ G.cls k c := by simp [hcls]
  have hslot : s'.slot = s₁.slot := by rw [h.move.rest]
  have hused : s₁.page.used = s.page.used := by rw [hrelink.rest]
  have hself : G'.cls k c = (x :: l) ++ r := by
    have hnodup : (G.cls k c).Nodup := (DList.toChain (hserve.lists c)).nodup
    rw [hcls] at hnodup
    rw [h.cls_self, hcls]
    exact filter_ne_middle hnodup
  refine ⟨fun c' => ?_, fun c' q hq _ => ?_⟩
  · by_cases hcc : c' = c
    · subst hcc
      rw [hself]
      refine hlist.congr (by rw [hslot]) (fun q hq => ?_)
      have hq' : q ∈ G'.cls k c' := by rw [hself]; exact hq
      rw [h.cls_self, List.mem_filter] at hq'
      obtain ⟨hn, hp, _⟩ := h.links hinv₁ hq'.1 (by simpa using hq'.2)
      exact ⟨hn, hp⟩
    · rw [h.cls_of_ne (Or.inr hcc)]
      refine (hserve.lists c').congr ?_ (fun q hq => ?_)
      · rw [hslot]
        exact hrelink.slot k c' (Or.inr hcc)
      · have hnot : q ∉ G.cls k c := fun hmem => hcc (hinv.class_unique hmem hq)
        obtain ⟨hn, hp, _⟩ := h.links hinv₁ hq (fun heq => hnot (heq ▸ hpg))
        exact ⟨hn.trans (hrelink.links q hnot).1, hp.trans (hrelink.links q hnot).2⟩
  · -- A page behind the head now was behind the head before.
    have hold : q ∈ (G.cls k c').tail ∧ q ≠ pg := by
      by_cases hcc : c' = c
      · subst hcc
        have hq' := List.mem_of_mem_tail hq
        rw [h.cls_self, List.mem_filter] at hq'
        rw [hself] at hq
        rw [hcls]
        refine ⟨?_, by simpa using hq'.2⟩
        simp only [List.cons_append, List.tail_cons, List.mem_append, List.mem_cons] at hq ⊢
        tauto
      · rw [h.cls_of_ne (Or.inr hcc)] at hq
        refine ⟨hq, ?_⟩
        rintro rfl
        exact hcc (hinv.class_unique hpg (List.mem_of_mem_tail hq))
    rw [(h.links hinv₁ (List.mem_of_mem_tail hold.1) hold.2).2.2, hused]
    exact hserve.occupied c' q hold.1 (by simpa using hold.2)

end Handed

section Steps

variable {ps : PageSize} {s : Store} {G : Ghost} {t : Nat} {th : Thread} {c result : Nat}

/-- `heap_on_page_empty` hands back a page behind the head. -/
theorem release_outcome (hc : Consistent ps s G) (h : ThreadOk ps s G t th) {pg : PageId}
    (hpc : th.pc = .release pg result) (hm : s.central.mtx = none) :
    ∃ s' th' G', stepRelease s t th pg result = some (s', th') ∧ Outcome ps t s G s' G' th' := by
  have hlink : th.pc.unlinked = none := by rw [hpc]; rfl
  obtain ⟨k, hheap, hserve, hused, c, htail⟩ := h.heap_at hpc rfl rfl
  have hregion := h.region hlink hheap
  have hpg := List.mem_of_mem_tail htail
  -- The page stands behind a non-empty front part of its list.
  obtain ⟨x, l, r, hcls⟩ : ∃ x l r, G.cls k c = (x :: l) ++ pg :: r := by
    cases hl : G.cls k c with
    | nil =>
        rw [hl] at hpg
        cases hpg
    | cons x xs =>
        rw [hl] at htail
        obtain ⟨l, r, rfl⟩ := List.append_of_mem htail
        exact ⟨x, l, r, rfl⟩
  obtain ⟨s₁, hunlink, hlist₁, hrelink⟩ := unlinkEmpty_spec
    (show s.ClassList k c ((x :: l) ++ pg :: r) by rw [← hcls]; exact hserve.lists c) (by simp)
  rw [← hcls] at hrelink
  have hinv₁ : Inv ps s₁ G := by
    have := hc.inv.relink hrelink (l := G.cls k c) (fun _ => Iff.rfl)
    rwa [Ghost.setCls_same] at this
  have hframe₁ : StepFrame t s G s₁ G := by
    have := StepFrame.relink hc.inv hrelink hregion (G.cls k c)
    rwa [Ghost.setCls_same] at this
  have hused₁ : s₁.page.used = s.page.used := by rw [hrelink.rest]
  obtain ⟨s₂, dead, G₂, hrelease, hhand⟩ := hinv₁.releasePage_handed hc.limbo (hc.dying hm) hpg
    (by rw [hused₁]; exact hused)
  have hmtx₁ : s₁.central.mtx = none := by
    rw [hrelink.rest]
    exact hm
  have hregions₁ : s₁.os.regions = s.os.regions := by rw [hrelink.rest]
  have hframe₂ : StepFrame t s₁ G s₂ G₂ :=
    hhand.frame hinv₁ hpg (by rw [hregions₁]; exact hregion) (fun u _ => by rw [hmtx₁]; simp)
  have hgrants₁ : s₁.grants = s.grants := by rw [hrelink.rest]
  have hgrants₂ : s₂.grants = s.grants := hhand.move.grants.trans hgrants₁
  have hserve₂ := hhand.serving hc.inv hinv₁ hserve hcls hlist₁ hrelink
  have hregions₂ : ∀ a size, s₂.os.regions a = some ⟨size, .heap t⟩ ↔
      s.os.regions a = some ⟨size, .heap t⟩ := by
    intro a size
    rw [hhand.move.regions, hregions₁]
  have hfinish : Finishing ps s₂ G₂ t th (.freed result) dead := by
    refine ⟨⟨s, G, h, hgrants₂, hregions₂⟩, hlink, by rw [hpc]; rfl, by rw [hpc]; rfl,
      by rw [hpc]; rfl, trivial, (fun hn => by cases hn), ?_, trivial, hhand.dying, ?_⟩
    · intro a ha
      obtain rfl : k = a := Option.some.inj (hheap.symm.trans ha)
      exact hserve₂
    · intro u _
      rw [hhand.move.mtx, hmtx₁]
      simp
  obtain ⟨⟨s', th'⟩, hrun⟩ : ∃ r, afterPool s₂ t th dead (.freed result) = some r := by
    cases dead <;> exact ⟨_, rfl⟩
  have hhomes₁ : ∀ a c', G.cls a c' ≠ [] → ∃ u size, s₁.os.regions a = some ⟨size, .heap u⟩ := by
    rw [hregions₁]
    exact hc.homes
  obtain ⟨G', hout⟩ := afterPool_outcome hhand.inv hhand.limbo (hhand.homes hhomes₁) hfinish
    (fun _ _ _ heq => by cases heq) hrun
  refine ⟨s', th', G', ?_, hout.data, hout.thread,
    (hframe₁.trans hframe₂ hgrants₁).trans hout.frame hgrants₂,
    Growth.of_le hhand.length_le hout.growth⟩
  simp only [stepRelease, Option.bind_eq_bind, hunlink, Option.bind_some, hrelease]
  exact hrun

/-- `heap_destroy` collects the page it has come to. -/
theorem destroy_outcome (hc : Consistent ps s G) (h : ThreadOk ps s G t th) {pg : PageId}
    (hpc : th.pc = .destroy c pg) {s' : Store} {th' : Thread}
    (hrun : stepDestroy s th c pg = some (s', th')) : ∃ G', Outcome ps t s G s' G' th' := by
  have hlink : th.pc.unlinked = none := by rw [hpc]; rfl
  obtain ⟨k, hheap, hleave⟩ : ∃ k, th.heap = some k ∧ Leaving s G k c (some pg) :=
    h.heap_at hpc rfl rfl
  have hargs : c < numSizeClasses := h.args_at hpc
  have hpg : pg ∈ G.cls k c := List.mem_of_head? hleave.list.head_eq.symm
  obtain ⟨hp, hloc, _⟩ := hc.inv.own_page hpg
  obtain ⟨s₁, hcollect, hinv, hstep⟩ := hc.inv.collect hp (by simp [hloc])
  simp only [stepDestroy, Option.bind_eq_bind, hcollect, Option.bind_some] at hrun
  cases hrun
  have hmtx : s'.central.mtx = s.central.mtx := by rw [hstep.rest]
  refine ⟨_, ⟨hinv, hc.limbo, ?_, ?_⟩, ?_,
    StepFrame.page hc.inv hstep hpg (h.region hlink hheap) _, Growth.of_cls _ rfl⟩
  · rw [hstep.regions]
    exact hc.homes
  · rw [hmtx]
    exact hc.dying
  · refine h.advance (fun a size => by rw [hstep.regions]) hstep.grants hlink rfl
      (by rw [hpc]; rfl) (by rw [hpc]; rfl) (by rw [hpc]; rfl) hargs
      (fun _ => by rw [hheap]; simp) ?_ trivial ?_ trivial
    · intro a ha
      obtain rfl : k = a := Option.some.inj (hheap.symm.trans ha)
      refine ⟨⟨hleave.done, ?_, ?_⟩, congrFun hstep.next pg⟩
      · exact hleave.list.congr (fun q _ => congrFun hstep.next q)
      · intro c' hc'
        exact (hleave.todo c' hc').congr (by rw [hstep.rest])
          (fun q _ => ⟨congrFun hstep.next q, congrFun hstep.prev q⟩)
    · rw [hmtx]
      exact h.mtx_iff (by rw [hpc]; rfl) rfl

/-- What is left of a heap once the page it has come to is handed over. -/
theorem Handed.leaving {s' : Store} {G' : Ghost} {k : Nat} {pg : PageId} {next : Option PageId}
    {dead : Option Nat} (hh : Handed ps s G k c pg s' G' dead) (hinv : Inv ps s G)
    (hl : Leaving s G k c (some pg)) (hnext : s.page.next pg = next) : Leaving s' G' k c next := by
  have hpg : pg ∈ G.cls k c := List.mem_of_head? hl.list.head_eq.symm
  obtain ⟨rest, hcls⟩ : ∃ rest, G.cls k c = pg :: rest := by
    cases hl' : G.cls k c with
    | nil =>
        rw [hl'] at hpg
        cases hpg
    | cons x rest =>
        have hhead := hl.list.head_eq
        rw [hl'] at hhead
        cases hhead
        exact ⟨rest, rfl⟩
  have hself : G'.cls k c = rest := by
    have hnod := hl.list.nodup
    rw [hcls] at hnod
    rw [hh.cls_self, hcls]
    exact filter_ne_middle (l := []) hnod
  have hslot : s'.slot = s.slot := by rw [hh.move.rest]
  refine ⟨?_, ?_, ?_⟩
  · intro c' hc'
    rw [hh.cls_of_ne (Or.inr (by omega))]
    exact hl.done c' hc'
  · have hchain := hl.list
    rw [hcls, chain_cons, hnext] at hchain
    rw [hself]
    refine hchain.2.congr (fun q hq => ?_)
    have hq' : q ∈ G'.cls k c := by rw [hself]; exact hq
    rw [hh.cls_self, List.mem_filter] at hq'
    exact (hh.links hinv hq'.1 (by simpa using hq'.2)).1
  · intro c' hc'
    rw [hh.cls_of_ne (Or.inr (by omega))]
    refine (hl.todo c' hc').congr (by rw [hslot]) (fun q hq => ?_)
    have hne : q ≠ pg := by
      rintro rfl
      have := hinv.class_unique hpg hq
      omega
    obtain ⟨hn, hp, _⟩ := hh.links hinv hq hne
    exact ⟨hn, hp⟩

/-- `heap_destroy` hands the page over. -/
theorem hand_outcome (hc : Consistent ps s G) (h : ThreadOk ps s G t th) {pg : PageId}
    {next : Option PageId} (hpc : th.pc = .hand c pg next) (hm : s.central.mtx = none)
    {s' : Store} {th' : Thread} (hrun : stepHand s t th c pg next = some (s', th')) :
    ∃ G', Outcome ps t s G s' G' th' := by
  have hlink : th.pc.unlinked = none := by rw [hpc]; rfl
  obtain ⟨k, hheap, hleave, hnext⟩ := h.heap_at hpc rfl rfl
  have hargs : c < numSizeClasses := h.args_at hpc
  have hpg : pg ∈ G.cls k c := List.mem_of_head? hleave.list.head_eq.symm
  have hothers : ∀ u, u ≠ t → s.central.mtx ≠ some u := fun u _ => by rw [hm]; simp
  have hfinish : ∀ s₁ G₁ dead, Handed ps s G k c pg s₁ G₁ dead →
      Finishing ps s₁ G₁ t th (.destroying c next) dead := by
    intro s₁ G₁ dead hhand
    refine ⟨⟨s, G, h, hhand.move.grants, fun a size => by rw [hhand.move.regions]⟩, hlink,
      by rw [hpc]; rfl, by rw [hpc]; rfl, by rw [hpc]; rfl, hargs,
      (fun _ => by rw [hheap]; simp), ?_, trivial, hhand.dying, ?_⟩
    · intro a ha
      obtain rfl : k = a := Option.some.inj (hheap.symm.trans ha)
      exact hhand.leaving hc.inv hleave hnext
    · rw [hhand.move.mtx]
      exact hothers
  have hclose : ∀ s₁ G₁ dead, Handed ps s G k c pg s₁ G₁ dead →
      (∃ G', Outcome ps t s₁ G₁ s' G' th') → ∃ G', Outcome ps t s G s' G' th' := by
    rintro s₁ G₁ dead hhand ⟨G', hout⟩
    exact ⟨G', hout.data, hout.thread,
      (hhand.frame hc.inv hpg (h.region hlink hheap) hothers).trans hout.frame hhand.move.grants,
      Growth.of_le hhand.length_le hout.growth⟩
  unfold stepHand at hrun
  by_cases hused : s.page.used pg = 0
  · rw [if_pos hused] at hrun
    obtain ⟨s₁, dead, G₁, hrelease, hhand⟩ :=
      hc.inv.releasePage_handed hc.limbo (hc.dying hm) hpg hused
    simp only [Option.bind_eq_bind, hrelease, Option.bind_some] at hrun
    exact hclose s₁ G₁ dead hhand (afterPool_outcome hhand.inv hhand.limbo (hhand.homes hc.homes)
      (hfinish s₁ G₁ dead hhand) (fun _ _ _ heq => by cases heq) hrun)
  · rw [if_neg hused] at hrun
    have hhand := hc.inv.abandonPage_handed hc.limbo (hc.dying hm) hpg
    exact hclose _ _ none hhand (after_outcome hhand.inv hhand.limbo (hhand.homes hc.homes)
      (hfinish _ _ none hhand) (fun _ _ _ heq => by cases heq) hrun)

/-- `heap_destroy` unlinks the heap from the heap registry. -/
theorem unlinkHeap_outcome (hc : Consistent ps s G) (h : ThreadOk ps s G t th)
    (hpc : th.pc = .unlinkHeap) {s' : Store} {th' : Thread}
    (hrun : stepUnlinkHeap s th = some (s', th')) : ∃ G', Outcome ps t s G s' G' th' := by
  have hlink : th.pc.unlinked = none := by rw [hpc]; rfl
  have hneeds := h.needs (by rw [hpc]; rfl)
  simp only [stepUnlinkHeap, Option.bind_eq_bind, Option.bind_eq_some_iff] at hrun
  obtain ⟨k, hheap, hrun⟩ := hrun
  cases hrun
  refine ⟨G, ⟨hc.inv.setHeapRegistry _, hc.limbo, hc.homes, hc.dying⟩, ?_, ?_,
    Growth.of_cls _ rfl⟩
  · refine h.advance (fun _ _ => Iff.rfl) rfl hlink rfl (by rw [hpc]; rfl) (by rw [hpc]; rfl)
      (by rw [hpc]; rfl) trivial (fun _ => hneeds) ?_ trivial (h.mtx_iff (by rw [hpc]; rfl) rfl)
      trivial
    intro a ha
    exact h.lists_at hpc rfl ha
  · exact StepFrame.world rfl rfl rfl (fun _ _ _ _ => Iff.rfl) (fun _ _ _ _ _ => rfl) rfl rfl
      (fun _ _ _ => ⟨rfl, rfl, fun _ => Iff.rfl⟩) (fun _ _ _ _ _ _ => rfl)

/-- The end of `~HeapGuard`. -/
theorem unmapHeap_outcome (hc : Consistent ps s G) (h : ThreadOk ps s G t th)
    (hpc : th.pc = .unmapHeap) {s' : Store} {th' : Thread}
    (hrun : stepUnmapHeap ps s th = some (s', th')) : ∃ G', Outcome ps t s G s' G' th' := by
  have hlink : th.pc.unlinked = none := by rw [hpc]; rfl
  simp only [stepUnmapHeap, Option.bind_eq_bind, Option.bind_eq_some_iff] at hrun
  obtain ⟨k, hheap, hrun⟩ := hrun
  cases hrun
  have hk := h.region hlink hheap
  have hnil : ∀ c', G.cls k c' = [] := h.lists_at hpc rfl hheap
  obtain ⟨hmem, hregions, hr⟩ := osFree_region hc.inv.regions hk
  simp only at hmem hregions hr
  have hinv : Inv ps { s with os := osFree s.os k (heapBytes ps) } G :=
    hc.inv.unmapOther hk (by simp [Purpose.Tagged]) (by simp) hmem hregions hr
  have hkeep : ∀ a, a ≠ k → (osFree s.os k (heapBytes ps)).regions a = s.os.regions a := by
    intro a ha
    rw [hregions, Function.update_of_ne ha]
  refine ⟨G, ⟨hinv, hc.limbo, ?_, hc.dying⟩, ?_, ?_, Growth.of_cls _ rfl⟩
  · intro a c' hne
    have hak : a ≠ k := by
      rintro rfl
      exact hne (hnil c')
    change ∃ u size, (osFree s.os k (heapBytes ps)).regions a = _
    rw [hkeep a hak]
    exact hc.homes a c' hne
  · have hmtx := h.not_locked (by rw [hpc]; rfl)
    refine ⟨trivial, ?_, (fun hn => by cases hn), fun hne => absurd rfl hne,
      (fun a ha => by cases ha), ?_, (fun q p u g hq => by cases hq), trivial,
      ⟨fun hm => absurd hm hmtx, fun hl => by cases hl⟩, trivial⟩
    · intro a size
      change (osFree s.os k (heapBytes ps)).regions a = _ ↔ size = heapBytes ps ∧ none = some a
      simp only [reduceCtorEq, and_false, iff_false]
      intro ha
      by_cases hak : a = k
      · rw [hregions, hak, Function.update_self] at ha
        cases ha
      · rw [hkeep a hak, h.home, Thread.home_of_linked hlink, hheap] at ha
        exact hak (Option.some.inj ha.2).symm
    · exact h.holders_of rfl (by rw [hpc]; rfl) (by rw [hpc]; rfl) (by rw [hpc]; rfl)
  · have hsame : ∀ a r, r.purpose ≠ .heap t →
        ((osFree s.os k (heapBytes ps)).regions a = some r ↔ s.os.regions a = some r) := by
      intro a r hr
      rw [hregions]
      exact regions_drop_keeps hk a r hr
    exact StepFrame.world rfl rfl rfl (fun u hu a _ => hsame a _ (by simpa using hu))
      (fun _ _ _ _ _ => rfl) rfl rfl (fun _ _ _ => ⟨rfl, rfl, fun b => hsame b _ (by simp)⟩)
      (fun _ _ _ x _ _ => congrFun hmem x)

end Steps

end HMalloc
