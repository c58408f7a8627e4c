import HMalloc.Release

/-!
The class lists of a heap. Only the thread that owns the heap relinks them, and
their pages are in no other list, so relinking keeps the invariant of the
allocator's data whatever the new order is.
-/

namespace HMalloc

open Linked

/-- Assigning one entry of a table leaves the others alone. -/
theorem update_update_of_ne {β : Type} (f : Nat → Nat → β) {h c h' c' : Nat} (v : β)
    (hne : h' ≠ h ∨ c' ≠ c) :
    Function.update f h (Function.update (f h) c v) h' c' = f h' c' := by
  by_cases hh : h' = h
  · subst hh
    rw [Function.update_self, Function.update_of_ne (by tauto)]
  · rw [Function.update_of_ne hh]

/-- `h->pages[c]`, where the sentinel stands for the empty list. -/
def Store.classHead (s : Store) (h c : Nat) : Option PageId :=
  if s.slot h c = emptyPage then none else some (s.slot h c)

/-- The pages of class `c` of heap `h`, in the order of the list. -/
def Store.ClassList (s : Store) (h c : Nat) (l : List PageId) : Prop :=
  DList s.page.next s.page.prev (s.classHead h c) l

theorem Store.ClassList.congr {s s' : Store} {h c : Nat} {l : List PageId}
    (hl : s.ClassList h c l) (hslot : s'.slot h c = s.slot h c)
    (hlinks : ∀ q ∈ l, s'.page.next q = s.page.next q ∧ s'.page.prev q = s.page.prev q) :
    s'.ClassList h c l := by
  unfold Store.ClassList Store.classHead
  rw [hslot]
  exact DList.congr hl hlinks

theorem Store.classHead_eq {s : Store} {h c : Nat} {pg : PageId} (hne : pg ≠ emptyPage)
    (hslot : s.slot h c = pg) : s.classHead h c = some pg := by
  unfold Store.classHead
  rw [hslot, if_neg hne]

/-- The slot of a class with pages holds the first of them. -/
theorem Store.ClassList.slot_eq {s : Store} {h c : Nat} {pg : PageId} {l : List PageId}
    (hl : s.ClassList h c (pg :: l)) : s.slot h c = pg ∧ s.slot h c ≠ emptyPage := by
  have hhead : s.classHead h c = some pg := hl.1
  unfold Store.classHead at hhead
  split at hhead
  · cases hhead
  · rename_i hne
    exact ⟨Option.some.inj hhead, hne⟩

/-- A page of the list is behind the head unless the slot points to it. -/
theorem Store.ClassList.mem_tail_iff {s : Store} {h c : Nat} {pg : PageId} {l : List PageId}
    (hl : s.ClassList h c l) (hpg : pg ∈ l) : pg ∈ l.tail ↔ s.slot h c ≠ pg := by
  cases l with
  | nil => cases hpg
  | cons x l =>
      have hnodup := List.nodup_cons.mp (DList.toChain hl).nodup
      rw [hl.slot_eq.1, List.tail_cons]
      constructor
      · rintro htail rfl
        exact hnodup.1 htail
      · intro hne
        exact (List.mem_cons.mp hpg).resolve_left hne.symm

/-- What relinking the pages `l` of class `c` of heap `h` may change. -/
structure Relinked (s s' : Store) (h c : Nat) (l : List PageId) : Prop where
  rest : s' = { s with
    page := { s.page with next := s'.page.next, prev := s'.page.prev }, slot := s'.slot }
  slot : ∀ h' c', h' ≠ h ∨ c' ≠ c → s'.slot h' c' = s.slot h' c'
  links : ∀ q, q ∉ l → s'.page.next q = s.page.next q ∧ s'.page.prev q = s.page.prev q

theorem Relinked.refl (s : Store) (h c : Nat) (l : List PageId) : Relinked s s h c l :=
  ⟨rfl, fun _ _ _ => rfl, fun _ _ => ⟨rfl, rfl⟩⟩

theorem Relinked.row {s s' : Store} {h c : Nat} {l : List PageId} (hr : Relinked s s' h c l)
    (q : PageId) : s'.page.row q = s.page.row q := by
  rw [hr.rest]
  rfl

/-- Class `c` of heap `h` becomes `l`. -/
def Ghost.setCls (G : Ghost) (h c : Nat) (l : List PageId) : Ghost :=
  { G with cls := Function.update G.cls h (Function.update (G.cls h) c l) }

@[simp] theorem Ghost.setCls_self (G : Ghost) (h c : Nat) (l : List PageId) :
    (G.setCls h c l).cls h c = l := by
  simp [Ghost.setCls]

theorem Ghost.setCls_of_ne (G : Ghost) {h c h' c' : Nat} (l : List PageId)
    (hne : h' ≠ h ∨ c' ≠ c) : (G.setCls h c l).cls h' c' = G.cls h' c' :=
  update_update_of_ne G.cls l hne

/-- The new order of a class list has the same pages. -/
theorem Ghost.mem_setCls {G : Ghost} {h c : Nat} {l : List PageId}
    (hl : ∀ q, q ∈ l ↔ q ∈ G.cls h c) (h' c' : Nat) (q : PageId) :
    q ∈ (G.setCls h c l).cls h' c' ↔ q ∈ G.cls h' c' := by
  by_cases hne : h' ≠ h ∨ c' ≠ c
  · rw [Ghost.setCls_of_ne G l hne]
  · obtain ⟨rfl, rfl⟩ : h' = h ∧ c' = c := by tauto
    rw [Ghost.setCls_self]
    exact hl q

theorem Inv.relink {ps : PageSize} {s s' : Store} {G : Ghost} (h : Inv ps s G) {k c : Nat}
    {l : List PageId} (hr : Relinked s s' k c (G.cls k c))
    (hl : ∀ q, q ∈ l ↔ q ∈ G.cls k c) : Inv ps s' (G.setCls k c l) := by
  have hplaces := h.lists.places
  -- A page of the pool or of the abandoned list is not in a class list.
  have hnext : ∀ q, ((G.page q).loc = .pool ∨ (G.page q).loc = .abandoned) →
      s'.page.next q = s.page.next q := by
    intro q hloc
    refine (hr.links q ?_).1
    intro hq
    have := ((hplaces.cls k c q).mp hq).2
    rw [this] at hloc
    simp at hloc
  have hchains := h.lists.chains
  rw [hr.rest]
  refine ⟨h.regions, h.tags, ?_, ⟨?_, ?_, ?_, h.lists.cache⟩, h.grants, h.table, h.sentinel⟩
  · exact h.pages
  · refine { hplaces with cls := ?_ }
    intro k' c' q
    exact (Ghost.mem_setCls hl k' c' q).trans (hplaces.cls k' c' q)
  · refine { hchains with pool := ?_, abandoned := ?_ }
    · intro b hb
      apply (hchains.pool b hb).congr
      intro q hq
      exact hnext q (Or.inl ((hplaces.pool b q).mp hq).2.2)
    · apply hchains.abandoned.congr
      intro q hq
      exact hnext q (Or.inr ((hplaces.abandoned q).mp hq).2)
  · exact { h.lists.counters with }

section Operations

variable {s : Store} {h c : Nat} {l r : List PageId} {pg : PageId}

/-- `heap_rotate_to_front`. -/
theorem heapRotateToFront_spec (hl : s.ClassList h c (l ++ pg :: r)) (hne : pg ≠ emptyPage) :
    (heapRotateToFront s h c pg).ClassList h c (pg :: (l ++ r)) ∧
      Relinked s (heapRotateToFront s h c pg) h c (l ++ pg :: r) := by
  cases l with
  | nil =>
      have hslot := hl.slot_eq.1
      have hsame : heapRotateToFront s h c pg = s := by
        unfold heapRotateToFront
        rw [if_pos hslot.symm]
      rw [hsame]
      exact ⟨hl, Relinked.refl _ _ _ _⟩
  | cons x l =>
      obtain ⟨hslot, hsent⟩ := Store.ClassList.slot_eq (s := s) (l := l ++ pg :: r) hl
      have hnod := DList.nodup hl
      have hpx : pg ≠ s.slot h c := by
        rw [hslot]
        rintro rfl
        exact (List.nodup_cons.mp hnod).1 (by simp)
      have hrun : heapRotateToFront s h c pg =
          { s with
            page := linkFront (unlinkNeighbours s.page pg) pg (some (s.slot h c))
            slot := Function.update s.slot h (Function.update (s.slot h) c pg) } := by
        unfold heapRotateToFront
        rw [if_neg hpx]
      have hhead : s.classHead h c = some (s.slot h c) := if_neg hsent
      have hrot := DList.rotate hl (by simp)
      rw [hhead] at hrot
      obtain ⟨hbefore, hafter⟩ := DList.around hl
      rw [hrun]
      refine ⟨?_, rfl, ?_, ?_⟩
      · have hnew : Store.classHead { s with
            page := linkFront (unlinkNeighbours s.page pg) pg (some (s.slot h c))
            slot := Function.update s.slot h (Function.update (s.slot h) c pg) } h c = some pg :=
          Store.classHead_eq hne (by simp)
        unfold Store.ClassList
        rw [hnew]
        exact hrot
      · exact fun h' c' hdiff => update_update_of_ne s.slot pg hdiff
      · intro q hq
        have hqpg : q ≠ pg := by
          rintro rfl
          simp at hq
        have hqx : some (s.slot h c) ≠ some q := by
          rw [hslot]
          rintro ⟨⟩
          simp at hq
        have hprev : s.page.prev pg ≠ some q := by
          rw [hbefore]
          intro heq
          exact hq (List.mem_append_left _ (List.mem_of_getLast? heq))
        have hnxt : s.page.next pg ≠ some q := by
          rw [hafter]
          intro heq
          exact hq (List.mem_append_right _ (List.mem_cons_of_mem _ (List.mem_of_head? heq)))
        constructor
        · change Function.update (assign s.page.next _ _) pg _ q = _
          rw [Function.update_of_ne hqpg, assign_apply, if_neg hprev]
        · change assign (Function.update (assign s.page.prev (s.page.next pg) (s.page.prev pg))
            pg none) (some (s.slot h c)) (some pg) q = s.page.prev q
          rw [assign_apply, if_neg hqx, Function.update_of_ne hqpg, assign_apply, if_neg hnxt]

/-- The fresh page of `heap_malloc_slow` becomes the head. -/
theorem linkFresh_spec (hl : s.ClassList h c l) (hne : pg ≠ emptyPage) (hpg : pg ∉ l) :
    (linkFresh s h c pg).ClassList h c (pg :: l) ∧
      Relinked s (linkFresh s h c pg) h c (pg :: l) := by
  have hhead : (if s.slot h c ≠ emptyPage then some (s.slot h c) else none) = s.classHead h c := by
    unfold Store.classHead
    by_cases hsent : s.slot h c = emptyPage <;> simp [hsent]
  have hmem : ∀ q, s.classHead h c = some q → q ∈ l := by
    intro q hq
    have := (DList.toChain hl).head_eq
    rw [hq] at this
    exact List.mem_of_head? this.symm
  have hrun : linkFresh s h c pg =
      { s with
        page := linkFront s.page pg (s.classHead h c)
        slot := Function.update s.slot h (Function.update (s.slot h) c pg) } := by
    rw [← hhead]
    rfl
  have hqhead : ∀ q, q ∉ l → s.classHead h c ≠ some q := fun q hq heq => hq (hmem q heq)
  have hxpg : ∀ x ∈ l, x ≠ pg := fun x hx heq => hpg (heq ▸ hx)
  rw [hrun]
  refine ⟨?_, rfl, ?_, ?_⟩
  · have hnew : Store.classHead { s with
        page := linkFront s.page pg (s.classHead h c)
        slot := Function.update s.slot h (Function.update (s.slot h) c pg) } h c = some pg :=
      Store.classHead_eq hne (by simp)
    unfold Store.ClassList
    rw [hnew]
    refine DList.push hl (Function.update_self ..) ?_ ?_ ?_
    · change assign (Function.update s.page.prev pg none) _ _ pg = _
      rw [assign_apply, if_neg (hqhead pg hpg), Function.update_self]
    · intro x hx
      exact Function.update_of_ne (hxpg x hx) ..
    · intro x hx
      change assign (Function.update s.page.prev pg none) _ _ x = _
      rw [assign_apply, Function.update_of_ne (hxpg x hx)]
  · exact fun h' c' hdiff => update_update_of_ne s.slot pg hdiff
  · intro q hq
    obtain ⟨hqpg, hql⟩ : q ≠ pg ∧ q ∉ l := by simpa using hq
    constructor
    · change Function.update s.page.next pg _ q = _
      rw [Function.update_of_ne hqpg]
    · change assign (Function.update s.page.prev pg none) _ _ q = _
      rw [assign_apply, if_neg (hqhead q hql), Function.update_of_ne hqpg]

/-- `heap_on_page_empty` unlinks a page behind the head; its predecessor is not
null. -/
theorem unlinkEmpty_spec (hl : s.ClassList h c (l ++ pg :: r)) (hnil : l ≠ []) :
    ∃ s', unlinkEmpty s pg = some s' ∧ s'.ClassList h c (l ++ r) ∧
      Relinked s s' h c (l ++ pg :: r) := by
  obtain ⟨hbefore, hafter⟩ := DList.around hl
  obtain ⟨q, hq⟩ : ∃ q, s.page.prev pg = some q := by
    rw [hbefore]
    cases hlast : l.getLast? with
    | none => exact absurd (List.getLast?_eq_none_iff.mp hlast) hnil
    | some q => exact ⟨q, rfl⟩
  refine ⟨{ s with page := unlinkNeighbours s.page pg }, ?_, ?_, rfl, fun _ _ _ => rfl, ?_⟩
  · unfold unlinkEmpty
    rw [hq]
  · have hrest : DList (unlinkNeighbours s.page pg).next (unlinkNeighbours s.page pg).prev _
        (l ++ r) := DList.unlink hl (fun x _ => assign_apply ..) (fun x _ => assign_apply ..)
    rw [if_neg (by rw [hq]; simp)] at hrest
    exact hrest
  · intro x hx
    constructor
    · change assign s.page.next _ _ x = _
      rw [assign_apply, if_neg]
      rw [hbefore]
      intro heq
      exact hx (List.mem_append_left _ (List.mem_of_getLast? heq))
    · change assign s.page.prev _ _ x = _
      rw [assign_apply, if_neg]
      rw [hafter]
      intro heq
      exact hx (List.mem_append_right _ (List.mem_cons_of_mem _ (List.mem_of_head? heq)))

end Operations

end HMalloc
