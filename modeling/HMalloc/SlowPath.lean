import HMalloc.AllocSteps

/-!
The slow path of an allocation: the walk of `heap_malloc_slow` along the class
list, and a fresh page from `central_acquire_page`. The walk passes only pages
that are full, so a page is asked for only when all pages of the class are, and
the page that serves the block becomes the head of its list.
-/

namespace HMalloc

open Bytes Linked

section Lists

variable {ps : PageSize} {s s' : Store} {G : Ghost} {k c : Nat}

/-- A page is in one class list only. -/
theorem Inv.class_unique (h : Inv ps s G) {pg : PageId} {c' : Nat} (hc : pg ∈ G.cls k c)
    (hc' : pg ∈ G.cls k c') : c' = c := by
  have h₁ := ((h.lists.places.cls k c pg).mp hc).2
  have h₂ := ((h.lists.places.cls k c' pg).mp hc').2
  rw [h₁] at h₂
  cases h₂
  rfl

/-- Relinking one class list keeps the others. -/
theorem Relinked.serving {d d' : Option PageId} {l : List PageId} (hinv : Inv ps s G)
    (hv : ∀ c', c' ≠ c → s.ClassList k c' (G.cls k c') ∧
      ∀ pg ∈ (G.cls k c').tail, some pg ≠ d → s.page.used pg ≠ 0)
    (hr : Relinked s s' k c (G.cls k c)) (hl : s'.ClassList k c l)
    (hocc : ∀ pg ∈ l.tail, some pg ≠ d' → s.page.used pg ≠ 0)
    (hd : ∀ x, some x = d → some x = d' ∨ x ∈ G.cls k c) : Serving s' (G.setCls k c l) k d' := by
  have hused : ∀ x, s'.page.used x = s.page.used x := fun x => congrArg PageState.used (hr.row x)
  constructor
  · intro c'
    by_cases hc : c' = c
    · rw [hc, Ghost.setCls_self]
      exact hl
    · rw [Ghost.setCls_of_ne G l (Or.inr hc)]
      refine (hv c' hc).1.congr (hr.slot k c' (Or.inr hc)) (fun x hx => hr.links x ?_)
      exact fun hmem => hc (hinv.class_unique hmem hx)
  · intro c' x hx hne
    rw [hused]
    by_cases hc : c' = c
    · rw [hc, Ghost.setCls_self] at hx
      exact hocc x hx hne
    · rw [Ghost.setCls_of_ne G l (Or.inr hc)] at hx
      refine (hv c' hc).2 x hx (fun heq => ?_)
      rcases hd x heq with heq' | hmem
      · exact hne heq'
      · exact hc (hinv.class_unique hmem (List.mem_of_mem_tail hx))

/-- An operation on one page keeps the data consistent. -/
theorem Consistent.page {pg : PageId} {g : PageGhost} (hc : Consistent ps s G)
    (hstep : PageStep pg s s') (hinv : Inv ps s' (G.setPage pg g)) :
    Consistent ps s' (G.setPage pg g) where
  inv := hinv
  limbo := hc.limbo
  homes := fun a c' hne => by rw [hstep.regions]; exact hc.homes a c' hne
  dying := fun hnone => hc.dying (by rw [hstep.rest] at hnone; exact hnone)

/-- Relinking a class list keeps the data consistent. -/
theorem Consistent.relink {l : List PageId} (hc : Consistent ps s G)
    (hr : Relinked s s' k c (G.cls k c)) (hl : ∀ x, x ∈ l ↔ x ∈ G.cls k c) :
    Consistent ps s' (G.setCls k c l) where
  inv := hc.inv.relink hr hl
  limbo := hc.limbo
  homes := by
    intro a c' hne
    rw [hr.rest]
    obtain ⟨x, hx⟩ := List.exists_mem_of_ne_nil _ hne
    exact hc.homes a c' (List.ne_nil_of_mem ((Ghost.mem_setCls hl a c' x).mp hx))
  dying := fun hnone => hc.dying (by rw [hr.rest] at hnone; exact hnone)

end Lists

section Steps

variable {ps : PageSize} {s : Store} {G : Ghost} {t : Nat} {th : Thread} {q : Request} {c : Nat}

theorem stepWalk_eq {k : Nat} {p : PageId} {available : Bool} {s₁ : Store}
    (hheap : th.heap = some k) (hmake : pageMakeAvailable s p = some (available, s₁)) :
    stepWalk s t th q c p =
      if available then
        (pagePop (heapRotateToFront s₁ k c p) p).bind
          (fun r => some (deliverBlock r.2 t th q p r.1))
      else match s₁.page.next p with
        | some p' => some (s₁, { th with pc := .walk q c p' })
        | none => some (s₁, { th with pc := .acquire q c }) := by
  unfold stepWalk
  rw [hmake]
  have hbind : ∀ f : Nat → Option (Store × Thread), th.heap.bind f = f k := by
    intro f
    rw [hheap]
    rfl
  simp only [Option.bind_eq_bind, hbind, Option.bind_some]
  rfl

/-- A page of the walk cannot serve: it is full, and the walk goes on or asks
for a page. -/
theorem walk_on (hc : Consistent ps s G) (h : ThreadOk ps s G t th) {k : Nat} {p : PageId}
    (hpc : th.pc = .walk q c p) (hheap : th.heap = some k) {s₁ : Store} {g : PageGhost}
    (hstep : PageStep p s s₁) (hinv : Inv ps s₁ (G.setPage p g))
    (hused : s₁.page.used p = s.page.used p) (hfull : s₁.page.used p = s₁.page.capacity p)
    {s' : Store} {th' : Thread}
    (hrun : (match s₁.page.next p with
      | some p' => some (s₁, { th with pc := .walk q c p' })
      | none => some (s₁, { th with pc := .acquire q c })) = some (s', th')) :
    ∃ G', Outcome ps t s G s' G' th' := by
  have hlink : th.pc.unlinked = none := by rw [hpc]; rfl
  have hlocked : th.pc.locked = false := by rw [hpc]; rfl
  have hargs : SmallArgs q c := h.args_at hpc
  obtain ⟨hserve, l, r, hsplit, hfulls⟩ : HeapOk s G k (.walk q c p) := h.lists_at hpc rfl hheap
  have hpg : p ∈ G.cls k c := by simp [hsplit]
  have hserve₁ : Serving s₁ (G.setPage p g) k none :=
    hstep.serving hserve g (Or.inr (Or.inl hused))
  have hfull₁ : ∀ x ∈ l ++ [p], s₁.Full c x := by
    intro x hx
    by_cases hxp : x = p
    · rw [hxp]
      exact hfull.trans (hinv.own_page (G := G.setPage p g) hpg).2.2.2.2.1
    · have hxl : x ∈ l := by simpa [hxp] using hx
      have hrow : s₁.page.used x = s.page.used x := congrArg PageState.used (hstep.row x hxp)
      unfold Store.Full
      rw [hrow]
      exact hfulls x hxl
  have hnext : s₁.page.next p = r.head? := by
    have hclass := hserve.lists c
    rw [hsplit] at hclass
    rw [congrFun hstep.next p]
    exact (DList.around hclass).2
  have hdata := hc.page hstep hinv
  have hframe := StepFrame.page hc.inv hstep hpg (h.region hlink hheap) g
  have hpass : ∀ pc : Pc, pc.unlinked = none → pc.request = some q → pc.freeing = none →
      pc.result = none → pc.Args → HeapOk s₁ (G.setPage p g) k pc → PointersOk s₁ pc →
      pc.locked = false → LockOk s₁ (G.setPage p g) pc →
      Outcome ps t s G s₁ (G.setPage p g) { th with pc := pc } := by
    intro pc h1 h2 h3 h4 h5 h6 h7 h8 h9
    refine ⟨hdata, h.advance (fun a size => by rw [hstep.regions]) hstep.grants hlink h1
      (by rw [h2, hpc]; rfl) (by rw [h3, hpc]; rfl) (by rw [h4, hpc]; rfl) h5
      (fun _ => by rw [hheap]; simp) ?_ h7 ?_ h9, hframe, Growth.of_cls _ rfl⟩
    · intro a ha
      rw [hheap] at ha
      cases ha
      exact h6
    · rw [show s₁.central = s.central by rw [hstep.rest]]
      exact h.mtx_iff hlocked h8
  cases r with
  | nil =>
      rw [hnext] at hrun
      cases hrun
      exact ⟨_, hpass (.acquire q c) rfl rfl rfl rfl hargs
        ⟨hserve₁, fun x hx => hfull₁ x (hsplit ▸ hx)⟩ trivial rfl trivial⟩
  | cons p' r =>
      rw [hnext] at hrun
      cases hrun
      exact ⟨_, hpass (.walk q c p') rfl rfl rfl rfl hargs
        ⟨hserve₁, l ++ [p], r, hsplit.trans (by simp), hfull₁⟩ trivial rfl trivial⟩

/-- A page of the walk serves: it moves to the front and gives a block. -/
theorem walk_serve (hc : Consistent ps s G) (h : ThreadOk ps s G t th) {k : Nat} {p : PageId}
    (hpc : th.pc = .walk q c p) (hheap : th.heap = some k) {s₁ : Store} {g : PageGhost}
    (hstep : PageStep p s s₁) (hinv : Inv ps s₁ (G.setPage p g)) (hfree : s₁.page.free p ≠ 0)
    {s' : Store} {th' : Thread}
    (hrun : (pagePop (heapRotateToFront s₁ k c p) p).bind
      (fun r => some (deliverBlock r.2 t th q p r.1)) = some (s', th')) :
    ∃ G', Outcome ps t s G s' G' th' := by
  have hlink : th.pc.unlinked = none := by rw [hpc]; rfl
  have hlocked : th.pc.locked = false := by rw [hpc]; rfl
  have hargs : SmallArgs q c := h.args_at hpc
  obtain ⟨hserve, l, r, hsplit, hfulls⟩ : HeapOk s G k (.walk q c p) := h.lists_at hpc rfl hheap
  have hpg : p ∈ G.cls k c := by simp [hsplit]
  have hregion := h.region hlink hheap
  have hdata₁ := hc.page hstep hinv
  have hserve₁ : Serving s₁ (G.setPage p g) k (some p) :=
    hstep.serving (hserve.weaken _) g (Or.inr (Or.inr rfl))
  have hclass : s₁.ClassList k c (l ++ p :: r) := by
    have := hserve₁.lists c
    rwa [show (G.setPage p g).cls k c = l ++ p :: r from hsplit] at this
  obtain ⟨hlist, hrel⟩ := heapRotateToFront_spec hclass (hc.inv.own_page hpg).2.2.1
  have hrel' : Relinked s₁ (heapRotateToFront s₁ k c p) k c ((G.setPage p g).cls k c) := by
    rw [show (G.setPage p g).cls k c = l ++ p :: r from hsplit]
    exact hrel
  have hmem : ∀ x, x ∈ p :: (l ++ r) ↔ x ∈ (G.setPage p g).cls k c := by
    intro x
    rw [show (G.setPage p g).cls k c = l ++ p :: r from hsplit]
    simp only [List.mem_cons, List.mem_append]
    tauto
  generalize heapRotateToFront s₁ k c p = s₂ at hrun hlist hrel hrel'
  have hdata₂ := hdata₁.relink hrel' hmem
  -- Behind the new head are full pages and pages that were behind the old one.
  have hocc : ∀ x ∈ (p :: (l ++ r)).tail, some x ≠ some p → s₁.page.used x ≠ 0 := by
    intro x hx hne
    have hxp : x ≠ p := fun heq => hne (by rw [heq])
    have hrow : s₁.page.used x = s.page.used x := congrArg PageState.used (hstep.row x hxp)
    rw [hrow]
    rcases List.mem_append.mp hx with hxl | hxr
    · have := hfulls x hxl
      unfold Store.Full at this
      rw [this]
      exact (classCapacity_pos hargs.1).ne'
    · refine hserve.occupied c x ?_ (by simp)
      rw [hsplit]
      cases l with
      | nil => exact hxr
      | cons y l => simp [hxr]
  have hserve₂ : Serving s₂ ((G.setPage p g).setCls k c (p :: (l ++ r))) k (some p) :=
    Relinked.serving hdata₁.inv (fun c' _ => ⟨hserve₁.lists c', hserve₁.occupied c'⟩) hrel' hlist
      hocc (fun x hx => Or.inl hx)
  have hask : Asking ps s₂ t th q k c := by
    have h₀ : Asking ps s t th q k c :=
      h.asking hlink (by rw [hpc]; rfl) (by rw [hpc]; rfl) (by rw [hpc]; rfl) hargs hheap
    refine h₀.congr ?_ ?_
    · rw [hrel.rest]
      exact hstep.grants
    · intro a size
      rw [hrel.rest, hstep.regions]
  have hmtx : s₂.central.mtx ≠ some t := by
    rw [hrel.rest]
    change s₁.central.mtx ≠ some t
    rw [hstep.rest]
    exact h.not_locked hlocked
  have hfree₂ : s₂.page.free p ≠ 0 := by
    rw [show s₂.page.free p = s₁.page.free p from congrArg PageState.free (hrel.row p)]
    exact hfree
  obtain ⟨b, s₃, G', hpop, hdata, hthread, hframe, hcls, _⟩ :=
    pop_deliver hdata₂ hask hmtx (by simp : p ∈ _) hserve₂ hfree₂
  rw [hpop, Option.bind_some, Option.some.injEq] at hrun
  rw [hrun] at hdata hthread hframe
  have hframe₁ := StepFrame.page hc.inv hstep hpg hregion g
  have hframe₂ := StepFrame.relink (t := t) hdata₁.inv hrel' (by rw [hstep.regions]; exact hregion)
    (p :: (l ++ r))
  have hg₂ : s₂.grants = s₁.grants := by rw [hrel.rest]
  refine ⟨G', hdata, hthread, hframe₁.trans (hframe₂.trans hframe hg₂) hstep.grants, ?_⟩
  intro a c'
  left
  rw [hcls]
  by_cases hac : a ≠ k ∨ c' ≠ c
  · rw [Ghost.setCls_of_ne _ _ hac]
    exact Nat.le_refl _
  · obtain ⟨rfl, rfl⟩ : a = k ∧ c' = c := by tauto
    rw [Ghost.setCls_self, hsplit]
    simp

/-- One round of the walk of `heap_malloc_slow`. -/
theorem walk_outcome (hc : Consistent ps s G) (h : ThreadOk ps s G t th) {p : PageId}
    (hpc : th.pc = .walk q c p) {s' : Store} {th' : Thread}
    (hrun : stepWalk s t th q c p = some (s', th')) : ∃ G', Outcome ps t s G s' G' th' := by
  obtain ⟨k, hheap, _, l, r, hsplit, _⟩ := h.heap_at hpc rfl rfl
  obtain ⟨hp, hloc, _⟩ := hc.inv.own_page (show p ∈ G.cls k c by simp [hsplit])
  obtain ⟨available, s₁, g, hmake, hinv, hstep, _, hfree, _, hfull⟩ :=
    hc.inv.makeAvailable hp (by simp [hloc])
  rw [stepWalk_eq hheap hmake] at hrun
  cases available with
  | true => exact walk_serve hc h hpc hheap hstep hinv (hfree rfl) hrun
  | false =>
      obtain ⟨hused, hcap⟩ := hfull rfl
      exact walk_on hc h hpc hheap hstep hinv hused hcap hrun

theorem finishAcquire_eq {k : Nat} {np : PageId} {s₁ s₂ : Store}
    (hheap : th.heap = some k) (htake : takePage s k c (classToSize c) = some (np, s₁))
    (hmake : pageMakeAvailable
      (linkFresh { s₁ with central := { s₁.central with mtx := none } } k c np) np =
        some (true, s₂)) :
    finishAcquire s t th q c =
      (pagePop s₂ np).bind (fun r => some (deliverBlock r.2 t th q np r.1)) := by
  unfold finishAcquire
  have hbind : ∀ f : Nat → Option (Store × Thread), th.heap.bind f = f k := by
    intro f
    rw [hheap]
    rfl
  simp only [Option.bind_eq_bind, hbind, htake, Option.bind_some, hmake]
  rfl

/-- The blocks in use of a list of full pages. -/
theorem sum_full {l : List PageId} {used : PageId → Nat} {n : Nat} (h : ∀ pg ∈ l, used pg = n) :
    (l.map used).sum = l.length * n := by
  induction l with
  | nil => simp
  | cons x l ih =>
      rw [List.map_cons, List.sum_cons, h x (by simp), ih (fun y hy => h y (by simp [hy])),
        List.length_cons, Nat.succ_mul]
      omega

/-- The class lists of a thread that has got a block are intact. -/
theorem ThreadOk.delivered_list {s₁ : Store} {pg : PageId} {b k : Nat}
    (h : ThreadOk ps s G t (deliverBlock s₁ t th q pg b).2) (hheap : th.heap = some k) (c : Nat) :
    s.ClassList k c (G.cls k c) := by
  unfold deliverBlock deliver at h
  cases hold : q.old with
  | none =>
      simp only [hold] at h
      exact (h.lists k hheap).lists c
  | some old =>
      simp only [hold] at h
      exact (h.lists k hheap).lists c

/-- A fresh page has been put in front of the list of class `c`, and has served
the block. -/
def FreshHead (t : Nat) (th : Thread) (q : Request) (k c : Nat) (G G' : Ghost) (s' : Store)
    (th' : Thread) : Prop :=
  ∃ np b s₁, np ∉ G.cls k c ∧ G'.cls k c = np :: G.cls k c ∧
    deliverBlock s₁ t th q np b = (s', th')

/-- Page `pg` has been taken from the pool, the mutex is released, and the page is
the head of its class in the heap of thread `t`. -/
structure FreshlyLinked (ps : PageSize) (t k c : Nat) (pg : PageId) (s : Store) (G : Ghost)
    (s' : Store) (G' : Ghost) : Prop where
  fresh : pg ∉ G.cls k c
  head : G'.cls k c = pg :: G.cls k c
  other : ∀ a c', (a ≠ k ∨ c' ≠ c) → G'.cls a c' = G.cls a c'
  data : Consistent ps s' G'
  serving : Serving s' G' k none
  unused : s'.page.used pg = 0
  used : ∀ x ∈ G.cls k c, s'.page.used x = s.page.used x
  grants : s'.grants = s.grants
  regions : s'.os.regions = s.os.regions
  mtx : s'.central.mtx = none
  frame : StepFrame t s G s' G'

/-- The end of `central_acquire_page`, and `heap_malloc_slow` up to the list
insertion. -/
theorem takePage_linked {k : Nat} (hc : Consistent ps s G) (hclass : c < numSizeClasses)
    (hregion : s.os.regions k = some ⟨heapBytes ps, .heap t⟩)
    (hdying : G.dying = none) (hav : s.central.avail ≠ none) (hfilled : Filled s G k c)
    (hmtx : ∀ u, u ≠ t → s.central.mtx ≠ some u) :
    ∃ pg s₁ G', takePage s k c (classToSize c) = some (pg, s₁) ∧
      FreshlyLinked ps t k c pg s G
        (linkFresh { s₁ with central := { s₁.central with mtx := none } } k c pg) G' := by
  obtain ⟨pg, rest, s₁, htake, hloc, hp, hpool, hfresh, hinv₁, hmove⟩ := hc.inv.take hav hclass k
  have hnot : ∀ a c', pg ∉ G.cls a c' := by
    intro a c' hmem
    have := ((hc.inv.lists.places.cls a c' pg).mp hmem).2
    rw [hloc] at this
    cases this
  have hcls : ∀ a c', (a ≠ k ∨ c' ≠ c) → (G.take pg.seg pg rest k c).cls a c' = G.cls a c' :=
    fun a c' hne => update_update_of_ne G.cls _ hne
  have hclsk : (G.take pg.seg pg rest k c).cls k c = pg :: G.cls k c := by simp [Ghost.take]
  have hlinks : ∀ c', ∀ x ∈ G.cls k c', s₁.page.next x = s.page.next x ∧
      s₁.page.prev x = s.page.prev x ∧ s₁.page.used x = s.page.used x := by
    intro c' x hx
    refine hmove.links x (fun heq => hnot k c' (heq ▸ hx)) ?_
    rw [((hc.inv.lists.places.cls k c' x).mp hx).2]
    simp
  have hinv₂ := hinv₁.setMtx none
  have hlists : ∀ c', Store.ClassList { s₁ with central := { s₁.central with mtx := none } } k c'
      (G.cls k c') := by
    intro c'
    refine (hfilled.lists c').congr (by rw [hmove.rest]) (fun x hx => ?_)
    exact ⟨(hlinks c' x hx).1, (hlinks c' x hx).2.1⟩
  obtain ⟨hlist, hrel⟩ := linkFresh_spec (hlists c) (hp.ne_emptyPage hc.inv.regions) (hnot k c)
  have hrel' : Relinked { s₁ with central := { s₁.central with mtx := none } }
      (linkFresh { s₁ with central := { s₁.central with mtx := none } } k c pg) k c
      ((G.take pg.seg pg rest k c).cls k c) := by
    rw [hclsk]
    exact hrel
  have hused : ∀ x, (linkFresh { s₁ with central := { s₁.central with mtx := none } } k c
      pg).page.used x = s₁.page.used x := fun x => congrArg PageState.used (hrel.row x)
  have hdata₂ : Consistent ps { s₁ with central := { s₁.central with mtx := none } }
      (G.take pg.seg pg rest k c) := by
    refine ⟨hinv₂, hc.limbo, ?_, fun _ => hdying⟩
    intro a c' hne
    change ∃ u size, s₁.os.regions a = _
    rw [hmove.regions]
    by_cases hac : a ≠ k ∨ c' ≠ c
    · rw [hcls a c' hac] at hne
      exact hc.homes a c' hne
    · obtain ⟨rfl, rfl⟩ : a = k ∧ c' = c := by tauto
      exact ⟨t, _, hregion⟩
  have htaken : StepFrame t s G s₁ (G.take pg.seg pg rest k c) := by
    refine StepFrame.move hc.inv hmove (fun u hu a size ha => ⟨?_, fun c' => hnot a c'⟩)
      (fun q hq => Function.update_of_ne hq ..) hmtx
    funext c'
    apply hcls
    left
    rintro rfl
    rw [hregion] at ha
    cases ha
    exact hu rfl
  have hunlocked := htaken.trans
    (StepFrame.setMtx _ none (fun u hu => by rw [hmove.mtx]; exact hmtx u hu) (fun _ _ => by simp))
    hmove.grants
  refine ⟨pg, s₁, (G.take pg.seg pg rest k c).setCls k c (pg :: G.cls k c), htake, ?_⟩
  refine ⟨hnot k c, Ghost.setCls_self _ _ _ _, ?_, hdata₂.relink hrel' (fun x => by rw [hclsk]),
    ?_, ?_, ?_, ?_, ?_, by rw [hrel.rest], ?_⟩
  · intro a c' hac
    rw [Ghost.setCls_of_ne _ _ hac, hcls a c' hac]
  · refine Relinked.serving (d := none) hinv₂ ?_ hrel' hlist ?_ (fun x hx => by cases hx)
    · intro c' hc'
      rw [hcls k c' (Or.inr hc')]
      refine ⟨hlists c', fun x hx _ => ?_⟩
      change s₁.page.used x ≠ 0
      rw [(hlinks c' x (List.mem_of_mem_tail hx)).2.2]
      exact hfilled.occupied c' x hx (by simp)
    · intro x hx _
      change s₁.page.used x ≠ 0
      rw [(hlinks c x hx).2.2, hfilled.full x hx]
      exact (classCapacity_pos hclass).ne'
  · rw [hused, hfresh.used]
  · intro x hx
    rw [hused, (hlinks c x hx).2.2]
  · rw [hrel.rest]
    exact hmove.grants
  · rw [hrel.rest]
    exact hmove.regions
  · exact hunlocked.trans (StepFrame.relink (t := t) hinv₂ hrel'
      (by change s₁.os.regions k = _; rw [hmove.regions]; exact hregion) (pg :: G.cls k c))
      hmove.grants

/-- A fresh page has room. -/
theorem FreshlyLinked.makeAvailable {k : Nat} {pg : PageId} {s' : Store} {G' : Ghost}
    (h : FreshlyLinked ps t k c pg s G s' G') (hclass : c < numSizeClasses) :
    ∃ s₁ g, pageMakeAvailable s' pg = some (true, s₁) ∧ Inv ps s₁ (G'.setPage pg g) ∧
      PageStep pg s' s₁ ∧ s₁.page.free pg ≠ 0 ∧ s₁.page.used pg = 0 := by
  have hpg : pg ∈ G'.cls k c := by simp [h.head]
  obtain ⟨hp, hloc, _⟩ := h.data.inv.own_page hpg
  obtain ⟨available, s₁, g, hmake, hinv, hstep, _, hfree, hle, hfull⟩ :=
    h.data.inv.makeAvailable hp (by simp [hloc])
  have hzero : s₁.page.used pg = 0 := by
    rw [h.unused] at hle
    omega
  have hcap := (hinv.own_page (G := G'.setPage pg g) hpg).2.2.2.2.1
  cases available with
  | true => exact ⟨s₁, g, hmake, hinv, hstep, hfree rfl, hzero⟩
  | false =>
      have := (hfull rfl).2
      rw [hzero, hcap] at this
      exact absurd this.symm (classCapacity_pos hclass).ne'

/-- The end of `central_acquire_page` and of `heap_malloc_slow`: a page is
taken from the pool, becomes the head of its class and serves the block. -/
theorem finishAcquire_outcome {k : Nat} (hc : Consistent ps s G) (hask : Asking ps s t th q k c)
    (hdying : G.dying = none) (hav : s.central.avail ≠ none) (hfilled : Filled s G k c)
    (hmtx : ∀ u, u ≠ t → s.central.mtx ≠ some u) :
    ∃ s' th' G', finishAcquire s t th q c = some (s', th') ∧ Outcome ps t s G s' G' th' ∧
      FreshHead t th q k c G G' s' th' := by
  obtain ⟨pg, s₁, G₁, htake, hlinked⟩ :=
    takePage_linked hc hask.args.1 hask.region hdying hav hfilled hmtx
  obtain ⟨s₂, g, hmake, hinv₂, hstep, hfree, hzero⟩ := hlinked.makeAvailable hask.args.1
  have heq := finishAcquire_eq (s := s) (t := t) (q := q) hask.heap htake hmake
  generalize linkFresh { s₁ with central := { s₁.central with mtx := none } } k c pg = s₁'
    at hlinked hmake hstep
  have hpg : pg ∈ G₁.cls k c := by simp [hlinked.head]
  have hserve : Serving s₂ (G₁.setPage pg g) k (some pg) :=
    hstep.serving (hlinked.serving.weaken _) g (Or.inr (Or.inr rfl))
  have hask₂ : Asking ps s₂ t th q k c := by
    refine hask.congr (hstep.grants.trans hlinked.grants) (fun a size => ?_)
    rw [hstep.regions, hlinked.regions]
  have hfree_mtx : s₂.central.mtx ≠ some t := by
    rw [hstep.rest]
    change s₁'.central.mtx ≠ _
    rw [hlinked.mtx]
    simp
  obtain ⟨b, s₃, G', hpop, hdata, hthread, hframe, hcls, hused⟩ :=
    pop_deliver (hlinked.data.page hstep hinv₂) hask₂ hfree_mtx hpg hserve hfree
  have hhead : G'.cls k c = pg :: G.cls k c := by
    rw [hcls]
    exact hlinked.head
  refine ⟨_, _, G', ?_, ⟨hdata, hthread, ?_, ?_⟩, pg, b, s₃, hlinked.fresh, hhead, rfl⟩
  · rw [heq, hpop, Option.bind_some]
  · exact hlinked.frame.trans ((StepFrame.page hlinked.data.inv hstep hpg
      (by rw [hlinked.regions]; exact hask.region) g).trans hframe hstep.grants) hlinked.grants
  · intro a c'
    by_cases hac : a ≠ k ∨ c' ≠ c
    · left
      rw [hcls]
      change (G₁.cls a c').length ≤ _
      rw [hlinked.other a c' hac]
    · obtain ⟨rfl, rfl⟩ : a = k ∧ c' = c := by tauto
      refine Or.inr ⟨by rw [hhead, List.length_cons], hthread.delivered_list hask₂.heap c', ?_⟩
      -- The pages behind the new head are full, and the new head has one block out.
      have hfull : ∀ x ∈ G.cls a c',
          (deliverBlock s₃ t th q pg b).1.page.used x = pageSize / classToSize c' := by
        intro x hx
        have hxp : x ≠ pg := fun heq => hlinked.fresh (heq ▸ hx)
        rw [hused, if_neg hxp, show s₂.page.used x = s₁'.page.used x from
          congrArg PageState.used (hstep.row x hxp), hlinked.used x hx]
        exact hfilled.full x hx
      unfold usedSum
      rw [hhead, List.map_cons, List.sum_cons, hused, if_pos rfl, hzero, sum_full hfull]
      omega

/-- `central_acquire_page` with a free page at hand, or the start of the
sweep. -/
theorem acquire_outcome (hc : Consistent ps s G) (h : ThreadOk ps s G t th)
    (hpc : th.pc = .acquire q c) (hmtx : s.central.mtx = none) {k : Nat}
    (hheap : th.heap = some k) :
    ∃ s' th' G', stepAcquire s t th q c = some (s', th') ∧ Outcome ps t s G s' G' th' ∧
      (s.central.avail ≠ none → FreshHead t th q k c G G' s' th') := by
  have hlink : th.pc.unlinked = none := by rw [hpc]; rfl
  have hargs : SmallArgs q c := h.args_at hpc
  have hfilled : Filled s G k c := h.lists_at hpc rfl hheap
  unfold stepAcquire
  by_cases hav : s.central.avail = none
  · rw [if_pos hav]
    refine ⟨_, _, G, rfl, ⟨⟨hc.inv.setMtx _, hc.limbo, hc.homes, fun hnone => by cases hnone⟩, ?_,
      StepFrame.setMtx G (some t) (fun _ _ => by rw [hmtx]; simp)
        (fun u hu heq => hu (Option.some.inj heq).symm), Growth.of_cls _ rfl⟩,
      fun hne => absurd hav hne⟩
    refine h.advance (fun _ _ => Iff.rfl) rfl hlink rfl (by rw [hpc]; rfl) (by rw [hpc]; rfl)
      (by rw [hpc]; rfl) hargs (fun _ => by rw [hheap]; simp) ?_ trivial
      ⟨fun _ => rfl, fun _ => rfl⟩
      ⟨hc.dying hmtx, fun x hx => by cases hx⟩
    intro a ha
    rw [hheap] at ha
    cases ha
    exact ⟨⟨hfilled.lists, hfilled.occupied⟩, hfilled.full⟩
  · rw [if_neg hav]
    obtain ⟨s', th', G', hfinish, hout, hfresh⟩ := finishAcquire_outcome hc
      (h.asking hlink (by rw [hpc]; rfl) (by rw [hpc]; rfl) (by rw [hpc]; rfl) hargs hheap)
      (hc.dying hmtx) hav hfilled (fun _ _ => by rw [hmtx]; simp)
    exact ⟨s', th', G', hfinish, hout, fun _ => hfresh⟩

end Steps

end HMalloc
