import HMalloc.LargeSteps

/-!
The steps of `hm_free`: a local free, with the release of a page that has become
empty and is not the head of its list, a remote free, and the free of a large
region. In all of them the thread gives up the pointer it is freeing
(`StepFrame.drop`) and touches no byte outside it.
-/

namespace HMalloc

open Bytes Linked

section Drop

variable {ps : PageSize} {s s' : Store} {G G' : Ghost} {t : Nat} {th : Thread} {p result : Nat}

/-- The thread gives up the pointer `p`, the only one whose bytes it may have
changed. -/
theorem StepFrame.drop (hinv : Inv ps s G) {g₀ : Grant} (hg₀ : s.grants p = some g₀)
    (hh₀ : g₀.holder = .freeing t) (hgrants : s'.grants = Function.update s.grants p none)
    (hmem : ∀ x, x < p ∨ p + g₀.usable ≤ x → s'.os.mem x = s.os.mem x)
    (hhomes : ∀ u, u ≠ t → ∀ a size,
      (s'.os.regions a = some ⟨size, .heap u⟩ ↔ s.os.regions a = some ⟨size, .heap u⟩))
    (hlists : ∀ u, u ≠ t → ∀ a size, s.os.regions a = some ⟨size, .heap u⟩ →
      SameLists s G s' G' a)
    (hcentral : s'.central = s.central) (habandoned : G'.abandoned = G.abandoned)
    (hdying : G'.dying = G.dying)
    (hseg : ∀ b, IsSegment s'.os.regions b ↔ IsSegment s.os.regions b) :
    StepFrame t s G s' G' where
  homes := hhomes
  lists := hlists
  holders := by
    intro u hu x g hg
    rw [hgrants]
    by_cases hx : x = p
    · subst hx
      rw [Function.update_self, hg₀]
      refine ⟨(fun heq => by cases heq), fun heq => ?_⟩
      cases heq
      rw [hh₀] at hg
      exact absurd (Option.some.inj hg).symm hu
    · rw [Function.update_of_ne hx]
  kept := by
    intro x g hg hne
    refine ⟨g, ?_⟩
    rw [hgrants, Function.update_of_ne ?_]
    · exact hg
    · rintro rfl
      rw [hg₀] at hg
      cases hg
      exact hne hh₀
  same := by
    intro x g g' hg hg'
    rw [hgrants] at hg'
    have hg' := (PartialMap.erase_eq_some.mp hg').2
    rw [hg] at hg'
    cases hg'
    exact ⟨rfl, rfl⟩
  bytes := by
    intro x g hg hne _ y hlo hhi
    have hx : x ≠ p := by
      rintro rfl
      rw [hg₀] at hg
      cases hg
      exact hne hh₀
    have hd := hinv.grants_disjoint hg hg₀ hx
    exact hmem y (by omega)
  lock := fun _ _ _ => ⟨hcentral, habandoned, hdying, hseg⟩
  unlocked := fun _ _ hm => by rw [hcentral]; exact hm

/-- Frames compose where the first part only drops pointers and the second part
brings none back. -/
theorem StepFrame.drop_trans {s'' : Store} {G'' : Ghost} (h₁ : StepFrame t s G s' G')
    (h₂ : StepFrame t s' G' s'' G'') (hsub : ∀ x g, s'.grants x = some g → s.grants x = some g)
    (hback : ∀ x, s'.grants x = none → s''.grants x = none) : StepFrame t s G s'' G'' where
  homes := fun u hu a size => (h₂.homes u hu a size).trans (h₁.homes u hu a size)
  lists := fun u hu a size ha =>
    (h₁.lists u hu a size ha).trans (h₂.lists u hu a size ((h₁.homes u hu a size).mpr ha))
  holders := fun u hu x g hg => (h₂.holders u hu x g hg).trans (h₁.holders u hu x g hg)
  kept := by
    intro x g hg hne
    obtain ⟨g', hg'⟩ := h₁.kept x g hg hne
    obtain rfl : g' = g := Option.some.inj ((hsub x g' hg').symm.trans hg)
    exact h₂.kept x g' hg' hne
  same := by
    intro x g g'' hg hg''
    cases hg' : s'.grants x with
    | none =>
        rw [hback x hg'] at hg''
        cases hg''
    | some g' =>
        obtain rfl : g' = g := Option.some.inj ((hsub x g' hg').symm.trans hg)
        exact h₂.same x g' g'' hg' hg''
  bytes := by
    intro x g hg hne hfresh y hlo hhi
    obtain ⟨g', hg'⟩ := h₁.kept x g hg hne
    obtain rfl : g' = g := Option.some.inj ((hsub x g' hg').symm.trans hg)
    exact (h₂.bytes x g' hg' hne hfresh y hlo hhi).trans (h₁.bytes x g' hg hne hfresh y hlo hhi)
  lock := fun u hu hm => by
    obtain ⟨c₁, a₁, d₁, s₁⟩ := h₁.lock u hu hm
    obtain ⟨c₂, a₂, d₂, s₂⟩ := h₂.lock u hu (by rw [c₁]; exact hm)
    exact ⟨c₂.trans c₁, a₂.trans a₁, d₂.trans d₁, fun b => (s₂ b).trans (s₁ b)⟩
  unlocked := fun u hu hm => h₂.unlocked u hu (h₁.unlocked u hu hm)

/-- A thread that frees `p` and has given it up holds at most the block its
call returns. -/
theorem ThreadOk.freed_holders (h : ThreadOk ps s G t th) (hfreeing : th.pc.freeing = some p)
    (hrequest : th.pc.request = none) {x : Nat} {g : Grant}
    (hg : Function.update s.grants p none x = some g) (hh : g.holder.thread = some t) :
    g.holder = .fresh t ∧ th.pc.result = some x := by
  obtain ⟨hx, hg⟩ := PartialMap.erase_eq_some.mp hg
  rcases h.held hg hh with ⟨_, q, u, hq, _⟩ | ⟨_, hf⟩ | hfresh
  · cases hrequest.symm.trans hq
  · exact absurd (Option.some.inj (hf.symm.trans hfreeing)) hx
  · exact hfresh

/-- The block a call returns stays when the call gives up another. -/
theorem ThreadOk.fresh_kept (h : ThreadOk ps s G t th) (hfreeing : th.pc.freeing = some p)
    {x : Nat} (hx : th.pc.result = some x) :
    ∃ g, Function.update s.grants p none x = some g ∧ g.holder = .fresh t := by
  obtain ⟨g, hg, hh⟩ := (h.holders x (.fresh t) rfl).mpr hx
  obtain ⟨g₀, hg₀, hh₀⟩ := (h.holders p (.freeing t) rfl).mpr hfreeing
  refine ⟨g, ?_, hh⟩
  rw [Function.update_of_ne ?_]
  · exact hg
  · rintro rfl
    rw [hg] at hg₀
    cases hg₀
    rw [hh] at hh₀
    cases hh₀

/-- The thread has given up the pointer it was freeing, and its call returns. -/
theorem freed_outcome (hc : Consistent ps s G) (h : ThreadOk ps s G t th)
    (hlink : th.pc.unlinked = none) (hlocked : th.pc.locked = false)
    (hfreeing : th.pc.freeing = some p) (hrequest : th.pc.request = none)
    (hresult : th.pc.result = ptr result) (hinv : Inv ps s' G') (hf : StepFrame t s G s' G')
    (hgrants : s'.grants = Function.update s.grants p none)
    (hregions : ∀ a size, s'.os.regions a = some ⟨size, .heap t⟩ ↔
      s.os.regions a = some ⟨size, .heap t⟩)
    (hcentral : s'.central = s.central) (hcls : G'.cls = G.cls) (hlimbo : G'.limbo = G.limbo)
    (hdying : G'.dying = G.dying) (hserve : ∀ a, th.heap = some a → Serving s' G' a none) :
    Outcome ps t s G (finishFree s' th result).1 G' (finishFree s' th result).2 := by
  have hresult' : result ≠ 0 → ∃ g, s'.grants result = some g ∧ g.holder = .fresh t := by
    intro hne
    rw [hgrants]
    exact h.fresh_kept hfreeing (hresult.trans (ptr_of_ne hne))
  obtain ⟨hinv', hthread, hframe⟩ := finishFree_spec h hregions hlink hinv
    (fun x g hg hh => by
      rw [hgrants] at hg
      rw [← hresult]
      exact h.freed_holders hfreeing hrequest hg hh) hresult' hserve
    (by rw [hcentral]; exact h.not_locked hlocked)
  refine ⟨⟨hinv', hlimbo.trans hc.limbo, ?_, ?_⟩, hthread, hf.drop_trans hframe ?_ ?_,
    Growth.of_cls _ hcls⟩
  · intro a c hne
    rw [hcls] at hne
    obtain ⟨u, size, hu⟩ := hc.homes a c hne
    refine ⟨u, size, ?_⟩
    by_cases hut : u = t
    · subst hut
      exact (hregions a size).mpr hu
    · exact (hf.homes u hut a size).mpr hu
  · intro hm
    rw [hdying]
    refine hc.dying ?_
    rw [← hcentral]
    exact hm
  · intro x g hg
    rw [hgrants] at hg
    exact (PartialMap.erase_eq_some.mp hg).2
  · intro x hnone
    unfold finishFree
    dsimp only
    split
    · exact hnone
    · by_cases hx : x = result
      · subst hx
        rw [setHolder_self, hnone]
        rfl
      · rw [setHolder_of_ne _ _ hx]
        exact hnone

end Drop

section Steps

variable {ps : PageSize} {s : Store} {G : Ghost} {t : Nat} {th : Thread} {p result : Nat}

/-- The last step of `free_large`. -/
theorem unmapLarge_outcome (hc : Consistent ps s G) (h : ThreadOk ps s G t th) {base size : Nat}
    (hpc : th.pc = .unmapLarge p base size result) :
    Outcome ps t s G (stepUnmapLarge s th p base size result).1 G
      (stepUnmapLarge s th p base size result).2 := by
  have hlink : th.pc.unlinked = none := by rw [hpc]; rfl
  obtain ⟨offset, hb, g, hg, ho⟩ : ∃ offset, LargeGrant s p base size offset := h.pointers_at hpc
  obtain ⟨g', hg', hh⟩ := (h.holders p (.freeing t) rfl).mpr (by rw [hpc]; rfl)
  rw [hg] at hg'
  cases hg'
  obtain ⟨hmem, hregions, _⟩ := osFree_region hc.inv.regions hb
  simp only at hmem hregions
  have hkeep : ∀ a r, r.purpose ≠ .large offset →
      ((osFree s.os base size).regions a = some r ↔ s.os.regions a = some r) := by
    intro a r hr
    rw [hregions]
    exact regions_drop_keeps hb a r hr
  have hframe : StepFrame t s G
      { s with os := osFree s.os base size, grants := Function.update s.grants p none } G :=
    StepFrame.drop hc.inv hg hh rfl (fun x _ => congrFun hmem x)
      (fun u _ a _ => hkeep a _ (by simp))
      (fun u _ a _ _ => .of_pages rfl rfl rfl rfl) rfl rfl rfl
      (fun a => hkeep a _ (by simp))
  refine freed_outcome hc h hlink (by rw [hpc]; rfl) (by rw [hpc]; rfl) (by rw [hpc]; rfl)
    (by rw [hpc]; rfl) (hc.inv.unmapLarge hg ho hb) hframe rfl (fun a _ => hkeep a _ (by simp))
    rfl rfl rfl rfl ?_
  intro a ha
  obtain ⟨hl, hocc⟩ := h.lists_at hpc rfl ha
  exact ⟨hl, hocc⟩

/-- A page with a block out is in a class list or on the abandoned list. -/
theorem Inv.owner_of_grant (hinv : Inv ps s G) {g : Grant} {pg : PageId} {i : Nat}
    (hg : s.grants p = some g) (ho : g.origin = .small pg i) :
    (∃ k c, pg ∈ G.cls k c ∧ s.page.owner pg = .heap k ∧ s.page.sizeClass pg = c) ∨
      s.page.owner pg = .abandoned := by
  have hs := hinv.smallGrant hg ho
  have hloc := (hinv.pages pg hs.page).loc
  have hserv := (hinv.pages pg hs.page).loc_of_mem (Or.inr (Or.inr hs.out))
  unfold LocOk at hloc
  cases hl : (G.page pg).loc with
  | pool => exact absurd hl hserv.1
  | limbo => exact absurd hl hserv.2
  | held k c =>
      rw [hl] at hloc
      exact Or.inl ⟨k, c, (hinv.lists.places.cls k c pg).mpr ⟨hs.page, hl⟩, hloc.1, hloc.2.1⟩
  | abandoned =>
      rw [hl] at hloc
      exact Or.inr hloc.1

/-- `free_large` up to the unmapping. -/
theorem free_large (hc : Consistent ps s G) (h : ThreadOk ps s G t th)
    (hpc : th.pc = .free p result) {g : Grant} {b : Nat} (hg : s.grants p = some g)
    (ho : g.origin = .large b) {s' : Store} {th' : Thread}
    (hrun : stepFree s th p result = some (s', th')) : ∃ G', Outcome ps t s G s' G' th' := by
  have hlink : th.pc.unlinked = none := by rw [hpc]; rfl
  obtain ⟨hbase, hlarge⟩ := hc.inv.decode_large hg ho
  obtain ⟨size, offset, hb, _⟩ := hc.inv.grants.large p g b hg ho
  obtain ⟨_, hsize, _⟩ := hc.inv.tags.large b size offset hb
  unfold stepFree at hrun
  rw [if_pos hlarge, hbase] at hrun
  simp only [hsize, Option.bind_eq_bind, Option.bind_eq_some_iff] at hrun
  obtain ⟨r, hunreg, hrun⟩ := hrun
  cases hrun
  have hinv := (hc.inv.unregister hunreg).setLarge (Word.sub 64 s.largeCount 1)
    (Word.sub 64 s.largeBytes size)
    (s.largeWrapped || decide (s.largeCount < 1) || decide (s.largeBytes < size))
  refine ⟨G, ⟨hinv, hc.limbo, hc.homes, hc.dying⟩, ?_, ?_, Growth.of_cls _ rfl⟩
  · refine h.advance (fun _ _ => Iff.rfl) rfl hlink rfl (by rw [hpc]; rfl) (by rw [hpc]; rfl)
      (by rw [hpc]; rfl) trivial (fun hn => by cases hn) ?_ ⟨offset, hb, g, hg, ho⟩
      (h.mtx_iff (by rw [hpc]; rfl) rfl) trivial
    intro a ha
    obtain ⟨hl, hocc⟩ := h.lists_at hpc rfl ha
    exact ⟨hl, hocc⟩
  · exact StepFrame.world rfl rfl rfl (fun _ _ _ _ => Iff.rfl) (fun _ _ _ _ _ => rfl) rfl rfl
      (fun _ _ _ => ⟨rfl, rfl, fun _ => Iff.rfl⟩) (fun _ _ _ _ _ _ => rfl)

/-- The link that `heap_free_remote` stores in the block it is freeing. -/
theorem remote_store (hc : Consistent ps s G) (h : ThreadOk ps s G t th)
    (hlink : th.pc.unlinked = none) (hlocked : th.pc.locked = false)
    (hfreeing : th.pc.freeing = some p) (hrequest : th.pc.request = none)
    (hresult : th.pc.result = ptr result)
    (hserve : ∀ a, th.heap = some a → Serving s G a none) {g : Grant} {pg : PageId} {i : Nat}
    (hg : s.grants p = some g) (ho : g.origin = .small pg i) :
    Outcome ps t s G
      { s with os := { s.os with mem := writeWord s.os.mem p (s.page.threadFree pg) } } G
      { th with pc := .remote p (s.page.threadFree pg) result } := by
  obtain ⟨g', hg', hh⟩ := (h.holders p (.freeing t) rfl).mpr hfreeing
  rw [hg] at hg'
  cases hg'
  have hs := hc.inv.smallGrant hg ho
  have hlt := hc.inv.threadFree_lt hg ho
  have hsize := hs.two_words
  refine ⟨⟨hc.inv.writeLink hg ho _, hc.limbo, hc.homes, hc.dying⟩, ?_, ?_, Growth.of_cls _ rfl⟩
  · refine h.advance (fun _ _ => Iff.rfl) rfl hlink rfl hrequest.symm hfreeing.symm
      hresult.symm trivial (fun hn => by cases hn) ?_ ⟨?_, g, pg, i, hg, ho⟩
      (h.mtx_iff hlocked rfl) trivial
    · intro a ha
      obtain ⟨hl, hocc⟩ := hserve a ha
      exact ⟨hl, hocc⟩
    · exact readWord_writeWord _ _ _ hlt
  · refine StepFrame.grants (b := p) (n := g.usable) ?_ (fun _ _ _ _ _ => Iff.rfl)
      (fun x g' hg' _ => ⟨g', hg'⟩) (same_grants rfl) ?_ ?_
    · intro g' hg'
      rw [hg] at hg'
      cases hg'
      exact Or.inr hh
    · intro x hx
      exact writeWord_outside _ _ _ _ (by omega)
    · intro x g' hg' hx
      exact hc.inv.grants_disjoint hg' hg hx

/-- A local `heap_free`, once the page is known to be the thread's own. -/
theorem stepFree_local (s : Store) {th : Thread} {p k c : Nat} {pg : PageId} (result : Nat)
    (hlarge : isLarge s.os.mem p = false) (hpage : pageOf p = pg) (hheap : th.heap = some k)
    (howner : s.page.owner pg = .heap k) (hclass : s.page.sizeClass pg = c) :
    stepFree s th p result =
      if (pushLocal s pg p).page.used pg = 0 ∧ s.slot k c ≠ pg then
        some ({ pushLocal s pg p with grants := Function.update s.grants p none },
          { th with pc := .release pg result })
      else some (finishFree
        { pushLocal s pg p with grants := Function.update s.grants p none } th result) := by
  have hown : s.page.owner pg = Owner.ofHeap th.heap := by
    rw [howner, hheap]
    rfl
  have howner' : (pushLocal s pg p).page.owner pg = .heap k := howner
  have hclass' : (pushLocal s pg p).page.sizeClass pg = c := hclass
  unfold stepFree
  simp only [hlarge, hpage, if_pos hown, howner', hclass']
  change (if _ then (if s.slot k c = pg then _ else _) else _) = _
  by_cases hused : (pushLocal s pg p).page.used pg = 0
  · by_cases hslot : s.slot k c = pg
    · rw [if_pos hused, if_pos hslot, if_neg (fun hand => hand.2 hslot)]
    · rw [if_pos hused, if_neg hslot, if_pos ⟨hused, hslot⟩]
  · rw [if_neg hused, if_neg (fun hand => hused hand.1)]

/-- The ghost state after `heap_free_local`: block `p` goes back to its page. -/
def Ghost.pushed (G : Ghost) (pg : PageId) (p : Nat) : Ghost :=
  G.setPage pg
    { G.page pg with free := p :: (G.page pg).free, out := (G.page pg).out.erase p }

theorem pushLocal_used (s : Store) (p : Nat) {pg q : PageId} (hq : q ≠ pg) :
    (pushLocal s pg p).page.used q = s.page.used q :=
  Function.update_of_ne hq ..

/-- The other threads do not notice a local free. -/
theorem StepFrame.pushLocal (hinv : Inv ps s G) {g : Grant} {pg : PageId} {i k c : Nat}
    (hg : s.grants p = some g) (ho : g.origin = .small pg i) (hh : g.holder = .freeing t)
    (hpg : pg ∈ G.cls k c) (hregion : s.os.regions k = some ⟨heapBytes ps, .heap t⟩) :
    StepFrame t s G { HMalloc.pushLocal s pg p with grants := Function.update s.grants p none }
      (G.pushed pg p) := by
  have hsize := (hinv.smallGrant hg ho).two_words
  refine StepFrame.drop hinv hg hh rfl ?_ (fun _ _ _ _ => Iff.rfl) ?_ rfl rfl rfl
    (fun _ => Iff.rfl)
  · intro x hx
    exact writeWord_outside _ _ _ _ (by omega)
  · intro u hu a size ha
    refine ⟨rfl, rfl, fun c' q hq => ?_, fun c' q hq => ?_⟩
    · exact ⟨rfl, rfl, pushLocal_used s p (hinv.page_ne hpg hregion hu ha hq)⟩
    · have hne := hinv.page_ne hpg hregion hu ha hq
      refine .of_row ?_ (by rw [Ghost.pushed, Ghost.setPage_of_ne G _ hne])
      simp [Pages.row, HMalloc.pushLocal, Function.update_of_ne hne]

/-- The class lists stay as they are; the page may have run empty behind the head. -/
theorem Serving.pushLocal {k c : Nat} {pg : PageId} (h : Serving s G k none) (hinv : Inv ps s G)
    (hpg : pg ∈ G.cls k c) {drained : Option PageId}
    (hd : (HMalloc.pushLocal s pg p).page.used pg = 0 → s.slot k c ≠ pg → some pg = drained) :
    Serving { HMalloc.pushLocal s pg p with grants := Function.update s.grants p none }
      (G.pushed pg p) k drained := by
  refine ⟨fun c' => (h.lists c').congr rfl (fun _ _ => ⟨rfl, rfl⟩), ?_⟩
  intro c' q hq hne
  change q ∈ (G.cls k c').tail at hq
  change (HMalloc.pushLocal s pg p).page.used q ≠ 0
  by_cases hqp : q = pg
  · subst hqp
    obtain rfl : c' = c := hinv.class_unique hpg (List.mem_of_mem_tail hq)
    exact fun hzero => hne (hd hzero (((h.lists c').mem_tail_iff hpg).mp hq))
  · rw [pushLocal_used s p hqp]
    exact h.occupied c' q hq (by simp)

/-- A local `heap_free`. -/
theorem free_local (hc : Consistent ps s G) (h : ThreadOk ps s G t th)
    (hpc : th.pc = .free p result) {g : Grant} {pg : PageId} {i k c : Nat}
    (hg : s.grants p = some g) (ho : g.origin = .small pg i) (hheap : th.heap = some k)
    (hpg : pg ∈ G.cls k c) (howner : s.page.owner pg = .heap k)
    (hclass : s.page.sizeClass pg = c) {s' : Store} {th' : Thread}
    (hrun : stepFree s th p result = some (s', th')) : ∃ G', Outcome ps t s G s' G' th' := by
  have hlink : th.pc.unlinked = none := by rw [hpc]; rfl
  have hlocked : th.pc.locked = false := by rw [hpc]; rfl
  have hfreeing : th.pc.freeing = some p := by rw [hpc]; rfl
  obtain ⟨_, hlarge, hpage⟩ := hc.inv.decode_small hg ho
  obtain ⟨g', hg', hh⟩ := (h.holders p (.freeing t) rfl).mpr hfreeing
  rw [hg] at hg'
  cases hg'
  have hserve : Serving s G k none := h.lists_at hpc rfl hheap
  have hinv : Inv ps _ (G.pushed pg p) := hc.inv.push hg ho
  have hframe := StepFrame.pushLocal hc.inv hg ho hh hpg (h.region hlink hheap)
  rw [stepFree_local s result hlarge hpage hheap howner hclass] at hrun
  split at hrun
  · rename_i hempty
    cases hrun
    refine ⟨_, ⟨hinv, hc.limbo, hc.homes, hc.dying⟩, ?_, hframe, Growth.of_cls _ rfl⟩
    refine ⟨trivial, ?_, fun _ => by rw [hheap]; simp, fun hne => absurd rfl hne, ?_, ?_, ?_,
      trivial, h.mtx_iff hlocked rfl, trivial⟩
    · intro a size
      refine (h.home a size).trans ?_
      rw [Thread.home_of_linked hlink]
      exact Iff.rfl
    · intro a ha
      obtain rfl : k = a := Option.some.inj (hheap.symm.trans ha)
      exact ⟨hserve.pushLocal hc.inv hpg (fun _ _ => rfl), hempty.1, c,
        ((hserve.lists c).mem_tail_iff hpg).mpr hempty.2⟩
    · intro x holder hholder
      constructor
      · rintro ⟨g', hg', rfl⟩
        obtain ⟨hfresh, hres⟩ := h.freed_holders hfreeing (by rw [hpc]; rfl) hg' hholder
        rw [hfresh]
        rw [hpc] at hres
        exact hres
      · intro hholds
        cases holder with
        | client => cases hholder
        | moving u =>
            obtain ⟨q, u', hq, _⟩ := hholds
            cases hq
        | freeing u => cases hholds
        | fresh u =>
            obtain rfl : u = t := Option.some.inj hholder
            exact h.fresh_kept hfreeing (by rw [hpc]; exact hholds)
    · intro q x usable g' hq
      cases hq
  · rename_i hkeep
    have hout := freed_outcome hc h hlink hlocked hfreeing (by rw [hpc]; rfl)
      (show th.pc.result = ptr result by rw [hpc]; rfl) hinv hframe rfl (fun _ _ => Iff.rfl) rfl
      rfl rfl rfl (fun a ha => by
        obtain rfl : k = a := Option.some.inj (hheap.symm.trans ha)
        exact hserve.pushLocal hc.inv hpg (fun hzero hslot => absurd ⟨hzero, hslot⟩ hkeep))
    rw [Option.some.inj hrun] at hout
    exact ⟨_, hout⟩

/-- The first step of `hm_free`. -/
theorem free_outcome (hc : Consistent ps s G) (h : ThreadOk ps s G t th)
    (hpc : th.pc = .free p result) {s' : Store} {th' : Thread}
    (hrun : stepFree s th p result = some (s', th')) : ∃ G', Outcome ps t s G s' G' th' := by
  have hlink : th.pc.unlinked = none := by rw [hpc]; rfl
  obtain ⟨g, hg, _⟩ := (h.holders p (.freeing t) rfl).mpr (by rw [hpc]; rfl)
  cases ho : g.origin with
  | large b => exact free_large hc h hpc hg ho hrun
  | small pg i =>
      obtain ⟨_, hlarge, hpage⟩ := hc.inv.decode_small hg ho
      by_cases hown : s.page.owner pg = Owner.ofHeap th.heap
      · rcases hc.inv.owner_of_grant hg ho with ⟨k, c, hpg, howner, hclass⟩ | habandoned
        · have hheap : th.heap = some k := by
            rw [howner] at hown
            cases hth : th.heap with
            | none =>
                rw [hth] at hown
                cases hown
            | some a =>
                rw [hth] at hown
                cases hown
                rfl
          exact free_local hc h hpc hg ho hheap hpg howner hclass hrun
        · rw [habandoned] at hown
          cases hth : th.heap <;> rw [hth] at hown <;> cases hown
      · have hstore := remote_store hc h hlink (by rw [hpc]; rfl) (by rw [hpc]; rfl)
          (by rw [hpc]; rfl) (show th.pc.result = ptr result by rw [hpc]; rfl)
          (fun a ha => h.lists_at hpc rfl ha) hg ho
        unfold stepFree at hrun
        simp only [hlarge, hpage, if_neg hown] at hrun
        cases hrun
        exact ⟨G, hstore⟩

/-- The compare-exchange of `heap_free_remote`. -/
theorem remote_outcome (hc : Consistent ps s G) (h : ThreadOk ps s G t th) {head : Nat}
    (hpc : th.pc = .remote p head result) (o : Oracle) :
    ∃ G', Outcome ps t s G (stepRemote o s th p head result).1 G'
      (stepRemote o s th p head result).2 := by
  have hlink : th.pc.unlinked = none := by rw [hpc]; rfl
  have hlocked : th.pc.locked = false := by rw [hpc]; rfl
  have hfreeing : th.pc.freeing = some p := by rw [hpc]; rfl
  obtain ⟨hword, g, pg, i, hg, ho⟩ : readWord s.os.mem p = head ∧
      ∃ g pg i, s.grants p = some g ∧ g.origin = .small pg i := h.pointers_at hpc
  obtain ⟨_, _, hpage⟩ := hc.inv.decode_small hg ho
  have hserve : ∀ a, th.heap = some a → Serving s G a none :=
    fun a ha => h.lists_at hpc rfl ha
  unfold stepRemote
  simp only [hpage]
  by_cases hnow : s.page.threadFree pg = head ∧ o.spurious = false
  · rw [if_pos hnow]
    obtain ⟨g', hg', hh⟩ := (h.holders p (.freeing t) rfl).mpr hfreeing
    rw [hg] at hg'
    cases hg'
    have hinv := hc.inv.remotePush hg ho (hword.trans hnow.1.symm)
    -- Only the page's remote list has changed.
    have hblocks : ∀ q, SameBlocks s G { s with
        page := { s.page with threadFree := Function.update s.page.threadFree pg p }
        grants := Function.update s.grants p none }
        (G.setPage pg { G.page pg with
          remote := p :: (G.page pg).remote, out := (G.page pg).out.erase p }) q := by
      intro q
      refine ⟨rfl, ?_⟩
      by_cases hq : q = pg
      · rw [hq, Ghost.setPage_self]
      · rw [Ghost.setPage_of_ne G _ hq]
    refine ⟨_, freed_outcome hc h hlink hlocked hfreeing (by rw [hpc]; rfl) (by rw [hpc]; rfl)
      hinv ?_ rfl (fun _ _ => Iff.rfl) rfl rfl rfl rfl ?_⟩
    · exact StepFrame.drop hc.inv hg hh rfl (fun _ _ => rfl) (fun _ _ _ _ => Iff.rfl)
        (fun _ _ _ _ _ => ⟨rfl, rfl, fun _ _ _ => ⟨rfl, rfl, rfl⟩, fun _ q _ => hblocks q⟩)
        rfl rfl rfl (fun _ => Iff.rfl)
    · intro a ha
      exact (hserve a ha).frame ⟨rfl, rfl, fun _ _ _ => ⟨rfl, rfl, rfl⟩, fun _ q _ => hblocks q⟩
  · rw [if_neg hnow]
    exact ⟨G, remote_store hc h hlink hlocked hfreeing (by rw [hpc]; rfl) (by rw [hpc]; rfl)
      hserve hg ho⟩

end Steps

end HMalloc
