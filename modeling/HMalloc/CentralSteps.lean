import HMalloc.AfterSteps

/-!
The steps inside the critical section of the central heap: the rounds of the
sweep, the mapping and registering of a segment, and the unregistering and
unmapping of an idle one.
-/

namespace HMalloc

open Bytes Linked

section Steps

variable {ps : PageSize} {s : Store} {G : Ghost} {t : Nat} {th : Thread} {q : Request} {c : Nat}

/-- The lock excludes the other threads. -/
theorem ThreadOk.excludes (h : ThreadOk ps s G t th) (hl : th.pc.locked = true) :
    s.central.mtx = some t ∧ ∀ u, u ≠ t → s.central.mtx ≠ some u := by
  have hm := h.mtx.mpr hl
  refine ⟨hm, fun u hu heq => ?_⟩
  rw [hm] at heq
  exact hu (Option.some.inj heq).symm

/-- A visit of the sweep. -/
theorem sweep_visit (hc : Consistent ps s G) (h : ThreadOk ps s G t th) {cur : Option PageId}
    (hpc : th.pc = .sweep q c cur) {pg : PageId} (hread : cursorRead s cur = some pg) :
    ∃ s' th' G', stepSweep s t th q c cur = some (s', th') ∧ Outcome ps t s G s' G' th' := by
  have hlink : th.pc.unlinked = none := by rw [hpc]; rfl
  have hargs : SmallArgs q c := h.args_at hpc
  obtain ⟨k, hheap, hfilled⟩ : ∃ k, th.heap = some k ∧ Filled s G k c :=
    h.heap_at hpc rfl rfl
  obtain ⟨hdying, hcur⟩ : G.dying = none ∧ CursorOk G cur := h.lock_at hpc
  obtain ⟨hm, hothers⟩ := h.excludes (by rw [hpc]; rfl)
  obtain ⟨s₁, s₂, next, G', _, _, hvisit, hinv, hmove, hround, _⟩ :=
    hc.inv.sweepVisit hc.limbo hdying hcur hread
  obtain ⟨hcls, hlimbo, hdying', hcur'⟩ := hround.next_ok hc.inv hc.limbo hdying hcur hread
  have hnot : ∀ a c', pg ∉ G.cls a c' := by
    intro a c' hmem
    obtain ⟨l, r, hsplit, _⟩ := hc.inv.cursor_split hcur hread
    have h₁ := ((hc.inv.lists.places.abandoned pg).mp (by simp [hsplit])).2
    have h₂ := ((hc.inv.lists.places.cls a c' pg).mp hmem).2
    rw [h₁] at h₂
    cases h₂
  have hmtx : s₂.central.mtx = some t := hmove.mtx.trans hm
  have hdata : Consistent ps s₂ G' := by
    refine ⟨hinv, hlimbo, ?_, fun hnone => by rw [hmtx] at hnone; cases hnone⟩
    intro a c' hne
    rw [hmove.regions]
    rw [hcls] at hne
    exact hc.homes a c' hne
  have hframe : StepFrame t s G s₂ G' :=
    StepFrame.move hc.inv hmove (fun _ _ a _ _ => ⟨congrFun hcls a, hnot a⟩)
      (fun q hq => hround.page hq) hothers
  have hfilled' : Filled s₂ G' k c :=
    hfilled.frame (hmove.sameLists hc.inv (congrFun hcls k) (hnot k)
      (fun q hq => hround.page hq))
  have hpass : ∀ pc : Pc, pc.unlinked = none → pc.request = some q → pc.freeing = none →
      pc.result = none → pc.Args → HeapOk s₂ G' k pc → PointersOk s₂ pc → pc.locked = true →
      LockOk s₂ G' pc → Outcome ps t s G s₂ G' { th with pc := pc } := by
    intro pc h1 h2 h3 h4 h5 h6 h7 h8 h9
    refine ⟨hdata, h.advance (fun a size => by rw [hmove.regions]) hmove.grants hlink h1
      (by rw [h2, hpc]; rfl) (by rw [h3, hpc]; rfl) (by rw [h4, hpc]; rfl) h5
      (fun _ => by rw [hheap]; simp) ?_ h7 ⟨fun _ => h8, fun _ => hmtx⟩ h9, hframe,
      Growth.of_cls _ hcls⟩
    intro a ha
    rw [hheap] at ha
    cases ha
    exact h6
  simp only [stepSweep, hread, hvisit, Option.bind_eq_bind, Option.bind_some]
  cases hun : next.unmap with
  | none =>
      rw [hun] at hdying'
      exact ⟨_, _, G', rfl, hpass (.sweep q c next.cursor) rfl rfl rfl rfl hargs hfilled' trivial
        rfl ⟨hdying', hcur'⟩⟩
  | some b =>
      rw [hun] at hdying'
      exact ⟨_, _, G', rfl, hpass (.unregisterSegment b (.sweeping q c next.cursor)) rfl rfl rfl rfl
        hargs hfilled' trivial rfl ⟨hdying', hcur'⟩⟩

/-- One round of the sweep, and what follows its last round. -/
theorem sweep_outcome (hc : Consistent ps s G) (h : ThreadOk ps s G t th) {cur : Option PageId}
    (hpc : th.pc = .sweep q c cur) {k : Nat} (hheap : th.heap = some k) :
    ∃ s' th' G', stepSweep s t th q c cur = some (s', th') ∧ Outcome ps t s G s' G' th' ∧
      (cursorRead s cur = none → s.central.avail ≠ none → FreshHead t th q k c G G' s' th') := by
  cases hread : cursorRead s cur with
  | some pg =>
      obtain ⟨s', th', G', hrun, hout⟩ := sweep_visit hc h hpc hread
      exact ⟨s', th', G', hrun, hout, fun hnone => by cases hnone⟩
  | none =>
      have hlink : th.pc.unlinked = none := by rw [hpc]; rfl
      have hargs : SmallArgs q c := h.args_at hpc
      have hfilled : Filled s G k c := h.lists_at hpc rfl hheap
      obtain ⟨hdying, _⟩ : G.dying = none ∧ CursorOk G cur := h.lock_at hpc
      obtain ⟨hm, hothers⟩ := h.excludes (by rw [hpc]; rfl)
      simp only [stepSweep, hread]
      by_cases hav : s.central.avail = none
      · rw [if_pos hav]
        refine ⟨_, _, G, rfl, ⟨hc, h.advance (fun _ _ => Iff.rfl) rfl hlink rfl (by rw [hpc]; rfl)
          (by rw [hpc]; rfl) (by rw [hpc]; rfl) hargs (fun _ => by rw [hheap]; simp) ?_ trivial
          ⟨fun _ => rfl, fun _ => hm⟩ ⟨hdying, hav⟩, StepFrame.refl t s G, Growth.of_cls _ rfl⟩,
          fun _ hne => absurd hav hne⟩
        intro a ha
        rw [hheap] at ha
        cases ha
        exact hfilled
      · rw [if_neg hav]
        obtain ⟨s', th', G', hfinish, hout, hfresh⟩ := finishAcquire_outcome hc
          (h.asking hlink (by rw [hpc]; rfl) (by rw [hpc]; rfl) (by rw [hpc]; rfl) hargs hheap)
          hdying hav hfilled hothers
        exact ⟨s', th', G', hfinish, hout, fun _ _ => hfresh⟩

/-- The pages of class lists are not in a segment that has just been mapped. -/
theorem SameLists.initSegment (hinv : Inv ps s G) {os : Os} {b : Nat}
    (hmap : s.os.Mapped os b segmentSize .small) (hav : s.central.avail = none) (a : Nat) :
    SameLists s G (initSegment { s with os := os } b) (G.mapped b) a := by
  have hinit := initSegment_spec (s := { s with os := os }) b hav
  have hfresh := hmap.unmapped_before hinv.regions
  have hseg : ∀ c', ∀ x ∈ G.cls a c', x.seg ≠ b := by
    rintro c' x hx rfl
    have hold := ((hinv.lists.places.cls a c' x).mp hx).1.1
    unfold IsSegment at hold
    rw [hfresh] at hold
    cases hold
  refine ⟨by rw [hinit.rest], rfl, fun c' x hx => ?_, fun c' x hx => ?_⟩
  · have hlinks := hinit.links x (hseg c' x hx)
    exact ⟨hlinks.1, hlinks.2, congrArg PageState.used (hinit.row x (hseg c' x hx))⟩
  · exact .of_row (hinit.row x (hseg c' x hx)) (by simp [Ghost.mapped, hseg c' x hx])

/-- `map_segment` up to `region_register`. -/
theorem mapSegment_outcome (hc : Consistent ps s G) (h : ThreadOk ps s G t th)
    (hpc : th.pc = .mapSegment q c) {o : Oracle}
    (hk : KernelOk ps o.mapping s.os segmentSize segmentSize) :
    ∃ G', Outcome ps t s G (stepMapSegment ps o s th q c).1 G'
      (stepMapSegment ps o s th q c).2 := by
  have hlink : th.pc.unlinked = none := by rw [hpc]; rfl
  have hargs : SmallArgs q c := h.args_at hpc
  obtain ⟨k, hheap, hfilled⟩ : ∃ k, th.heap = some k ∧ Filled s G k c :=
    h.heap_at hpc rfl rfl
  obtain ⟨hdying, hav⟩ : G.dying = none ∧ s.central.avail = none := h.lock_at hpc
  obtain ⟨hm, hothers⟩ := h.excludes (by rw [hpc]; rfl)
  have hsize : segmentSize < 2 ^ 64 := by decide
  unfold stepMapSegment
  rcases osAllocAligned_spec ps .small hk hsize hsize with hnone | ⟨b, os, hsome, hmap, hdvd⟩
  · -- The mapping failed: unlock and return null.
    rw [hnone]
    obtain ⟨hinv, hthread, hframe⟩ := failAlloc_spec (q := q) (G := G)
      (s := { s with central := { s.central with mtx := none } }) h rfl (fun _ _ => Iff.rfl) hlink
      (by rw [hpc]; rfl) (by rw [hpc]; rfl) (by rw [hpc]; rfl) (hc.inv.setMtx none)
      (fun a ha => by
        rw [hheap] at ha
        cases ha
        exact ⟨hfilled.lists, hfilled.occupied⟩) (by simp)
    have hrest : (failAlloc { s with central := { s.central with mtx := none } } th q).1 =
        { s with
          central := { s.central with mtx := none }
          grants := (failAlloc { s with central := { s.central with mtx := none } } th
            q).1.grants } := by
      unfold failAlloc
      cases q.old <;> rfl
    refine ⟨G, ⟨hinv, hc.limbo, ?_, fun _ => hdying⟩, hthread,
      (StepFrame.setMtx G none hothers (fun _ _ => by simp)).trans hframe rfl, Growth.of_cls _ rfl⟩
    intro a c' hne
    rw [hrest]
    exact hc.homes a c' hne
  · rw [hsome]
    have hinv := hc.inv.mapSegment hmap hdvd hav
    have hinit := initSegment_spec (s := { s with os := os }) b hav
    have hlists := SameLists.initSegment hc.inv hmap hav
    dsimp only
    generalize initSegment { s with os := os } b = s₁ at hinv hinit hlists
    have hregions : s₁.os.regions = Function.update s.os.regions b
        (some ⟨segmentSize, .small⟩) := by
      rw [hinit.rest]
      exact hmap.regions
    have hheaps : ∀ u a size, s₁.os.regions a = some ⟨size, .heap u⟩ ↔
        s.os.regions a = some ⟨size, .heap u⟩ := by
      intro u a size
      rw [hregions, ← hmap.regions]
      exact hmap.keeps hc.inv.regions a _ (by simp)
    have hgrants : s₁.grants = s.grants := by rw [hinit.rest]
    have hmtx : s₁.central.mtx = some t := by
      rw [hinit.central]
      exact hm
    refine ⟨G.mapped b, ⟨hinv, hc.limbo, ?_, fun hnone => by rw [hmtx] at hnone; cases hnone⟩,
      ?_, ?_, Growth.of_cls _ rfl⟩
    · intro a c' hne
      obtain ⟨u, size, hu⟩ := hc.homes a c' hne
      exact ⟨u, size, (hheaps u a size).mpr hu⟩
    · refine h.advance (hheaps t) hgrants hlink rfl (by rw [hpc]; rfl) (by rw [hpc]; rfl)
        (by rw [hpc]; rfl) hargs (fun _ => by rw [hheap]; simp) ?_ trivial
        ⟨fun _ => rfl, fun _ => hmtx⟩ ⟨hdying, ?_, ?_⟩
      · intro a ha
        rw [hheap] at ha
        cases ha
        exact hfilled.frame (hlists k)
      · rw [hinit.central]
        have havail := hc.inv.avail_nil hav
        refine ⟨rfl, ?_, ?_⟩
        · change Word.add 64 s.central.freeSegments 1 = 1
          rw [hc.inv.idle_of_avail_nil havail, Word.add_eq (by decide)]
        · change Word.add 64 s.central.freePageCount usablePagesPerSegment = _
          rw [hc.inv.free_of_avail_nil havail, Word.add_eq (by decide), Nat.zero_add]
      · unfold IsSegment
        rw [hregions, Function.update_self]
    · refine ⟨fun u _ => hheaps u, fun u _ a _ _ => hlists a, fun u _ p g _ => by rw [hgrants],
        fun p g hg _ => ⟨g, by rw [hgrants]; exact hg⟩, same_grants hgrants, ?_,
        fun u hu hmu => absurd hmu (hothers u hu), fun u hu _ => by
          rw [hmtx]
          exact fun heq => hu (Option.some.inj heq).symm⟩
      intro p g hg _ _ x hlo hhi
      have hout := hc.inv.grant_outside_fresh hmap hg
      have hsz : sizeofSegment ≤ segmentSize := by decide
      rw [hinit.rest]
      change fill os.mem b sizeofSegment 0 x = s.os.mem x
      rw [fill_outside _ _ _ _ _ (by omega)]
      exact hc.inv.grant_bytes_mapped hmap hg hlo hhi

/-- The registry's tables come and go without anyone else noticing. -/
theorem TableStep.heaps {os os' : Os} (hstep : TableStep os os')
    (hr : RegionsOk os.mapped os.regions) (u a size : Nat) :
    os'.regions a = some ⟨size, .heap u⟩ ↔ os.regions a = some ⟨size, .heap u⟩ :=
  hstep.keep hr a ⟨size, .heap u⟩ (by simp)

theorem TableStep.segments {os os' : Os} (hstep : TableStep os os')
    (hr : RegionsOk os.mapped os.regions) (b : Nat) :
    IsSegment os'.regions b ↔ IsSegment os.regions b :=
  hstep.keep hr b ⟨segmentSize, .small⟩ (by simp)

theorem TableStep.bytes {os' : Os} (hstep : TableStep s.os os') (hinv : Inv ps s G) {p : Nat}
    {g : Grant} (hg : s.grants p = some g) {x : Nat} (hlo : p ≤ x) (hhi : x < p + g.usable) :
    os'.mem x = s.os.mem x := by
  obtain ⟨b, r, hb, hle, _, hcase⟩ := hinv.grant_in_region hg
  have hbp : b ≤ p := by
    rcases hcase with ⟨_, hle'⟩ | ⟨offset, _, rfl, _⟩ <;> omega
  have htable : r.purpose ≠ .table := by
    rcases hcase with ⟨hp, _⟩ | ⟨offset, hp, _, _⟩ <;> simp [hp]
  exact hstep.mem hinv.regions b r hb htable x (by omega) (by omega)

/-- `region_register` by thread `t`. -/
theorem StepFrame.register (hinv : Inv ps s G) {os : Os} (hstep : TableStep s.os os)
    (registry : Registry) : StepFrame t s G { s with os := os, registry := registry } G :=
  StepFrame.world rfl rfl rfl (fun u _ a size => hstep.heaps hinv.regions u a size)
    (fun _ _ _ _ _ => rfl) rfl rfl (fun _ _ _ => ⟨rfl, rfl, hstep.segments hinv.regions⟩)
    (fun _ _ hg _ hlo hhi => hstep.bytes hinv hg hlo hhi)

/-- `map_segment` registers the segment, and a page of it is taken. -/
theorem registerSegment_outcome (hc : Consistent ps s G) (h : ThreadOk ps s G t th) {b : Nat}
    (hpc : th.pc = .registerSegment q c b) {o : Oracle} {w : TableWorld} {r : Registry}
    (hreg : storeRegister ps o s b = some (w, r)) (hk : w.ok) {k : Nat} (hheap : th.heap = some k) :
    ∃ s' th' G', stepRegisterSegment ps o s t th q c b = some (s', th') ∧
      Outcome ps t s G s' G' th' ∧ FreshHead t th q k c G G' s' th' := by
  have hlink : th.pc.unlinked = none := by rw [hpc]; rfl
  have hargs : SmallArgs q c := h.args_at hpc
  have hfilled : Filled s G k c := h.lists_at hpc rfl hheap
  obtain ⟨hdying, hfresh, _⟩ : G.dying = none ∧ s.central.OnlyFree b ∧
      IsSegment s.os.regions b := h.lock_at hpc
  have hav : s.central.avail ≠ none := by
    rw [hfresh.avail]
    simp
  obtain ⟨_, hothers⟩ := h.excludes (by rw [hpc]; rfl)
  obtain ⟨hinv, htables⟩ := hc.inv.register hreg hk
  have hheaps := htables.heaps hc.inv.regions
  have hdata : Consistent ps { s with os := w.os, registry := r } G := by
    refine ⟨hinv, hc.limbo, ?_, hc.dying⟩
    intro a c' hne
    obtain ⟨u, size, hu⟩ := hc.homes a c' hne
    exact ⟨u, size, (hheaps u a size).mpr hu⟩
  have hask : Asking ps { s with os := w.os, registry := r } t th q k c :=
    Asking.congr (h.asking hlink (by rw [hpc]; rfl) (by rw [hpc]; rfl) (by rw [hpc]; rfl) hargs
      hheap) rfl (hheaps t)
  obtain ⟨s', th', G', hfinish, hout, hpage⟩ := finishAcquire_outcome hdata hask hdying hav
    ⟨⟨hfilled.lists, hfilled.occupied⟩, hfilled.full⟩ hothers
  refine ⟨s', th', G', ?_, ⟨hout.data, hout.thread,
    (StepFrame.register hc.inv htables r).trans hout.frame rfl, hout.growth⟩, hpage⟩
  simp only [stepRegisterSegment, hreg, Option.bind_eq_bind, Option.bind_some]
  exact hfinish

/-- `pool_return` unregisters an idle segment. -/
theorem unregisterSegment_outcome (hc : Consistent ps s G) (h : ThreadOk ps s G t th) {b : Nat}
    {after : After} (hpc : th.pc = .unregisterSegment b after) {s' : Store} {th' : Thread}
    (hrun : stepUnregisterSegment s th b after = some (s', th')) :
    ∃ G', Outcome ps t s G s' G' th' := by
  have hlink : th.pc.unlinked = none := by rw [hpc]; rfl
  simp only [stepUnregisterSegment, Option.bind_eq_bind, Option.bind_eq_some_iff] at hrun
  obtain ⟨r, hunreg, hrun⟩ := hrun
  cases hrun
  have hinv := hc.inv.unregister hunreg
  have hargs := h.args
  have hneeds := h.needs
  have hlock := h.lock
  rw [hpc] at hargs hneeds hlock
  refine ⟨G, ⟨hinv, hc.limbo, hc.homes, hc.dying⟩, ?_, ?_, Growth.of_cls _ rfl⟩
  · refine h.advance (fun _ _ => Iff.rfl) rfl hlink rfl (by rw [hpc]; rfl) (by rw [hpc]; rfl)
      (by rw [hpc]; rfl) hargs hneeds ?_ trivial
      ⟨fun _ => rfl, fun _ => h.mtx.mpr (by rw [hpc]; rfl)⟩ hlock
    intro a ha
    have hlists := h.lists_at hpc rfl ha
    exact HeapAfter.frame hlists (.of_pages rfl rfl rfl rfl)
  · exact StepFrame.world rfl rfl rfl (fun _ _ _ _ => Iff.rfl) (fun _ _ _ _ _ => rfl) rfl rfl
      (fun _ _ _ => ⟨rfl, rfl, fun _ => Iff.rfl⟩) (fun _ _ _ _ _ _ => rfl)

/-- `pool_return` unmaps an idle segment. -/
theorem unmapSegment_outcome (hc : Consistent ps s G) (h : ThreadOk ps s G t th) {b : Nat}
    {after : After} (hpc : th.pc = .unmapSegment b after) {s' : Store} {th' : Thread}
    (hrun : stepUnmapSegment s th b after = some (s', th')) :
    ∃ G', Outcome ps t s G s' G' th' := by
  have hlink : th.pc.unlinked = none := by rw [hpc]; rfl
  obtain ⟨hm, hothers⟩ := h.excludes (by rw [hpc]; rfl)
  have hargs := h.args
  have hneeds := h.needs
  rw [hpc] at hargs hneeds
  obtain ⟨hdying, hcursor⟩ : G.dying = some b ∧ after.CursorOk G := h.lock_at hpc
  have hinv := hc.inv.unmapSegment hdying
  obtain ⟨hb, _⟩ := hc.inv.lists.places.dying b hdying
  have hregions : (osFree s.os b (s.seg.mmapSize b)).regions =
      Function.update s.os.regions b none := by
    rw [hc.inv.lists.chains.mmapSize b hb]
    exact (osFree_region hc.inv.regions hb).2.1
  have hmem : (osFree s.os b (s.seg.mmapSize b)).mem = s.os.mem := by
    rw [hc.inv.lists.chains.mmapSize b hb]
    exact (osFree_region hc.inv.regions hb).1
  have hheaps : ∀ u a size, (osFree s.os b (s.seg.mmapSize b)).regions a =
      some ⟨size, .heap u⟩ ↔ s.os.regions a = some ⟨size, .heap u⟩ := by
    intro u a size
    rw [hregions]
    exact regions_drop_keeps hb a _ (by simp)
  have hframe : StepFrame t s G { s with os := osFree s.os b (s.seg.mmapSize b) }
      (G.unmapped b) :=
    StepFrame.world rfl rfl rfl (fun u _ => hheaps u) (fun _ _ _ _ _ => rfl) rfl rfl
      (fun u hu hmu => absurd hmu (hothers u hu)) (fun _ _ _ _ _ _ => congrFun hmem _)
  have hhomes : ∀ a c', (G.unmapped b).cls a c' ≠ [] → ∃ u size,
      (osFree s.os b (s.seg.mmapSize b)).regions a = some ⟨size, .heap u⟩ := by
    intro a c' hne
    obtain ⟨u, size, hu⟩ := hc.homes a c' hne
    exact ⟨u, size, (hheaps u a size).mpr hu⟩
  have hfinish : Finishing ps { s with os := osFree s.os b (s.seg.mmapSize b) } (G.unmapped b) t
      th after none := by
    refine ⟨⟨s, G, h, rfl, hheaps t⟩, hlink, by rw [hpc]; rfl, by rw [hpc]; rfl, by rw [hpc]; rfl,
      hargs, hneeds, ?_, ?_, rfl, hothers⟩
    · intro a ha
      have hlists := h.lists_at hpc rfl ha
      exact HeapAfter.frame hlists (.of_pages rfl rfl rfl rfl)
    · cases after <;> exact hcursor
  obtain ⟨G', hout⟩ := after_outcome hinv hc.limbo hhomes hfinish (fun _ _ _ _ => hm) hrun
  exact ⟨G', hout.data, hout.thread, hframe.trans hout.frame rfl, hout.growth⟩

end Steps

end HMalloc
