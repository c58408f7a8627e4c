import HMalloc.CentralSteps

/-!
The steps of `alloc_large` and the last one of `free_large`. The pointer of a
large region is held by the thread from the mapping on: other threads map and
register their own regions in the meantime.
-/

namespace HMalloc

open Bytes Linked

theorem Inv.setLarge {ps : PageSize} {s : Store} {G : Ghost} (h : Inv ps s G)
    (count bytes : Nat) (wrapped : Bool) :
    Inv ps { s with largeCount := count, largeBytes := bytes, largeWrapped := wrapped } G :=
  ⟨h.regions, h.tags, h.pages, h.lists, h.grants, h.table, h.sentinel⟩

section Steps

variable {ps : PageSize} {s : Store} {G : Ghost} {t : Nat} {th : Thread} {q : Request}
  {offset mmapSize : Nat}

/-- `alloc_large` maps a region. -/
theorem large_outcome (hc : Consistent ps s G) (h : ThreadOk ps s G t th)
    (hpc : th.pc = .large q offset mmapSize) {o : Oracle}
    (hk : KernelOk ps o.mapping s.os mmapSize segmentSize) :
    ∃ G', Outcome ps t s G (stepLarge ps o s t th q offset mmapSize).1 G'
      (stepLarge ps o s t th q offset mmapSize).2 := by
  have hlink : th.pc.unlinked = none := by rw [hpc]; rfl
  have hmtx := h.not_locked (by rw [hpc]; rfl)
  have hargs : LargeArgs q offset mmapSize := h.args_at hpc
  have hserve : ∀ a, th.heap = some a → Serving s G a none :=
    fun a ha => h.lists_at hpc rfl ha
  unfold stepLarge
  rcases osAllocAligned_spec ps (.large offset) hk hargs.bound (by decide) with
    hnone | ⟨b, os, hsome, hm, hdvd⟩
  · rw [hnone]
    obtain ⟨hinv, hthread, hframe⟩ := failAlloc_spec (q := q) h rfl (fun _ _ => Iff.rfl) hlink
      (by rw [hpc]; rfl) (by rw [hpc]; rfl) (by rw [hpc]; rfl) hc.inv hserve hmtx
    have hrest := (failAlloc_eq s th q).1
    refine ⟨G, ⟨hinv, hc.limbo, ?_, ?_⟩, hthread, hframe, Growth.of_cls _ rfl⟩
    · intro a c hne
      rw [hrest]
      exact hc.homes a c hne
    · rw [hrest]
      exact hc.dying
  rw [hsome]
  have hpos := hargs.pos
  have hfits := hargs.fits
  have hnone := hc.inv.fresh_not_granted hm (p := b + offset) (by omega) (by omega)
  have hinv := (hc.inv.mapLarge hm hdvd hargs.low hargs.aligned hargs.high (by omega) q.size
    (show (⟨q.size, mmapSize - offset, .fresh t, .large b⟩ : Grant).origin = .large b from rfl) rfl
    (by simp only; omega)).setLarge (Word.add 64 s.largeCount 1) (Word.add 64 s.largeBytes mmapSize)
    s.largeWrapped
  have hregions := hm.keeps hc.inv.regions
  have hnew : ∀ p, p ≠ b + offset → Function.update s.grants (b + offset)
      (some ⟨q.size, mmapSize - offset, .fresh t, .large b⟩) p = s.grants p :=
    fun p hp => Function.update_of_ne hp ..
  have hold : ∀ p g, s.grants p = some g → p ≠ b + offset := by
    rintro p g hg rfl
    rw [hnone] at hg
    cases hg
  refine ⟨G, ⟨hinv, hc.limbo, ?_, hc.dying⟩, ?_, ?_, Growth.of_cls _ rfl⟩
  · intro a c hne
    obtain ⟨u, size, hu⟩ := hc.homes a c hne
    exact ⟨u, size, (hregions a _ (by simp)).mpr hu⟩
  · refine ⟨hargs, ?_, ?_, ?_, ?_, ?_, ?_, ?_, ?_, trivial⟩
    · intro a size
      refine (hregions a _ (by simp)).trans ((h.home a size).trans ?_)
      rw [Thread.home_of_linked hlink]
      exact Iff.rfl
    · intro hneeds
      cases hneeds
    · exact fun hne => absurd rfl hne
    · intro a ha
      obtain ⟨hl, ho⟩ := hserve a ha
      exact ⟨hl, ho⟩
    · exact h.holders_granted hnone rfl (by rw [hpc]; rfl) (by rw [hpc]; rfl) (by rw [hpc]; rfl) rfl
    · intro q' p usable g hq ho hg
      change Function.update s.grants (b + offset) _ p = some g at hg
      obtain ⟨g₀, hg₀, _⟩ := (h.holders p (.moving t) rfl).mpr
        ⟨q', usable, by rw [hpc]; exact hq, ho⟩
      rw [hnew p (hold p g₀ hg₀)] at hg
      exact h.moved q' p usable g (by rw [hpc]; exact hq) ho hg
    · refine ⟨?_, _, Function.update_self .., rfl⟩
      change os.regions b = _
      rw [hm.regions, Function.update_self]
    · exact ⟨fun hm => absurd hm hmtx, fun hl => by cases hl⟩
  · refine ⟨fun u _ a size => hregions a _ (by simp),
      fun u _ a _ _ => .of_pages rfl rfl rfl rfl, ?_, ?_, ?_, ?_,
      fun u _ _ => ⟨rfl, rfl, rfl, fun a => hregions a _ (by simp)⟩, fun _ _ hm => hm⟩
    · intro u hu p g hg
      change Function.update s.grants (b + offset) _ p = some g ↔ _
      by_cases hp : p = b + offset
      · subst hp
        rw [Function.update_self, hnone]
        refine ⟨fun heq => ?_, fun heq => by cases heq⟩
        cases heq
        exact absurd (Option.some.inj hg).symm hu
      · rw [hnew p hp]
    · intro p g hg _
      exact ⟨g, (hnew p (hold p g hg)).trans hg⟩
    · intro p g g' hg hg'
      change Function.update s.grants (b + offset) _ p = some g' at hg'
      rw [hnew p (hold p g hg), hg] at hg'
      cases hg'
      exact ⟨rfl, rfl⟩
    · intro p g hg _ _ x hlo hhi
      have hout := hc.inv.grant_outside_fresh hm hg
      change largeHeader os.mem b mmapSize offset q.size x = s.os.mem x
      have hlow := hargs.low
      rw [largeHeader_outside _ _ _ _ _ (by omega)]
      exact hc.inv.grant_bytes_mapped hm hg hlo hhi

/-- `alloc_large` registers its region and has its block. -/
theorem registerLarge_outcome (hc : Consistent ps s G) (h : ThreadOk ps s G t th) {b : Nat}
    (hpc : th.pc = .registerLarge q offset mmapSize b) {o : Oracle}
    (hk : ∀ w r, storeRegister ps o s b = some (w, r) → w.ok) {s' : Store} {th' : Thread}
    (hrun : stepRegisterLarge ps o s t th q offset mmapSize b = some (s', th')) :
    ∃ G', Outcome ps t s G s' G' th' := by
  have hlink : th.pc.unlinked = none := by rw [hpc]; rfl
  have hmtx := h.not_locked (by rw [hpc]; rfl)
  have hargs : LargeArgs q offset mmapSize := h.args_at hpc
  obtain ⟨g₀, hg₀, hfresh, ho₀, husable⟩ := h.large_grant hc.inv hpc
  simp only [stepRegisterLarge, Option.bind_eq_bind, Option.bind_eq_some_iff] at hrun
  obtain ⟨⟨w, r⟩, hreg, hrun⟩ := hrun
  obtain ⟨hinv, htables⟩ := hc.inv.register hreg (hk w r hreg)
  have hheaps := htables.heaps hc.inv.regions
  -- The pointer is granted already; delivering it changes its holder.
  have hd : Deliverable ps { s with os := w.os, registry := r } G t (b + offset)
      (mmapSize - offset) (.large b) := by
    refine ⟨?_, ?_⟩
    · intro gr ho hu hsz
      refine hinv.regrant ⟨?_, ?_⟩
      · intro p g' hg'
        by_cases hp : p = b + offset
        · rw [hp, Function.update_self] at hg'
          cases hg'
          exact ⟨g₀, by rw [hp]; exact hg₀, ho.trans ho₀.symm, hu.trans husable.symm,
            fun _ => hsz⟩
        · rw [Function.update_of_ne hp] at hg'
          exact ⟨g', hg', rfl, rfl, id⟩
      · intro p g hg
        by_cases hp : p = b + offset
        · rw [hp, hg₀] at hg
          cases hg
          exact ⟨gr, by rw [hp, Function.update_self], ho.trans ho₀.symm, hu.trans husable.symm⟩
        · exact ⟨g, by rw [Function.update_of_ne hp]; exact hg, rfl, rfl⟩
    · intro g hg
      rw [hg₀] at hg
      cases hg
      exact ⟨hfresh, ho₀, husable⟩
  obtain ⟨hinv', hthread, hframe⟩ := deliver_spec (q := q)
    (s := { s with os := w.os, registry := r }) h rfl (hheaps t) hlink (by rw [hpc]; rfl)
    (by rw [hpc]; rfl) (fun p hp => by
      rw [hpc] at hp
      exact (Option.some.inj hp).symm) hd (by have := hargs.fits; omega)
    (fun a ha => by
      obtain ⟨hl, ho⟩ := h.lists_at hpc rfl ha
      exact ⟨hl, ho⟩) hmtx
  have hrest := deliver_rest { s with os := w.os, registry := r } t th q (b + offset)
    (mmapSize - offset) (.large b)
  have hrun' := Option.some.inj hrun
  rw [hrun'] at hinv' hthread hframe hrest
  change s' = _ at hrest
  refine ⟨G, ⟨hinv', hc.limbo, ?_, ?_⟩, hthread,
    (StepFrame.register hc.inv htables r).trans hframe rfl, Growth.of_cls _ rfl⟩
  · intro a c hne
    obtain ⟨u, size, hu⟩ := hc.homes a c hne
    rw [hrest]
    exact ⟨u, size, (hheaps u a size).mpr hu⟩
  · rw [hrest]
    exact hc.dying

end Steps

end HMalloc
