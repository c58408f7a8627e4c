import HMalloc.Calls
import HMalloc.Effects

/-!
The invariant holds in every reachable state. Each label keeps it: the steps of
a thread by the lemma for its program counter, a call by its first part, and
what clients and other allocators do because they write only into their own
memory.
-/

namespace HMalloc

open Bytes Linked

section Step

variable {ps : PageSize} {s : Store} {G : Ghost} {t : Nat} {th : Thread}

/-- One step of a thread inside a call. -/
theorem stepThread_outcome (hc : Consistent ps s G) (h : ThreadOk ps s G t th) {o : Oracle}
    (hok : StepOk ps o s th) {s' : Store} {th' : Thread}
    (hrun : stepThread ps o s t th = some (s', th')) : ∃ G', Outcome ps t s G s' G' th' := by
  unfold StepOk at hok
  unfold stepThread at hrun
  cases hpc : th.pc with
  | idle =>
      rw [hpc] at hok
      exact hok.elim
  | small q c =>
      rw [hpc] at hok hrun
      cases hheap : th.heap with
      | none => exact small_without_heap hc h hpc hheap (hok hheap) hrun
      | some k => exact small_with_heap hc h hpc hheap hrun
  | linkHeap q c a =>
      rw [hpc] at hrun
      cases hrun
      exact linkHeap_outcome hc h hpc
  | walk q c p =>
      rw [hpc] at hrun
      exact walk_outcome hc h hpc hrun
  | acquire q c =>
      rw [hpc] at hok hrun
      obtain ⟨k, hheap, _⟩ := h.heap_at hpc rfl rfl
      obtain ⟨s₁, th₁, G', hstep, hout, _⟩ := acquire_outcome hc h hpc hok hheap
      cases hstep.symm.trans hrun
      exact ⟨G', hout⟩
  | sweep q c cur =>
      rw [hpc] at hrun
      obtain ⟨k, hheap, _⟩ := h.heap_at hpc rfl rfl
      obtain ⟨s₁, th₁, G', hstep, hout, _⟩ := sweep_outcome hc h hpc hheap
      cases hstep.symm.trans hrun
      exact ⟨G', hout⟩
  | mapSegment q c =>
      rw [hpc] at hok hrun
      obtain ⟨G', hout⟩ := mapSegment_outcome hc h hpc hok
      rw [Option.some.inj hrun] at hout
      exact ⟨G', hout⟩
  | registerSegment q c b =>
      rw [hpc] at hok hrun
      obtain ⟨k, hheap, _⟩ := h.heap_at hpc rfl rfl
      have hrun' := hrun
      simp only [stepRegisterSegment, Option.bind_eq_bind, Option.bind_eq_some_iff] at hrun'
      obtain ⟨⟨w, r⟩, hreg, _⟩ := hrun'
      obtain ⟨s₁, th₁, G', hstep, hout, _⟩ :=
        registerSegment_outcome hc h hpc hreg (hok w r hreg) hheap
      cases hstep.symm.trans hrun
      exact ⟨G', hout⟩
  | unregisterSegment b after =>
      rw [hpc] at hrun
      exact unregisterSegment_outcome hc h hpc hrun
  | unmapSegment b after =>
      rw [hpc] at hrun
      exact unmapSegment_outcome hc h hpc hrun
  | large q offset mmapSize =>
      rw [hpc] at hok hrun
      obtain ⟨G', hout⟩ := large_outcome hc h hpc hok
      rw [Option.some.inj hrun] at hout
      exact ⟨G', hout⟩
  | registerLarge q offset mmapSize b =>
      rw [hpc] at hok hrun
      exact registerLarge_outcome hc h hpc hok hrun
  | free p result =>
      rw [hpc] at hrun
      exact free_outcome hc h hpc hrun
  | remote p head result =>
      rw [hpc] at hrun
      obtain ⟨G', hout⟩ := remote_outcome hc h hpc o
      rw [Option.some.inj hrun] at hout
      exact ⟨G', hout⟩
  | release pg result =>
      rw [hpc] at hok hrun
      obtain ⟨s₁, th₁, G', hstep, hout⟩ := release_outcome hc h hpc hok
      cases hstep.symm.trans hrun
      exact ⟨G', hout⟩
  | unmapLarge p base size result =>
      rw [hpc] at hrun
      have hout := unmapLarge_outcome hc h hpc
      rw [Option.some.inj hrun] at hout
      exact ⟨G, hout⟩
  | destroy c p =>
      rw [hpc] at hrun
      exact destroy_outcome hc h hpc hrun
  | hand c p next =>
      rw [hpc] at hok hrun
      exact hand_outcome hc h hpc hok hrun
  | unlinkHeap =>
      rw [hpc] at hrun
      exact unlinkHeap_outcome hc h hpc hrun
  | unmapHeap =>
      rw [hpc] at hrun
      exact unmapHeap_outcome hc h hpc hrun

/-- The destructor of the thread's `HeapGuard` starts. -/
theorem guardExit_outcome (hc : Consistent ps s G) (h : ThreadOk ps s G t th)
    (hidle : th.pc = .idle) {k : Nat} (hheap : th.heap = some k) :
    Outcome ps t s G s G { th with pc := scanClasses s k numSizeClasses 0 } := by
  have hlink : th.pc.unlinked = none := by rw [hidle]; rfl
  have hserve : Serving s G k none := h.lists_at hidle rfl hheap
  have hnext : NextPc s G k (scanClasses s k numSizeClasses 0) :=
    scanClasses_spec hc.inv (by omega) (fun c hlt => by omega) (fun c _ => hserve.lists c)
  refine ⟨hc, ?_, StepFrame.refl t s G, Growth.of_cls _ rfl⟩
  refine h.advance (fun _ _ => Iff.rfl) rfl hlink hnext.unlinked
    (hnext.request.trans (by rw [hidle]; rfl)) (hnext.freeing.trans (by rw [hidle]; rfl))
    (hnext.result.trans (by rw [hidle]; rfl)) hnext.args (fun _ => by rw [hheap]; simp) ?_
    hnext.pointers (h.mtx_iff (by rw [hidle]; rfl) hnext.locked) hnext.lock
  intro a ha
  obtain rfl : k = a := Option.some.inj (hheap.symm.trans ha)
  exact hnext.lists

/-- The thread keeps its heap. -/
theorem Effect.same_heap {o : Oracle} {s' : Store} {th' : Thread} (h : Effect ps o s t th s' th')
    (hlink : th.pc.unlinked = none) (hexit : th.pc ≠ .unmapHeap) : th'.heap = th.heap := by
  cases h with
  | quiet _ _ hs => exact hs.heap
  | linkHeap hpc =>
      rw [hpc] at hlink
      cases hlink
  | unmapHeap hpc => exact absurd hpc hexit
  | registerSegment _ _ _ hs => exact hs.heap
  | unmapSegment _ _ hs => exact hs.heap
  | registerLarge _ _ _ hs => exact hs.heap
  | unmapLarge _ _ hs => exact hs.heap
  | mapHeap | mapSegment | unregisterSegment | mapLarge | dropLarge | unlinkHeap => rfl

end Step

section World

variable {ps : PageSize} {sys : System} {G : Ghost}

/-- What clients and other allocators may do to the mapped memory: the
allocator's regions stay, and so do the bytes of the pointers its threads are
working on. -/
structure WorldStep (s : Store) (os : Os) : Prop where
  regions : ∀ a r, r.purpose ≠ .foreign → (os.regions a = some r ↔ s.os.regions a = some r)
  bytes : ∀ p g, s.grants p = some g → g.holder ≠ .client → ∀ x, p ≤ x → x < p + g.usable →
    os.mem x = s.os.mem x
  bytesMapped : os.bytesMapped = s.os.bytesMapped
  wrapped : os.wrapped = s.os.wrapped

theorem ThreadOk.setOs {s : Store} {t : Nat} {th : Thread} (h : ThreadOk ps s G t th)
    (hinv : Inv ps s G) {os : Os} (hw : WorldStep s os) :
    ThreadOk ps { s with os := os } G t th where
  args := h.args
  home := fun a size => (hw.regions a _ (by simp)).trans (h.home a size)
  needs := h.needs
  unlinked := h.unlinked
  lists := fun a ha => (h.lists a ha).frame (.of_pages rfl rfl rfl rfl)
  holders := h.holders
  moved := h.moved
  pointers := by
    have hpointers := h.pointers
    cases hpc : th.pc with
    | registerLarge q offset mmapSize b =>
        rw [hpc] at hpointers
        exact ⟨(hw.regions b _ (by simp)).mpr hpointers.1, hpointers.2⟩
    | remote p head r =>
        rw [hpc] at hpointers
        obtain ⟨hword, g, pg, i, hg, ho⟩ := hpointers
        obtain ⟨g', hg', hh⟩ := (h.holders p (.freeing t) rfl).mpr (by rw [hpc]; rfl)
        rw [hg] at hg'
        cases hg'
        refine ⟨?_, g, pg, i, hg, ho⟩
        rw [← hword]
        apply readWord_congr
        intro x hlo hhi
        have hsize := (hinv.smallGrant hg ho).two_words
        exact hw.bytes p g hg (by rw [hh]; simp) x hlo (by omega)
    | unmapLarge p b size r =>
        rw [hpc] at hpointers
        obtain ⟨offset, hb, hg⟩ := hpointers
        exact ⟨offset, (hw.regions b _ (by simp)).mpr hb, hg⟩
    | idle | small | linkHeap | walk | acquire | sweep | mapSegment | registerSegment
    | unregisterSegment | unmapSegment | large | free | release | destroy | hand | unlinkHeap
    | unmapHeap => trivial
  mtx := h.mtx
  lock := by
    have hlock := h.lock
    cases hpc : th.pc with
    | registerSegment q c b =>
        rw [hpc] at hlock
        exact ⟨hlock.1, hlock.2.1, (hw.regions b _ (by simp)).mpr hlock.2.2⟩
    | sweep | mapSegment | unregisterSegment | unmapSegment =>
        rw [hpc] at hlock
        exact hlock
    | idle | small | linkHeap | walk | acquire | large | registerLarge | free | remote
    | release | unmapLarge | destroy | hand | unlinkHeap | unmapHeap => trivial

theorem SysInv.setOs (h : SysInv ps sys G) {os : Os} (hw : WorldStep sys.store os)
    (hinv : Inv ps { sys.store with os := os } G) :
    SysInv ps { sys with store := { sys.store with os := os } } G where
  data := by
    refine ⟨hinv, h.data.limbo, ?_, h.data.dying⟩
    intro a c hne
    obtain ⟨u, size, hu⟩ := h.data.homes a c hne
    exact ⟨u, size, (hw.regions a _ (by simp)).mpr hu⟩
  threads := fun t => (h.threads t).setOs h.data.inv hw

/-- A pointer that is handed out shares no byte with a foreign region. -/
theorem Inv.grant_foreign_disjoint {s : Store} (hinv : Inv ps s G) {p : Nat} {g : Grant}
    (hg : s.grants p = some g) {b size : Nat} (hb : s.os.regions b = some ⟨size, .foreign⟩) :
    p + g.usable ≤ b ∨ b + size ≤ p := by
  obtain ⟨a, r, ha, hle, _, hcase⟩ := hinv.grant_in_region hg
  have hab : a ≠ b := by
    rintro rfl
    rw [ha] at hb
    cases hb
    rcases hcase with ⟨hp, _⟩ | ⟨_, hp, _⟩ <;> cases hp
  have hd := hinv.regions.disjoint _ _ _ _ ha hb hab
  simp only at hd
  rcases hcase with ⟨_, hle'⟩ | ⟨_, _, rfl, _⟩ <;> omega

/-- A client writes into a block it holds. -/
theorem Inv.write_world {s : Store} (hinv : Inv ps s G) {p i : Nat} {g : Grant} (v : UInt8)
    (hg : s.grants p = some g) (hclient : g.holder = .client) (hi : i < g.usable) :
    WorldStep s { s.os with mem := Function.update s.os.mem (p + i) v } ∧
      Inv ps { s with os := { s.os with mem := Function.update s.os.mem (p + i) v } } G := by
  refine ⟨⟨fun _ _ _ => Iff.rfl, ?_, rfl, rfl⟩, hinv.write_grant hg ?_⟩
  · intro q g' hg' hh x hlo hhi
    have hne : q ≠ p := by
      rintro rfl
      rw [hg] at hg'
      cases hg'
      exact hh hclient
    have hd := hinv.grants_disjoint hg' hg hne
    exact Function.update_of_ne (by omega) ..
  · intro x hx
    exact Function.update_of_ne (by omega) ..

/-- Another allocator writes into its own memory. -/
theorem Inv.foreignWrite_world {s : Store} (hinv : Inv ps s G) {b i size : Nat} (v : UInt8)
    (hb : s.os.regions b = some ⟨size, .foreign⟩) (hi : i < size) :
    WorldStep s { s.os with mem := Function.update s.os.mem (b + i) v } ∧
      Inv ps { s with os := { s.os with mem := Function.update s.os.mem (b + i) v } } G := by
  refine ⟨⟨fun _ _ _ => Iff.rfl, ?_, rfl, rfl⟩, hinv.write_foreign hb ?_⟩
  · intro p g hg _ x hlo hhi
    have hd := hinv.grant_foreign_disjoint hg hb
    exact Function.update_of_ne (by omega) ..
  · intro x hx
    exact Function.update_of_ne (by omega) ..

/-- What another allocator's mapping has done. -/
theorem Os.mapped_foreign {os : Os} {base len : Nat} (hne : base ≠ 0) (hpos : 0 < len)
    (hbound : base + len ≤ 2 ^ 64)
    (hfresh : ∀ x, base ≤ x → x < base + len → os.mapped x = false) :
    os.Mapped ((os.rawMmap base len).retain base len .foreign) base len .foreign := by
  refine ⟨hne, hpos, hbound, hfresh, ?_, rfl, ?_, ?_⟩
  · intro x
    simp [Os.retain, Os.rawMmap]
  · intro x hx
    apply fill_outside
    by_contra hin
    simp [hfresh x (by omega) (by omega)] at hx
  · intro x hlo hhi
    simp only [Os.retain, Os.rawMmap, fill]
    rw [if_pos ⟨hlo, hhi⟩]

/-- Another allocator maps memory. -/
theorem Inv.foreignMap_world {s : Store} (hinv : Inv ps s G) {os : Os} {base len : Nat}
    (hm : s.os.Mapped os base len .foreign) (hbytes : os.bytesMapped = s.os.bytesMapped)
    (hwrapped : os.wrapped = s.os.wrapped) :
    WorldStep s os ∧ Inv ps { s with os := os } G := by
  refine ⟨⟨hm.keeps hinv.regions, ?_, hbytes, hwrapped⟩,
    hinv.mapOther hm (by simp [Purpose.Tagged])⟩
  intro p g hg _ x hlo hhi
  exact hinv.grant_bytes_mapped hm hg hlo hhi

/-- Another allocator unmaps memory. -/
theorem Inv.foreignUnmap_world {s : Store} (hinv : Inv ps s G) {b size : Nat}
    (hb : s.os.regions b = some ⟨size, .foreign⟩) :
    WorldStep s ((s.os.munmap b size).forget b) ∧
      Inv ps { s with os := (s.os.munmap b size).forget b } G :=
  ⟨⟨regions_drop_keeps hb, fun _ _ _ _ _ _ _ => rfl, rfl, rfl⟩,
    hinv.unmapOther hb (by simp [Purpose.Tagged]) (by simp) rfl rfl
      (hinv.regions.unmap hb (fun _ => rfl))⟩

end World

section Runs

variable {ps : PageSize} {sys sys' : System} {G : Ghost}

/-- The first part of a call, as `exec` runs it. -/
theorem exec_call (ps : PageSize) (sys : System) (t : Nat) (call : Call) :
    exec ps sys (.call t call) = some (sys.setThread t
      { sys.store with grants := enterGrants sys.store t call (enter ps sys.store call) }
      (enterThread (sys.threads t) call (enter ps sys.store call))) := by
  simp only [exec]
  cases enter ps sys.store call <;> rfl

/-- The other labels write no page, slot or registry. -/
theorem exec_store {l : Label} (hl : ∀ t o, l ≠ .step t o) (hrun : exec ps sys l = some sys') :
    sys'.store = { sys.store with os := sys'.store.os, grants := sys'.store.grants } := by
  cases l with
  | step t o => exact absurd rfl (hl t o)
  | call t c =>
      simp only [exec] at hrun
      split at hrun <;> (cases hrun; rfl)
  | guardExit t =>
      simp only [exec] at hrun
      split at hrun <;> (cases hrun; rfl)
  | spawn | finish | write | foreignMap | foreignUnmap | foreignWrite =>
      cases hrun
      rfl

theorem exec_guardExit (ps : PageSize) (sys : System) {t k : Nat}
    (hheap : (sys.threads t).heap = some k) :
    exec ps sys (.guardExit t) = some (sys.setThread t sys.store
      { sys.threads t with pc := scanClasses sys.store k numSizeClasses 0 }) := by
  simp only [exec]
  rw [hheap]

/-- The thread whose label it is. -/
def Label.thread : Label → Option Nat
  | .spawn t | .call t _ | .step t _ | .guardExit t | .finish t => some t
  | .write .. | .foreignMap .. | .foreignUnmap .. | .foreignWrite .. => none

/-- What a step of the system is, and what is proved of it: a step of a thread
inside a call, a client that starts a call or a thread's first or last act, or
the world outside. -/
inductive Change (ps : PageSize) (sys : System) (G : Ghost) : Label → System → Ghost → Prop where
  | thread {t : Nat} {o : Oracle} {s' : Store} {th' : Thread} {G' : Ghost}
      (hok : StepOk ps o sys.store (sys.threads t))
      (heff : Effect ps o sys.store t (sys.threads t) s' th')
      (hout : Outcome ps t sys.store G s' G' th') :
      Change ps sys G (.step t o) (sys.setThread t s' th') G'
  | client {l : Label} {t : Nat} {s' : Store} {th' : Thread} (hl : l.thread = some t)
      (hq : Quiet sys.store s')
      (htransit : th'.transit = (sys.threads t).transit)
      (hdrop : th'.dropping = (sys.threads t).dropping)
      (hheap : th'.heap = (sys.threads t).heap)
      (hkept : ∀ p g, sys.store.grants p = some g → ∃ g', s'.grants p = some g')
      (hout : Outcome ps t sys.store G s' G th') :
      Change ps sys G l (sys.setThread t s' th') G
  | world {l : Label} {os : Os} (hw : WorldStep sys.store os)
      (hinv : Inv ps { sys.store with os := os } G) (hl : l.thread = none) :
      Change ps sys G l { sys with store := { sys.store with os := os } } G

theorem Change.inv {l : Label} {G' : Ghost} (h : SysInv ps sys G)
    (hc : Change ps sys G l sys' G') : SysInv ps sys' G' ∧ Growth G sys'.store G' := by
  cases hc with
  | thread _ _ hout => exact ⟨h.setThread hout, hout.growth⟩
  | client _ _ _ _ _ _ hout => exact ⟨h.setThread hout, hout.growth⟩
  | world hw hinv => exact ⟨h.setOs hw hinv, Growth.of_cls _ rfl⟩

/-- Only the status of a thread changes. -/
theorem SysInv.status (h : SysInv ps sys G) {l : Label} {t : Nat} {th : Thread}
    (hl : l.thread = some t) (hpc : th.pc = (sys.threads t).pc)
    (hheap : th.heap = (sys.threads t).heap) :
    Change ps sys G l (sys.setThread t sys.store th) G := by
  refine .client hl (Quiet.refl _) ?_ ?_ hheap (fun p g hg => ⟨g, hg⟩)
    ⟨h.data, (h.threads t).congr hpc hheap, StepFrame.refl t _ G, Growth.of_cls _ rfl⟩
  · unfold Thread.transit
    rw [hpc, hheap]
  · unfold Thread.dropping
    rw [hpc]

/-- Every label is one of these. -/
theorem SysInv.change (h : SysInv ps sys G) {l : Label} (hstep : Step ps sys l sys') :
    ∃ G', Change ps sys G l sys' G' := by
  obtain ⟨hok, hrun⟩ := hstep
  cases l with
  | spawn t =>
      cases hrun
      exact ⟨G, h.status rfl rfl rfl⟩
  | call t call =>
      obtain ⟨_, hidle, hcall⟩ := hok
      have hout := call_outcome h.data (h.threads t) hidle hcall
      have htransit : (sys.threads t).transit = none := transit_of_pc hidle rfl
      rw [exec_call] at hrun
      cases hrun
      have htransit' : (enterThread (sys.threads t) call (enter ps sys.store call)).transit =
          none := by
        cases hentry : enter ps sys.store call with
        | ret result => rfl
        | goto pc => exact enter_transit hentry _
      refine ⟨G, .client rfl ⟨rfl, rfl, rfl, rfl, rfl, rfl⟩ ?_ ?_ ?_ ?_ hout⟩
      · rw [htransit, htransit']
      · rw [Thread.dropping_of_transit htransit, Thread.dropping_of_transit htransit']
      · cases enter ps sys.store call <;> rfl
      · intro p g hg
        refine hout.frame.kept p g hg (fun hh => (h.threads t).idle_holds hidle hg ?_)
        rw [hh]
        rfl
  | step t o =>
      obtain ⟨s', th', hthread, rfl⟩ := exec_step hrun
      obtain ⟨G', hout⟩ := stepThread_outcome h.data (h.threads t) hok hthread
      exact ⟨G', .thread hok (stepThread_effect (StepOk.busy hok) hthread) hout⟩
  | guardExit t =>
      obtain ⟨_, hidle, _⟩ := hok
      cases hheap : (sys.threads t).heap with
      | none =>
          simp only [exec, hheap] at hrun
          cases hrun
          exact ⟨G, h.status rfl rfl hheap.symm⟩
      | some k =>
          rw [exec_guardExit ps sys hheap] at hrun
          cases hrun
          have htransit : (sys.threads t).transit = none := transit_of_pc hidle rfl
          refine ⟨G, .client rfl (Quiet.refl _) ?_ ?_ rfl (fun p g hg => ⟨g, hg⟩)
            (guardExit_outcome h.data (h.threads t) hidle hheap)⟩
          · rw [scanClasses_transit, htransit]
          · rw [Thread.dropping_of_transit htransit,
              Thread.dropping_of_transit (scanClasses_transit ..)]
  | finish t =>
      cases hrun
      exact ⟨G, h.status rfl rfl rfl⟩
  | write p i v =>
      cases hrun
      obtain ⟨g, hg, hclient, hi⟩ := hok
      obtain ⟨hw, hinv⟩ := h.data.inv.write_world v hg hclient hi
      exact ⟨G, .world hw hinv rfl⟩
  | foreignMap base len =>
      cases hrun
      obtain ⟨hne, hpos, hbound, hfresh⟩ := hok
      obtain ⟨hw, hinv⟩ := h.data.inv.foreignMap_world
        (Os.mapped_foreign hne hpos hbound hfresh) rfl rfl
      exact ⟨G, .world hw hinv rfl⟩
  | foreignUnmap base =>
      obtain ⟨size, hb⟩ := hok
      simp only [exec, hb] at hrun
      cases hrun
      obtain ⟨hw, hinv⟩ := h.data.inv.foreignUnmap_world hb
      exact ⟨G, .world hw hinv rfl⟩
  | foreignWrite base i v =>
      cases hrun
      obtain ⟨size, hb, hi⟩ := hok
      obtain ⟨hw, hinv⟩ := h.data.inv.foreignWrite_world v hb hi
      exact ⟨G, .world hw hinv rfl⟩

/-- Every label keeps the invariant. -/
theorem SysInv.step (h : SysInv ps sys G) {l : Label} (hstep : Step ps sys l sys') :
    ∃ G', SysInv ps sys' G' ∧ Growth G sys'.store G' := by
  obtain ⟨G', hc⟩ := h.change hstep
  exact ⟨G', hc.inv h⟩

/-- The invariant holds in every reachable state. -/
theorem Reachable.inv (h : Reachable ps sys) : ∃ G, SysInv ps sys G := by
  induction h with
  | init => exact ⟨Ghost.init, SysInv.init ps⟩
  | step _ hstep ih =>
      obtain ⟨G, hG⟩ := ih
      obtain ⟨G', hG', _⟩ := hG.step hstep
      exact ⟨G', hG'⟩

end Runs

end HMalloc
