import HMalloc.Lib.Handover
import HMalloc.RegistryGrowth
import HMalloc.Schedule
import HMalloc.Transit

/-!
The two registries and the mapped memory. A segment or a large region is in the
region registry, and a heap in the heap registry, from the time its thread has
entered it until a thread strikes it out; outside that time it is in transit.
So the registries never disagree with the mapped regions about a region that
anybody else can know of.
-/

namespace HMalloc

open Bytes Linked Handover

/-- The region that each thread has in transit. -/
def System.hands (sys : System) (t : Nat) : Option Nat := (sys.threads t).transit

theorem System.hands_setThread (sys : System) (t : Nat) (s : Store) (th : Thread) :
    (sys.setThread t s th).hands = Function.update sys.hands t th.transit := by
  funext u
  by_cases hu : u = t
  · subst hu
    simp [System.hands, System.setThread]
  · simp [System.hands, System.setThread, hu]

/-- A region of some kind is mapped at `b`. -/
def Has (regions : Nat → Option Region) (kind : Purpose → Prop) (b : Nat) : Prop :=
  ∃ r, regions b = some r ∧ kind r.purpose

section Has

variable {os os' : Os} {kind : Purpose → Prop} {b size : Nat} {purpose : Purpose}

theorem has_iff {regions : Nat → Option Region} {r : Region} (hb : regions b = some r) :
    Has regions kind b ↔ kind r.purpose :=
  ⟨fun ⟨r', hr', hk⟩ => by rw [hb] at hr'; cases hr'; exact hk, fun hk => ⟨r, hb, hk⟩⟩

theorem has_mapped (hm : os.Mapped os' b size purpose) (hr : RegionsOk os.mapped os.regions)
    (a : Nat) : Has os'.regions kind a ↔ (a = b ∧ kind purpose) ∨ Has os.regions kind a := by
  unfold Has
  rw [hm.regions]
  by_cases hab : a = b
  · subst hab
    simp [hm.unmapped_before hr]
  · simp [hab]

theorem has_unmapped {regions : Nat → Option Region} (a : Nat) :
    Has (Function.update regions b none) kind a ↔ Has regions kind a ∧ a ≠ b := by
  unfold Has
  by_cases hab : a = b
  · subst hab
    simp
  · simp [hab]

theorem has_congr {regions regions' : Nat → Option Region}
    (hsame : ∀ a r, kind r.purpose → (regions' a = some r ↔ regions a = some r)) (a : Nat) :
    Has regions' kind a ↔ Has regions kind a := by
  constructor
  · rintro ⟨r, ha, hk⟩
    exact ⟨r, (hsame a r hk).mp ha, hk⟩
  · rintro ⟨r, ha, hk⟩
    exact ⟨r, (hsame a r hk).mpr ha, hk⟩

theorem has_tables (hstep : TableStep os os') (hr : RegionsOk os.mapped os.regions)
    (hkind : ¬ kind .table) (a : Nat) : Has os'.regions kind a ↔ Has os.regions kind a := by
  refine has_congr (fun a r hk => hstep.keep hr a r ?_) a
  intro heq
  rw [heq] at hk
  exact hkind hk

variable {entered : Nat → Prop} {hands : Nat → Option Nat} {t : Nat}

/-- A mapping concerns a register only if it is of its kind. -/
theorem agree_create (h : Agree entered (Has os.regions kind) hands) (ht : hands t = none)
    (hm : os.Mapped os' b size purpose) (hr : RegionsOk os.mapped os.regions) :
    Agree entered (Has os'.regions kind) (Function.update hands t (some b)) := by
  have hnone := hm.unmapped_before hr
  have hnew : ¬ Has os.regions kind b := by
    rintro ⟨r, hb, _⟩
    rw [hnone] at hb
    cases hb
  by_cases hk : kind purpose
  · refine h.create ht hnew (fun a => ?_)
    rw [has_mapped hm hr]
    simp [hk]
  · refine Agree.hold (h.congr (fun _ => Iff.rfl) (fun a => ?_) (fun _ _ _ => Iff.rfl)) ?_ _ ?_
    · rw [has_mapped hm hr]
      simp [hk]
    · intro a ha
      rw [ht] at ha
      cases ha
    · intro a ha hhas
      cases ha
      rw [has_mapped hm hr] at hhas
      rcases hhas with ⟨_, hk'⟩ | hhas
      · exact hk hk'
      · exact hnew hhas

/-- So does an unmapping. -/
theorem agree_destroy {regions : Nat → Option Region} {r : Region}
    (h : Agree entered (Has regions kind) hands) (ht : hands t = some b)
    (hb : regions b = some r) :
    Agree entered (Has (Function.update regions b none) kind) (Function.update hands t none) := by
  by_cases hk : kind r.purpose
  · exact h.destroy ht (fun a => has_unmapped a)
  · have hnot : ¬ Has regions kind b := by
      rw [has_iff hb]
      exact hk
    refine Agree.hold (h.congr (fun _ => Iff.rfl) (fun a => ?_) (fun _ _ _ => Iff.rfl)) ?_ _ ?_
    · rw [has_unmapped]
      refine and_iff_left_of_imp ?_
      rintro hhas rfl
      exact hnot hhas
    · intro a ha hhas
      rw [ht] at ha
      cases ha
      rw [has_unmapped] at hhas
      exact hhas.2 rfl
    · intro a ha
      cases ha

/-- A thread takes up or lets go of a region of another kind. -/
theorem agree_other {regions : Nat → Option Region} {r : Region}
    (h : Agree entered (Has regions kind) hands) (hb : regions b = some r) (hk : ¬ kind r.purpose)
    (ht : hands t = none ∨ hands t = some b) (next : Option Nat)
    (hnext : next = none ∨ next = some b) :
    Agree entered (Has regions kind) (Function.update hands t next) := by
  have hnot : ∀ a, some a = some b → ¬ Has regions kind a := by
    intro a ha
    cases ha
    rw [has_iff hb]
    exact hk
  refine h.hold ?_ next ?_
  · intro a ha
    rcases ht with ht | ht <;> rw [ht] at ha
    · cases ha
    · exact hnot a ha.symm
  · intro a ha
    rcases hnext with rfl | rfl
    · cases ha
    · exact hnot a ha.symm

end Has

section Heaps

/-- A heap of some thread. -/
def Purpose.IsHeap (purpose : Purpose) : Prop := ∃ t, purpose = .heap t

theorem Purpose.Tagged.not_isHeap {purpose : Purpose} (h : purpose.Tagged) : ¬ purpose.IsHeap := by
  rintro ⟨t, rfl⟩
  rcases h with h | ⟨o, h⟩ <;> cases h

/-- The heap registry lists every heap once that is mapped and not in transit. -/
structure HeapsListed (sys : System) : Prop where
  nodup : sys.store.heapRegistry.Nodup
  agree : Agree (· ∈ sys.store.heapRegistry) (Has sys.store.os.regions Purpose.IsHeap) sys.hands

variable {ps : PageSize} {sys sys' : System} {G G' : Ghost} {l : Label}

theorem HeapsListed.init : HeapsListed System.init where
  nodup := List.nodup_nil
  agree := by
    intro b
    simp [Has, System.init, Store.init, Os.init]

theorem HeapsListed.thread (h : HeapsListed sys) (hinv : SysInv ps sys G) {o : Oracle} {t : Nat}
    {s' : Store} {th' : Thread} (hb : Booking ps o sys.store t (sys.threads t) s' th') :
    HeapsListed (sys.setThread t s' th') := by
  have hr := hinv.data.inv.regions
  have hagree := h.agree
  suffices hnext : s'.heapRegistry.Nodup ∧
      Agree (· ∈ s'.heapRegistry) (Has s'.os.regions Purpose.IsHeap)
        (Function.update sys.hands t th'.transit) by
    refine ⟨hnext.1, ?_⟩
    rw [System.hands_setThread]
    exact hnext.2
  cases hb with
  | rest hplain hq ht' =>
      rw [hq.heaps, hq.regions, ht']
      refine ⟨h.nodup, hagree.hold (fun a ha => ?_) none (fun a ha => by cases ha)⟩
      rw [show sys.hands t = none from hplain.transit] at ha
      cases ha
  | create ht ht' _ _ _ _ _ hm _ hq =>
      rw [hq.heaps, hq.regions, ht']
      exact ⟨h.nodup, agree_create hagree ht hm hr⟩
  | enterRegion ht ht' _ _ hb htag hreg hok hq =>
      obtain ⟨hstep, _⟩ := storeRegister_tables hreg hok hr hinv.data.inv.table
      rw [hq.heaps, hq.regions, ht']
      have hkeep := agree_other hagree hb htag.not_isHeap (Or.inr ht) none (Or.inl rfl)
      refine ⟨h.nodup, hkeep.congr (fun _ => Iff.rfl) (fun a => ?_) (fun _ _ _ => Iff.rfl)⟩
      exact has_tables hstep hr (by simp [Purpose.IsHeap]) a
  | @enterHeap k th' ht ht' _ hh =>
      have hnot : k ∉ sys.store.heapRegistry := fun hmem => ((hagree k).mp hmem).2 t ht
      rw [ht']
      refine ⟨List.nodup_cons.mpr ⟨hnot, h.nodup⟩, hagree.enter ht ((has_iff hh).mpr ⟨t, rfl⟩) ?_
        (fun a => List.mem_cons)⟩
      exact fun u hu => hinv.transit_unique hu ht
  | strikeSegment ht ht' _ hb _ =>
      rw [ht']
      exact ⟨h.nodup, agree_other hagree hb (Purpose.Tagged.not_isHeap (Or.inl rfl)) (Or.inl ht)
        _ (Or.inr rfl)⟩
  | strikeLarge ht ht' _ hb _ =>
      rw [ht']
      exact ⟨h.nodup, agree_other hagree hb (Purpose.Tagged.not_isHeap (Or.inr ⟨_, rfl⟩))
        (Or.inl ht) _ (Or.inr rfl)⟩
  | strikeHeap ht ht' _ _ =>
      rw [ht']
      refine ⟨h.nodup.erase _, hagree.strike ht (fun a => ?_)⟩
      rw [h.nodup.mem_erase_iff, and_comm]
  | destroy ht ht' _ hb _ _ hq =>
      rw [hq.heaps, hq.regions, ht', (osFree_region hr hb).2.1]
      exact ⟨h.nodup, agree_destroy hagree ht hb⟩

theorem HeapsListed.step (h : HeapsListed sys) (hinv : SysInv ps sys G)
    (hc : Change ps sys G l sys' G') : HeapsListed sys' := by
  cases hc with
  | thread hok heff _ => exact h.thread hinv (heff.booking hinv.data (hinv.threads _) hok)
  | @client _ t s' th' _ hq htransit _ _ _ _ =>
      constructor
      · change s'.heapRegistry.Nodup
        rw [hq.heaps]
        exact h.nodup
      · rw [System.hands_setThread, htransit]
        change Agree (· ∈ s'.heapRegistry) (Has s'.os.regions Purpose.IsHeap)
          (Function.update sys.hands t (sys.hands t))
        rw [Function.update_eq_self, hq.heaps, hq.regions]
        exact h.agree
  | world hw _ =>
      refine ⟨h.nodup, h.agree.congr (fun _ => Iff.rfl)
        (has_congr fun a r hk => hw.regions a r ?_) (fun _ _ _ => Iff.rfl)⟩
      obtain ⟨t, ht⟩ := hk
      rw [ht]
      simp

theorem Reachable.heapsListed (h : Reachable ps sys) : HeapsListed sys := by
  induction h with
  | init => exact HeapsListed.init
  | step hreach hstep ih =>
      obtain ⟨G, hG⟩ := hreach.inv
      obtain ⟨G', hc⟩ := hG.change hstep
      exact ih.step hG hc

end Heaps

/-- When no call is in progress, the clients hold every pointer. -/
theorem SysInv.client_of_idle {ps : PageSize} {sys : System} {G : Ghost} (h : SysInv ps sys G)
    (hidle : ∀ t, (sys.threads t).pc = .idle) {p : Nat} {g : Grant}
    (hg : sys.store.grants p = some g) : g.holder = .client := by
  have hfree := fun t => (h.threads t).idle_holds (hidle t) hg
  cases hholder : g.holder with
  | client => rfl
  | moving t => exact absurd (by rw [hholder]; rfl) (hfree t)
  | freeing t => exact absurd (by rw [hholder]; rfl) (hfree t)
  | fresh t => exact absurd (by rw [hholder]; rfl) (hfree t)

section Large

/-- Every large region has its pointer. -/
def LargeOwned (s : Store) : Prop :=
  ∀ b size offset, s.os.regions b = some ⟨size, .large offset⟩ →
    ∃ g, s.grants (b + offset) = some g ∧ g.origin = .large b

variable {ps : PageSize} {sys sys' : System} {G G' : Ghost} {l : Label}

theorem LargeOwned.thread (h : LargeOwned sys.store) (hinv : SysInv ps sys G) {o : Oracle} {t : Nat}
    {s' : Store} {th' : Thread} (hb : Booking ps o sys.store t (sys.threads t) s' th')
    (hout : Outcome ps t sys.store G s' G' th') : LargeOwned s' := by
  have hok := hinv.threads t
  -- A pointer that the thread is not freeing stays.
  have hkeep : ∀ b size offset, sys.store.os.regions b = some ⟨size, .large offset⟩ →
      (sys.threads t).pc.freeing ≠ some (b + offset) →
      ∃ g, s'.grants (b + offset) = some g ∧ g.origin = .large b := by
    intro b size offset hregion hne
    obtain ⟨g, hg, ho⟩ := h b size offset hregion
    obtain ⟨g', hg'⟩ := hout.frame.kept _ g hg (fun hh =>
      hne ((hok.holders _ (.freeing t) rfl).mp ⟨g, hg, hh⟩))
    exact ⟨g', hg', (hout.frame.same _ g g' hg hg').1.trans ho⟩
  intro b size offset hregion
  cases hb with
  | rest hplain hq _ =>
      rw [hq.regions] at hregion
      refine hkeep b size offset hregion (fun hfree => ?_)
      obtain ⟨g, hg, ho⟩ := h b size offset hregion
      obtain ⟨_, hlarge⟩ := hinv.data.inv.decode_large hg ho
      cases hpc : (sys.threads t).pc with
      | free p r =>
          rw [hpc] at hfree
          cases hfree
          rw [hplain.small _ r hpc] at hlarge
          cases hlarge
      | remote p head r =>
          rw [hpc] at hfree
          cases hfree
          have hpointers := hok.pointers_at hpc
          obtain ⟨_, g', pg, i, hg', ho'⟩ := hpointers
          rw [hg] at hg'
          cases hg'
          rw [ho] at ho'
          cases ho'
      | unmapLarge p a n r =>
          have htransit := hplain.transit
          rw [Thread.transit, hpc] at htransit
          cases htransit
      | idle | small | linkHeap | walk | acquire | sweep | mapSegment | registerSegment
      | unregisterSegment | unmapSegment | large | registerLarge | release | destroy | hand
      | unlinkHeap | unmapHeap =>
          rw [hpc] at hfree
          cases hfree
  | @create a _ _ purpose _ _ _ _ ht' _ hfree _ _ _ hm _ hq =>
      rw [hq.regions] at hregion
      by_cases hab : b = a
      · subst hab
        cases hout.thread.holding hout.data.inv ht' with
        | heap hh =>
            rw [hq.regions] at hh
            cases hregion.symm.trans hh
        | segment hh =>
            rw [IsSegment, hq.regions] at hh
            cases hregion.symm.trans hh
        | large hh hg ho _ =>
            rw [hq.regions] at hh
            cases hregion.symm.trans hh
            exact ⟨_, hg, ho⟩
      · refine hkeep b size offset ?_ (by rw [hfree]; simp)
        change (_ : Os).regions b = _ at hregion
        rwa [hm.regions, Function.update_of_ne hab] at hregion
  | enterRegion _ _ _ hpc _ _ hreg hwok hq =>
      obtain ⟨hstep, _⟩ := storeRegister_tables hreg hwok hinv.data.inv.regions
        hinv.data.inv.table
      rw [hq.regions] at hregion
      refine hkeep b size offset
        ((hstep.keep hinv.data.inv.regions b _ (by simp)).mp hregion) ?_
      rw [Pc.freeing_of_registers hpc]
      simp
  | enterHeap => exact h b size offset hregion
  | strikeSegment => exact h b size offset hregion
  | strikeLarge => exact h b size offset hregion
  | strikeHeap => exact h b size offset hregion
  | @destroy a n purpose _ _ _ _ _ hb _ hfree hq =>
      rw [hq.regions, (osFree_region hinv.data.inv.regions hb).2.1] at hregion
      obtain ⟨hab, hregion⟩ := PartialMap.erase_eq_some.mp hregion
      refine hkeep b size offset hregion (fun hp => ?_)
      obtain ⟨g, hg, ho⟩ := hfree _ hp
      obtain ⟨g', hg', ho'⟩ := h b size offset hregion
      rw [hg] at hg'
      cases hg'
      rw [ho] at ho'
      cases ho'
      exact hab rfl

theorem LargeOwned.step (h : LargeOwned sys.store) (hinv : SysInv ps sys G)
    (hc : Change ps sys G l sys' G') : LargeOwned sys'.store := by
  cases hc with
  | thread hok heff hout =>
      exact h.thread hinv (heff.booking hinv.data (hinv.threads _) hok) hout
  | client _ hq _ _ _ hkept hout =>
      intro b size offset hregion
      change _ = _ at hregion
      rw [show (System.setThread _ _ _ _).store.os.regions = _ from hq.regions] at hregion
      obtain ⟨g, hg, ho⟩ := h b size offset hregion
      obtain ⟨g', hg'⟩ := hkept _ g hg
      exact ⟨g', hg', (hout.frame.same _ g g' hg hg').1.trans ho⟩
  | world hw _ =>
      intro b size offset hregion
      exact h b size offset ((hw.regions b _ (by simp)).mp hregion)

theorem Reachable.largeOwned (h : Reachable ps sys) : LargeOwned sys.store := by
  induction h with
  | init =>
      intro b size offset hregion
      cases hregion
  | step hreach hstep ih =>
      obtain ⟨G, hG⟩ := hreach.inv
      obtain ⟨G', hc⟩ := hG.change hstep
      exact ih.step hG hc

end Large

section Regions

/-- A segment or large region starts at a registry key. -/
theorem RegionsOk.isKey {mapped : Nat → Bool} {regions : Nat → Option Region}
    (hr : RegionsOk mapped regions) {b : Nat} {r : Region} (hb : regions b = some r)
    (htag : r.purpose.Tagged) : IsKey b := by
  obtain ⟨hne, hpos, hle⟩ := hr.range b r hb
  obtain ⟨size, purpose⟩ := r
  refine ⟨hne, ?_, by simp only at hpos hle; omega⟩
  rcases htag with htag | ⟨offset, htag⟩ <;> simp only at htag <;> subst htag
  · exact (hr.small b size hb).1
  · exact (hr.large b size offset hb).1

/-- A registration finds a table, or is given its first one. -/
def TableFound (ps : PageSize) (sys : System) : Label → Prop
  | .step t o => ∀ b, (sys.threads t).pc.registers = some b → sys.store.registry.slots ≠ 0 ∨
      ((osTables ps).alloc ⟨sys.store.os, o.tables, True⟩ 1024).1 ≠ 0
  | _ => True

/-- The region registry holds every segment and large region that is mapped and
not in transit. -/
structure RegionsListed (sys : System) : Prop where
  inv : sys.store.registry.Inv
  agree : Agree sys.store.registry.Holds (Has sys.store.os.regions Purpose.Tagged) sys.hands

variable {ps : PageSize} {sys sys' : System} {G G' : Ghost} {l : Label}

theorem RegionsListed.init : RegionsListed System.init where
  inv := Registry.inv_init
  agree := by
    intro b
    simp [Has, System.init, Store.init, Os.init, Registry.Holds, Registry.init]

theorem Purpose.not_tagged_heap (t : Nat) : ¬ (Purpose.heap t).Tagged := by
  simp [Purpose.Tagged]

/-- A step of a thread keeps the registry's invariant, whether or not a
registration finds a table. -/
theorem Booking.registry_inv {o : Oracle} {s s' : Store} {t : Nat} {th th' : Thread}
    (hb : Booking ps o s t th s' th') (hr : RegionsOk s.os.mapped s.os.regions)
    (h : s.registry.Inv) : s'.registry.Inv := by
  cases hb with
  | rest _ hq _ => rwa [hq.registry]
  | create _ _ _ _ _ _ _ _ _ hq => rwa [hq.registry]
  | enterRegion _ _ _ _ hb htag hreg _ hq =>
      rw [hq.registry]
      exact (regionRegister_keeps (osTables_refusesEmpty ps) h (hr.isKey hb htag) hreg).1
  | enterHeap _ _ _ _ => exact h
  | strikeSegment _ _ _ hb hunreg =>
      exact (regionUnregister_keeps h (hr.isKey hb (Or.inl rfl)).2.1 hunreg).1
  | strikeLarge _ _ _ hb hunreg =>
      exact (regionUnregister_keeps h (hr.isKey hb (Or.inr ⟨_, rfl⟩)).2.1 hunreg).1
  | strikeHeap _ _ _ _ => exact h
  | destroy _ _ _ _ _ _ hq => rwa [hq.registry]

theorem Change.registry_inv (hc : Change ps sys G l sys' G') (hinv : SysInv ps sys G)
    (h : sys.store.registry.Inv) : sys'.store.registry.Inv := by
  cases hc with
  | thread hok heff _ =>
      exact (heff.booking hinv.data (hinv.threads _) hok).registry_inv hinv.data.inv.regions h
  | @client _ t s' th' _ hq _ _ _ _ _ =>
      change s'.registry.Inv
      rwa [hq.registry]
  | world _ _ => exact h

theorem Reachable.registry_inv (h : Reachable ps sys) : sys.store.registry.Inv := by
  induction h with
  | init => exact Registry.inv_init
  | step hreach hstep ih =>
      obtain ⟨G, hG⟩ := Reachable.inv hreach
      obtain ⟨G', hc⟩ := hG.change hstep
      exact hc.registry_inv hG ih

theorem RegionsListed.thread (h : RegionsListed sys) (hinv : SysInv ps sys G) {o : Oracle} {t : Nat}
    {s' : Store} {th' : Thread} (hb : Booking ps o sys.store t (sys.threads t) s' th')
    (htable : TableFound ps sys (.step t o)) : RegionsListed (sys.setThread t s' th') := by
  have hr := hinv.data.inv.regions
  have hagree := h.agree
  suffices hnext : Agree s'.registry.Holds (Has s'.os.regions Purpose.Tagged)
      (Function.update sys.hands t th'.transit) by
    refine ⟨hb.registry_inv hr h.inv, ?_⟩
    rw [System.hands_setThread]
    exact hnext
  cases hb with
  | rest hplain hq ht' =>
      rw [hq.registry, hq.regions, ht']
      refine hagree.hold (fun a ha => ?_) none (fun a ha => by cases ha)
      rw [show sys.hands t = none from hplain.transit] at ha
      cases ha
  | create ht ht' _ _ _ _ _ hm _ hq =>
      rw [hq.registry, hq.regions, ht']
      exact agree_create hagree ht hm hr
  | @enterRegion b r _ _ _ _ ht ht' _ hpc hb htag hreg hok hq =>
      obtain ⟨hstep, _⟩ := storeRegister_tables hreg hok hr hinv.data.inv.table
      have hholds := (regionRegister_keeps (osTables_refusesEmpty ps) h.inv
        (hr.isKey hb htag) hreg).2 (htable b hpc)
      rw [hq.registry, hq.regions, ht']
      have henter := hagree.enter ht ((has_iff hb).mpr htag)
        (fun u hu => hinv.transit_unique hu ht) hholds
      refine henter.congr (fun _ => Iff.rfl) (fun a => ?_) (fun _ _ _ => Iff.rfl)
      exact has_tables hstep hr (by simp [Purpose.Tagged]) a
  | enterHeap ht ht' _ hh =>
      rw [ht']
      exact agree_other hagree hh (Purpose.not_tagged_heap t) (Or.inr ht) _ (Or.inl rfl)
  | strikeSegment ht ht' _ hb hunreg =>
      obtain ⟨_, hholds⟩ := regionUnregister_keeps h.inv (hr.isKey hb (Or.inl rfl)).2.1 hunreg
      rw [ht']
      exact hagree.strike ht hholds
  | strikeLarge ht ht' _ hb hunreg =>
      obtain ⟨_, hholds⟩ := regionUnregister_keeps h.inv
        (hr.isKey hb (Or.inr ⟨_, rfl⟩)).2.1 hunreg
      rw [ht']
      exact hagree.strike ht hholds
  | strikeHeap ht ht' _ hh =>
      rw [ht']
      exact agree_other hagree hh (Purpose.not_tagged_heap t) (Or.inl ht) _ (Or.inr rfl)
  | destroy ht ht' _ hb _ _ hq =>
      rw [hq.registry, hq.regions, ht', (osFree_region hr hb).2.1]
      exact agree_destroy hagree ht hb

theorem RegionsListed.step (h : RegionsListed sys) (hinv : SysInv ps sys G)
    (hc : Change ps sys G l sys' G') (htable : TableFound ps sys l) : RegionsListed sys' := by
  have hreg := hc.registry_inv hinv h.inv
  cases hc with
  | thread hok heff _ => exact h.thread hinv (heff.booking hinv.data (hinv.threads _) hok) htable
  | @client _ t s' th' _ hq htransit _ _ _ _ =>
      refine ⟨hreg, ?_⟩
      rw [System.hands_setThread, htransit]
      change Agree s'.registry.Holds (Has s'.os.regions Purpose.Tagged)
        (Function.update sys.hands t (sys.hands t))
      rw [Function.update_eq_self, hq.registry, hq.regions]
      exact h.agree
  | world hw _ =>
      refine ⟨hreg, h.agree.congr (fun _ => Iff.rfl)
        (has_congr fun a r hk => hw.regions a r ?_) (fun _ _ _ => Iff.rfl)⟩
      rcases hk with hk | ⟨o, hk⟩ <;> rw [hk] <;> simp

theorem ReachableBy.regionsListed (h : ReachableBy ps (TableFound ps) sys) : RegionsListed sys := by
  induction h with
  | init => exact RegionsListed.init
  | step hreach hstep hl ih =>
      obtain ⟨G, hG⟩ := hreach.reachable.inv
      obtain ⟨G', hc⟩ := hG.change hstep
      exact ih.step hG hc hl

/-- The base a thread is about to strike out of the region registry. -/
def Thread.unregisters (s : Store) (th : Thread) : Option Nat :=
  match th.pc with
  | .unregisterSegment b _ => some b
  | .free p _ => if isLarge s.os.mem p then some (regionBase p) else none
  | _ => none

/-- The region at `b` is thread `t`'s to give up: a segment that `t`, with the
lock, has found without a pointer into it, or the region of the pointer that
`t` is freeing. -/
def GivesUp (s : Store) (t b : Nat) : Prop :=
  (IsSegment s.os.regions b ∧ s.central.mtx = some t ∧
    ∀ p g pg i, s.grants p = some g → g.origin = .small pg i → pg.seg ≠ b) ∨
  ∃ p g, s.grants p = some g ∧ g.holder = .freeing t ∧ g.origin = .large b

/-- A live pointer is not in a region in transit. -/
theorem RegionsListed.holds_of_live (h : RegionsListed sys) (hinv : SysInv ps sys G) {p : Nat}
    {g : Grant} (hlive : Live sys.store p g) : sys.store.registry.Holds (regionBase p) := by
  obtain ⟨hg, hholder⟩ := hlive
  have hdata := hinv.data.inv
  refine (h.agree _).mpr ?_
  cases ho : g.origin with
  | small pg i =>
      have hpage := (hdata.smallGrant hg ho).page.1
      rw [(hdata.decode_small hg ho).1]
      refine ⟨⟨_, hpage, Or.inl rfl⟩, fun u hu => ?_⟩
      cases (hinv.threads u).holding hdata hu with
      | heap hh => exact absurd (hpage.symm.trans hh) (by simp)
      | segment hh _ hidle => exact hdata.grant_not_idle hh hidle hg ho rfl
      | large hh => exact absurd (hpage.symm.trans hh) (by simp)
  | large b =>
      obtain ⟨size, offset, hb, rfl, _⟩ := hdata.grants.large p g b hg ho
      rw [(hdata.decode_large hg ho).1]
      refine ⟨⟨_, hb, Or.inr ⟨_, rfl⟩⟩, fun u hu => ?_⟩
      cases (hinv.threads u).holding hdata hu with
      | heap hh => exact absurd (hb.symm.trans hh) (by simp)
      | segment hh => exact absurd (hb.symm.trans hh) (by simp)
      | large hh hg' _ hh' =>
          rw [hb] at hh
          cases hh
          rw [hg] at hg'
          cases hg'
          rcases hh' with hh' | hh' <;> rw [hh'] at hholder <;> simp at hholder

/-- What a thread is about to strike out is registered, and its own. -/
theorem RegionsListed.unregisters (h : RegionsListed sys) (hinv : SysInv ps sys G) {t b : Nat}
    (hb : (sys.threads t).unregisters sys.store = some b) :
    sys.store.registry.Holds b ∧ GivesUp sys.store t b := by
  have hdata := hinv.data.inv
  have hok := hinv.threads t
  unfold Thread.unregisters at hb
  cases hpc : (sys.threads t).pc with
  | unregisterSegment a after =>
      rw [hpc] at hb
      cases hb
      have hlock := hok.lock_at hpc
      have hm := hok.mtx.mpr (by rw [hpc]; rfl)
      obtain ⟨hseg, hidle⟩ := hdata.lists.places.dying b hlock.1
      refine ⟨(h.agree b).mpr ⟨⟨_, hseg, Or.inl rfl⟩, fun u hu => ?_⟩,
        Or.inl ⟨hseg, hm, fun p g pg i hg ho => hdata.grant_not_idle hseg hidle hg ho⟩⟩
      cases (hinv.threads u).holding hdata hu with
      | heap hh => exact absurd (hseg.symm.trans hh) (by simp)
      | segment _ hm' _ =>
          cases hm.symm.trans hm'
          rw [System.hands, Thread.transit, hpc] at hu
          cases hu
      | large hh => exact absurd (hseg.symm.trans hh) (by simp)
  | free p r =>
      rw [hpc] at hb
      simp only at hb
      split at hb
      · rename_i hlarge
        cases hb
        obtain ⟨g, hg, hholder⟩ := (hok.holders p (.freeing t) rfl).mpr (by rw [hpc]; rfl)
        cases ho : g.origin with
        | small pg i =>
            rw [(hdata.decode_small hg ho).2.1] at hlarge
            cases hlarge
        | large b =>
            obtain ⟨size, offset, hregion, rfl, _⟩ := hdata.grants.large p g b hg ho
            rw [(hdata.decode_large hg ho).1]
            refine ⟨(h.agree b).mpr ⟨⟨_, hregion, Or.inr ⟨_, rfl⟩⟩, fun u hu => ?_⟩,
              Or.inr ⟨_, g, hg, hholder, ho⟩⟩
            cases (hinv.threads u).holding hdata hu with
            | heap hh => exact absurd (hregion.symm.trans hh) (by simp)
            | segment hh => exact absurd (hregion.symm.trans hh) (by simp)
            | large hh hg' _ hh' =>
                rw [hregion] at hh
                cases hh
                rw [hg] at hg'
                cases hg'
                rw [hholder] at hh'
                rcases hh' with hh' | hh'
                · cases hh'
                · cases hh'
                  rw [System.hands, Thread.transit, hpc] at hu
                  cases hu
      · cases hb
  | idle | small | linkHeap | walk | acquire | sweep | mapSegment | registerSegment
  | unmapSegment | large | registerLarge | remote | release | unmapLarge | destroy | hand
  | unlinkHeap | unmapHeap =>
      rw [hpc] at hb
      cases hb

/-- When no call is in progress, the registry holds the segments and the large
regions with a live pointer. -/
theorem RegionsListed.holds_iff_of_idle (h : RegionsListed sys) (hinv : SysInv ps sys G)
    (hlarge : LargeOwned sys.store) (hidle : ∀ t, (sys.threads t).pc = .idle) (b : Nat) :
    sys.store.registry.Holds b ↔ IsSegment sys.store.os.regions b ∨
      ∃ p g, Live sys.store p g ∧ g.origin = .large b := by
  have hnone : ∀ t, sys.hands t ≠ some b := by
    intro t ht
    rw [System.hands, Thread.transit, hidle t] at ht
    cases ht
  rw [h.agree b]
  constructor
  · rintro ⟨⟨⟨size, purpose⟩, hb, htag⟩, _⟩
    rcases htag with htag | ⟨offset, htag⟩ <;> simp only at htag <;> subst htag
    · obtain ⟨_, rfl⟩ := hinv.data.inv.regions.small b size hb
      exact Or.inl hb
    · obtain ⟨g, hg, ho⟩ := hlarge b size offset hb
      exact Or.inr ⟨_, g, ⟨hg, Or.inl (hinv.client_of_idle hidle hg)⟩, ho⟩
  · rintro (hb | ⟨p, g, ⟨hg, _⟩, ho⟩)
    · exact ⟨⟨_, hb, Or.inl rfl⟩, hnone⟩
    · obtain ⟨size, offset, hb, _⟩ := hinv.data.inv.grants.large p g b hg ho
      exact ⟨⟨_, hb, Or.inr ⟨_, rfl⟩⟩, hnone⟩

/-- The region registry and the mapped regions. At every point of every run in
which registrations find a table: the base of a live pointer is registered; a
registered base is that of a mapped segment or large region, and takes one
slot; a thread registers only a mapped region that is not registered, and
unregisters only a region that is registered and its own to give up; until the
region is unmapped it stays in the hands of that thread; and when no call is in
progress the registered bases are those of the segments and of the live large
regions. -/
theorem registry_agrees_with_regions (h : ReachableBy ps (TableFound ps) sys) :
    (∀ p g, Live sys.store p g → regionOwns sys.store.registry (regionBase p) = some true) ∧
    (∀ b, sys.store.registry.Holds b → ∃ r, sys.store.os.regions b = some r ∧ r.purpose.Tagged ∧
      ∀ x, b ≤ x → x < b + r.size → sys.store.os.mapped x = true) ∧
    (∀ i < sys.store.registry.cap, ∀ j < sys.store.registry.cap,
      isLive (sys.store.registry.cells i) = true →
      sys.store.registry.cells i = sys.store.registry.cells j → i = j) ∧
    (∀ t b, (sys.threads t).pc.registers = some b → ¬ sys.store.registry.Holds b ∧
      Has sys.store.os.regions Purpose.Tagged b) ∧
    (∀ t b, (sys.threads t).unregisters sys.store = some b →
      sys.store.registry.Holds b ∧ GivesUp sys.store t b) ∧
    (∀ t b, (sys.threads t).transit = some b → ¬ sys.store.registry.Holds b ∧
      (∃ r, sys.store.os.regions b = some r) ∧
      ∀ u, (sys.threads u).transit = some b → u = t) ∧
    ((∀ t, (sys.threads t).pc = .idle) → ∀ b, sys.store.registry.Holds b ↔
      IsSegment sys.store.os.regions b ∨ ∃ p g, Live sys.store p g ∧ g.origin = .large b) := by
  have hlisted := h.regionsListed
  obtain ⟨G, hG⟩ := h.reachable.inv
  have hr := hG.data.inv.regions
  have hout : ∀ t b, (sys.threads t).transit = some b → ¬ sys.store.registry.Holds b :=
    fun t b ht hholds => ((hlisted.agree b).mp hholds).2 t ht
  refine ⟨?_, ?_, ?_, ?_, fun t b => hlisted.unregisters hG, ?_,
    hlisted.holds_iff_of_idle hG h.reachable.largeOwned⟩
  · intro p g hlive
    have hholds := hlisted.holds_of_live hG hlive
    obtain ⟨r, hb, htag⟩ := ((hlisted.agree _).mp hholds).1
    exact hlisted.inv.owns_of_holds (hr.isKey hb htag).2.1 hholds
  · intro b hholds
    obtain ⟨r, hb, htag⟩ := ((hlisted.agree b).mp hholds).1
    exact ⟨r, hb, htag, hr.mapped b r hb⟩
  · intro i hi j hj hlive heq
    rcases hlisted.inv with ⟨_, hcap, _⟩ | hok
    · omega
    · exact hok.sound.inj i hi j hj heq (isLive_iff.mp hlive).1 (isLive_iff.mp hlive).2
  · intro t b hpc
    obtain ⟨ht, hregion⟩ := (hG.threads t).registering hpc
    exact ⟨hout t b ht, hregion⟩
  · intro t b ht
    refine ⟨hout t b ht, ?_, fun u hu => hG.transit_unique hu ht⟩
    cases (hG.threads t).holding hG.data.inv ht with
    | heap hh => exact ⟨_, hh⟩
    | segment hh => exact ⟨_, hh⟩
    | large hh => exact ⟨_, hh⟩

/-- The condition of a run, as a check of a computed one. -/
def tableReady {σ : Type} (ps : PageSize) (w : World σ) (a : Act) : Bool :=
  match a.label w with
  | .step t o => (w.sys.threads t).pc.registers == none || w.sys.store.registry.slots != 0 ||
      ((osTables ps).alloc ⟨w.sys.store.os, o.tables, True⟩ 1024).1 != 0
  | _ => true

theorem tableReady_ok {σ : Type} {w : World σ} {a : Act} (h : tableReady ps w a = true) :
    TableFound ps w.sys (a.label w) := by
  unfold tableReady at h
  unfold TableFound
  split at h
  · intro b hb
    simpa [hb] using h
  · trivial

/-- A thread has taken its first block. -/
theorem registry_agrees_first : ∃ sys p g, ReachableBy page4k (TableFound page4k) sys ∧
    Live sys.store p g ∧ regionOwns sys.store.registry (regionBase p) = some true := by
  obtain ⟨w, hrun, hcheck⟩ := schedule_reaches page4k (tableReady page4k) (fun _ _ _ _ => ()) ()
    (firstMalloc 0 16)
    (fun w => w.sys.store.grants (2 ^ 43 + 63 * pageSize) ==
      some ⟨16, 16, .client, .small ⟨2 ^ 43, 63⟩ 0⟩)
    (fun _ _ => tableReady_ok) (by decide +kernel)
  have hlive : Live w.sys.store _ _ := ⟨eq_of_beq hcheck, Or.inl rfl⟩
  exact ⟨w.sys, _, _, hrun.reachableBy, hlive,
    (registry_agrees_with_regions hrun.reachableBy).1 _ _ hlive⟩

end Regions

end HMalloc
