import HMalloc.Accounts
import HMalloc.CallRuns

/-!
No address is leaked. Every byte that is mapped lies in a region (`Covered`), in
every reachable state. When no call is in progress each region can be reached from
the data of the allocator: it is a segment of the central list, the region of a live
large pointer, a heap of the heap registry, or the table of the region registry.
-/

namespace HMalloc

open Bytes Linked

/-- The address lies in a region. -/
def Region.At (regions : Nat → Option Region) (x b : Nat) (r : Region) : Prop :=
  regions b = some r ∧ b ≤ x ∧ x < b + r.size

/-- What is mapped lies in a region. -/
def Covered (os : Os) : Prop := ∀ x, os.mapped x = true → ∃ b r, Region.At os.regions x b r

section Os

variable {os os' : Os} {b size : Nat} {purpose : Purpose}

theorem Covered.map (h : Covered os) (hr : RegionsOk os.mapped os.regions)
    (hm : os.Mapped os' b size purpose) : Covered os' := by
  intro x hx
  rcases (hm.mapped x).mp hx with hold | ⟨hlo, hhi⟩
  · obtain ⟨a, r, ha, hin⟩ := h x hold
    exact ⟨a, r, hm.regions_kept hr ha, hin⟩
  · exact ⟨b, ⟨size, purpose⟩, by rw [hm.regions, Function.update_self], hlo, hhi⟩

/-- The range of a region is unmapped, and the region goes. -/
theorem Covered.drop (h : Covered os) (hb : os.regions b = some ⟨size, purpose⟩)
    (hmapped : ∀ x, os'.mapped x = (os.mapped x && !(decide (b ≤ x) && decide (x < b + size))))
    (hregions : os'.regions = Function.update os.regions b none) : Covered os' := by
  intro x hx
  rw [hmapped x] at hx
  simp only [Bool.and_eq_true, Bool.not_eq_true', Bool.and_eq_false_iff, decide_eq_false_iff_not]
    at hx
  obtain ⟨hx, hout⟩ := hx
  obtain ⟨a, r, ha, hlo, hhi⟩ := h x hx
  refine ⟨a, r, ?_, hlo, hhi⟩
  rw [hregions, Function.update_of_ne]
  · exact ha
  · rintro rfl
    cases hb.symm.trans ha
    simp only at hhi
    omega

theorem Covered.unmap (h : Covered os) (hr : RegionsOk os.mapped os.regions)
    (hb : os.regions b = some ⟨size, purpose⟩) : Covered (osFree os b size) := by
  obtain ⟨hne, hpos, _⟩ := hr.range b _ hb
  have heq : osFree os b size = ((os.munmap b size).accountUnmap size).forget b :=
    if_neg (by simp only at hpos; omega)
  rw [heq]
  exact h.drop hb (fun _ => rfl) rfl

end Os

section Steps

variable {ps : PageSize} {sys sys' : System} {G : Ghost} {l : Label}

theorem Covered.register (h : Covered sys.store.os) (hinv : Inv ps sys.store G) {o : Oracle}
    {key : Nat} {w : TableWorld} {r : Registry}
    (hreg : storeRegister ps o sys.store key = some (w, r)) (hok : w.ok) : Covered w.os := by
  refine (storeRegister_rule (Q := fun os r => RegionsOk os.mapped os.regions ∧ TableOk ps os r ∧
    Covered os) ?_ ?_ hreg hok ⟨hinv.regions, hinv.table, h⟩).2.2
  · rintro w w' r r' newCap hgrow hok' ⟨hr, htable, hcov⟩
    obtain ⟨hstep, htable'⟩ := growLocked_tables hgrow hok' hr htable
    refine ⟨hstep.regions hr, htable', ?_⟩
    rcases growLocked_cases hgrow hok' with ⟨hos, _⟩ | ⟨a, os, _, _, hm, _, _, hos⟩
    · rw [hos]
      exact hcov
    · rw [hos]
      split
      · rename_i hslots
        exact (hcov.map hr hm).unmap ((TableStep.map hm).regions hr)
          (hm.regions_kept hr (htable hslots))
      · exact hcov.map hr hm
  · rintro os r₀ r₁ hslots hcap ⟨hr, htable, hcov⟩
    refine ⟨hr, ?_, hcov⟩
    unfold TableOk
    rw [hslots, hcap]
    exact htable

theorem Quiet.covered {s s' : Store} (hq : Quiet s s') (h : Covered s.os) : Covered s'.os := by
  unfold Covered
  rw [hq.mapped, hq.regions]
  exact h

/-- A step of a thread. -/
theorem Covered.thread (h : Covered sys.store.os) (hinv : SysInv ps sys G) {o : Oracle} {t : Nat}
    {s' : Store} {th' : Thread} (hb : Booking ps o sys.store t (sys.threads t) s' th') :
    Covered s'.os := by
  have hr := hinv.data.inv.regions
  cases hb with
  | rest _ hq => exact hq.covered h
  | create _ _ _ _ _ _ _ hm _ hq => exact hq.covered (h.map hr hm)
  | enterRegion _ _ _ _ _ _ hreg hok hq => exact hq.covered (h.register hinv.data.inv hreg hok)
  | enterHeap | strikeSegment | strikeLarge | strikeHeap => exact h
  | destroy _ _ _ hb _ _ hq => exact hq.covered (h.unmap hr hb)

theorem Covered.step (h : Covered sys.store.os) (hinv : SysInv ps sys G)
    (hstep : Step ps sys l sys') : Covered sys'.store.os := by
  cases l with
  | step t o =>
      obtain ⟨s', th', G', hown, rfl⟩ := hinv.own_step hstep
      exact h.thread hinv ((stepThread_effect hown.busy hown.run).booking hinv.data (hinv.threads t)
        hown.ok)
  | foreignMap base len =>
      obtain ⟨⟨hne, hpos, hbound, hfresh⟩, hrun⟩ := hstep
      cases hrun
      exact h.map hinv.data.inv.regions (Os.mapped_foreign hne hpos hbound hfresh)
  | foreignUnmap base =>
      obtain ⟨⟨size, hb⟩, hrun⟩ := hstep
      simp only [exec, hb] at hrun
      cases hrun
      exact h.drop hb (fun _ => rfl) rfl
  | spawn | finish | write | foreignWrite =>
      obtain ⟨_, hrun⟩ := hstep
      cases hrun
      exact h
  | call t call =>
      obtain ⟨_, hrun⟩ := hstep
      rw [exec_call] at hrun
      cases hrun
      exact h
  | guardExit t =>
      obtain ⟨_, hrun⟩ := hstep
      simp only [exec] at hrun
      split at hrun <;> (cases hrun; exact h)

theorem Reachable.covered (h : Reachable ps sys) : Covered sys.store.os := by
  induction h with
  | init =>
      intro x hx
      cases hx
  | step hreach hstep ih =>
      obtain ⟨G, hG⟩ := hreach.inv
      exact ih.step hG hstep

end Steps

/-- What the allocator's data say it has mapped at `x`. -/
inductive Accounted (ps : PageSize) (s : Store) (listed : List Nat) (x : Nat) : Prop where
  | segment {b : Nat} (hb : b ∈ listed) (hlo : b ≤ x) (hhi : x < b + segmentSize)
  /-- The region of a live large pointer, with its header. -/
  | large {p b : Nat} {g : Grant} (hlive : Live s p g) (ho : g.origin = .large b) (hlo : b ≤ x)
      (hhi : x < p + g.usable)
  | heap {k : Nat} (hk : k ∈ s.heapRegistry) (hlo : k ≤ x) (hhi : x < k + heapBytes ps)
  | table (hslots : s.registry.slots ≠ 0) (hlo : s.registry.slots ≤ x)
      (hhi : x < s.registry.slots + slotsBytes ps s.registry.cap)
  /-- Memory of the rest of the program. -/
  | foreign {b size : Nat} (hb : s.os.regions b = some ⟨size, .foreign⟩) (hlo : b ≤ x)
      (hhi : x < b + size)

/-- Whenever no call is in progress, exactly the addresses are mapped that the
allocator can find again: those of the segments on the central list, of the regions
of live large pointers, of the heaps in the heap registry and of the registry's
table. So no address is lost, whatever failed, was trimmed or was freed by whom. -/
theorem mapped_memory_accounted_for {ps : PageSize} {sys : System} (h : Reachable ps sys)
    (hidle : ∀ t, (sys.threads t).pc = .idle) :
    ∃ listed, Chain sys.store.seg.next sys.store.central.segments listed ∧
      ∀ x, sys.store.os.mapped x = true ↔ Accounted ps sys.store listed x := by
  obtain ⟨G, hG⟩ := h.inv
  have hinv := hG.data.inv
  have hr := hinv.regions
  refine ⟨G.segments, hinv.lists.chains.segments, fun x => ⟨fun hx => ?_, fun hx => ?_⟩⟩
  · obtain ⟨b, ⟨size, purpose⟩, hb, hlo, hhi⟩ := h.covered x hx
    simp only at hhi
    cases purpose with
    | small =>
        obtain ⟨hlisted, rfl⟩ := (hG.segments_of_idle hidle b size).mp hb
        exact .segment hlisted hlo hhi
    | large offset =>
        obtain ⟨g, hg, ho⟩ := h.largeOwned b size offset hb
        obtain ⟨size', offset', hb', hp, husable, _⟩ := hinv.grants.large _ g b hg ho
        cases hb.symm.trans hb'
        have hlt := (hr.large b size offset hb).2.2.2.2
        exact .large ⟨hg, Or.inl (hG.client_of_idle hidle hg)⟩ ho hlo (by omega)
    | heap t =>
        obtain ⟨hk, rfl⟩ := (hG.heaps_of_idle h.heapsListed hidle b size).mp ⟨t, hb⟩
        exact .heap hk hlo hhi
    | table =>
        obtain rfl := h.books.table b size hb
        have hne := (hr.range _ _ hb).1
        cases hb.symm.trans (hinv.table hne)
        exact .table hne hlo hhi
    | foreign => exact .foreign hb hlo hhi
  · cases hx with
    | segment hb hlo hhi =>
        exact hr.mapped _ _ ((hG.segments_of_idle hidle _ segmentSize).mpr ⟨hb, rfl⟩) x hlo hhi
    | large hlive ho hlo hhi =>
        obtain ⟨size, offset, hb, rfl, husable, _⟩ := hinv.grants.large _ _ _ hlive.1 ho
        have hlt := (hr.large _ _ _ hb).2.2.2.2
        exact hr.mapped _ _ hb x hlo (by simp only; omega)
    | heap hk hlo hhi =>
        obtain ⟨t, hb⟩ := (hG.heaps_of_idle h.heapsListed hidle _ _).mpr ⟨hk, rfl⟩
        exact hr.mapped _ _ hb x hlo hhi
    | table hslots hlo hhi => exact hr.mapped _ _ (hinv.table hslots) x hlo hhi
    | foreign hb hlo hhi => exact hr.mapped _ _ hb x hlo hhi

/-- A thread has taken a small and a large block. The address is in the header of
its segment. -/
theorem mapped_memory_accounted_for_header : ∃ sys, Reachable page4k sys ∧
    (∀ t, (sys.threads t).pc = .idle) ∧ sys.store.os.mapped (2 ^ 43 + 8) = true ∧
    ∃ listed, Chain sys.store.seg.next sys.store.central.segments listed ∧
      Accounted page4k sys.store listed (2 ^ 43 + 8) := by
  obtain ⟨w, hrun, hidle, hcheck⟩ := schedule_reaches_quiet (P := fun _ _ => True) page4k
    (fun _ _ => true) (fun _ _ _ _ => ()) ()
    (firstMalloc 0 16 ++ [.call 0 (.malloc 20000), .step 0 true, .step 0 true])
    (fun w => w.sys.store.os.mapped (2 ^ 43 + 8))
    (fun _ _ _ => trivial) (by decide +kernel)
  have hreach := hrun.reachableBy.reachable
  obtain ⟨listed, hlisted, hmapped⟩ := mapped_memory_accounted_for hreach hidle
  exact ⟨w.sys, hreach, hidle, hcheck, listed, hlisted, (hmapped _).mp hcheck⟩

end HMalloc
