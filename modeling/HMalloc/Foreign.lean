import HMalloc.Agreement
import HMalloc.Override

/-!
Pointers of other allocators. The override decides from the 4 MiB window of an
address whose it is. A segment fills its window, so an address outside every
segment is in the window of none. A large region need not: what
`os_alloc_aligned` trimmed off behind it is in its window too, and another
allocator may be given it.
-/

namespace HMalloc

open Bytes Handover

/-- `p` is outside every segment and large region. -/
def Outside (regions : Nat → Option Region) (p : Nat) : Prop :=
  ∀ b r, regions b = some r → r.purpose.Tagged → ¬ (b ≤ p ∧ p < b + r.size)

/-- What `region_owns` claims is in the table. -/
theorem holds_of_owns {r : Registry} {k : Nat} (hk : segmentSize ∣ k)
    (h : regionOwns r k = some true) : r.Holds k := by
  unfold regionOwns at h
  split at h
  · cases h
  rename_i hslots
  simp only [Option.bind_eq_bind, Option.bind_eq_some_iff] at h
  obtain ⟨j, hfind, hne⟩ := h
  have hne : r.cells j ≠ emptySlot := by simpa using hne
  have hcap : 0 < r.cap := by
    by_contra hzero
    rw [findSlot, show r.cap = 0 by omega] at hfind
    cases hfind
  obtain ⟨hj, hstop⟩ := Probe.scan_stops (P := fun i => i < r.cap)
    (fun i _ => Nat.lt_of_le_of_lt Nat.and_le_right (by omega))
    (Nat.lt_of_le_of_lt Nat.and_le_right (by omega)) hfind
  have hcell : r.cells j = k := by
    simpa [Probe.stopAt, hne] using hstop
  exact ⟨hslots, isLive_iff.mpr ⟨hcell ▸ hne, dvd_ne_tomb hk⟩, j, hj, hcell⟩

/-- The window of an address. -/
theorem regionBase_spec {p : Nat} (hp : p < 2 ^ 64) :
    segmentSize ∣ regionBase p ∧ regionBase p ≤ p ∧ p < regionBase p + segmentSize := by
  rw [regionBase_eq hp]
  refine ⟨Nat.dvd_mul_left _ _, Nat.div_mul_le_self _ _, ?_⟩
  exact Nat.lt_div_mul_add (by decide)

/-- A large region shorter than a segment starts at the base of the window of `p`. -/
def InShortWindow (regions : Nat → Option Region) (p : Nat) : Prop :=
  ∃ size offset, regions (regionBase p) = some ⟨size, .large offset⟩ ∧ size < segmentSize

/-- Of the windows that an address outside every region may be in, only those of
short large regions have a region at their base. -/
theorem Outside.has_regionBase {mapped : Nat → Bool} {regions : Nat → Option Region} {p : Nat}
    (hout : Outside regions p) (hr : RegionsOk mapped regions) (hp : p < 2 ^ 64) :
    Has regions Purpose.Tagged (regionBase p) ↔ InShortWindow regions p := by
  obtain ⟨_, hle, hlt⟩ := regionBase_spec hp
  constructor
  · rintro ⟨⟨size, purpose⟩, hb, htag⟩
    have hshort : size < segmentSize := by
      by_contra hlong
      exact hout _ _ hb htag ⟨hle, by simp only; omega⟩
    rcases htag with htag | ⟨offset, htag⟩ <;> simp only at htag <;> subst htag
    · exact absurd (hr.small _ size hb).2 hshort.ne
    · exact ⟨size, offset, hb, hshort⟩
  · rintro ⟨size, offset, hb, _⟩
    exact ⟨_, hb, Or.inr ⟨offset, rfl⟩⟩

/-- The override forwards foreign pointers, unless they are in the window of a
large region. In every reachable state in which the registry holds the bases of
the segments and large regions, and for every address outside these: `ours`
claims it exactly if a large region shorter than a segment starts at the base of
its window, and answers no exactly if none does and the registry's table has an
empty slot; then the entry points call the real allocator. -/
theorem override_forwards_foreign (ps : PageSize) {sys : System} (h : Reachable ps sys)
    (hexact : ∀ b, sys.store.registry.Holds b ↔ Has sys.store.os.regions Purpose.Tagged b)
    {p : Nat} (hp : p < 2 ^ 64) (hout : Outside sys.store.os.regions p) :
    (ours sys.store.registry p = some true ↔ InShortWindow sys.store.os.regions p) ∧
    (ours sys.store.registry p = some false ↔
      ¬ InShortWindow sys.store.os.regions p ∧ ¬ sys.store.registry.Full) ∧
    (¬ InShortWindow sys.store.os.regions p → ¬ sys.store.registry.Full → p ≠ 0 →
      ∀ real, Forwarded real sys.store.registry p) := by
  obtain ⟨G, hinv⟩ := h.inv
  have hreg := h.registry_inv
  have hdvd := (regionBase_spec hp).1
  have hshort : sys.store.registry.Holds (regionBase p) ↔
      InShortWindow sys.store.os.regions p :=
    (hexact _).trans (hout.has_regionBase hinv.data.inv.regions hp)
  have htrue : ours sys.store.registry p = some true ↔
      sys.store.registry.Holds (regionBase p) :=
    ⟨holds_of_owns hdvd, hreg.owns_of_holds hdvd⟩
  have hfalse := hreg.owns_false_iff hdvd
  rw [hshort] at htrue hfalse
  exact ⟨htrue, hfalse, fun hlong hroom hne real => .of_owns hne (hfalse.mpr ⟨hlong, hroom⟩) real⟩

/-- Without a call in progress the registry holds the mapped regions. -/
theorem RegionsListed.exact {sys : System} (h : RegionsListed sys)
    (hidle : ∀ t, (sys.threads t).pc = .idle) (b : Nat) :
    sys.store.registry.Holds b ↔ Has sys.store.os.regions Purpose.Tagged b := by
  rw [h.agree b, and_iff_left]
  intro t ht
  rw [System.hands, Thread.transit, hidle t] at ht
  cases ht

/-- An address that is not mapped is outside every region. -/
theorem RegionsOk.outside {mapped : Nat → Bool} {regions : Nat → Option Region}
    (hr : RegionsOk mapped regions) {p : Nat} (hp : mapped p = false) : Outside regions p := by
  rintro b r hb _ ⟨hle, hlt⟩
  rw [hr.mapped b r hb p hle hlt] at hp
  cases hp

/-- A thread has taken a large block, and an address far from it is freed. -/
theorem override_forwards_foreign_far : ∃ sys, Reachable page4k sys ∧
    Outside sys.store.os.regions 4096 ∧ sys.store.registry.slots ≠ 0 ∧
    Forwarded true sys.store.registry 4096 := by
  obtain ⟨w, hrun, hidle, hcheck⟩ := schedule_reaches_quiet page4k (tableReady page4k)
    (fun _ _ _ _ => ()) () [.spawn 0, .call 0 (.malloc 20000), .step 0 true, .step 0 true]
    (fun w => w.sys.store.os.mapped 4096 == false &&
      (w.sys.store.os.regions (regionBase 4096)).isNone &&
      w.sys.store.registry.slots != 0 && w.sys.store.registry.cells 1 == emptySlot &&
      w.sys.store.registry.cap == 1024)
    (fun _ _ => tableReady_ok) (by decide +kernel)
  simp only [Bool.and_eq_true, beq_iff_eq, bne_iff_ne, Option.isNone_iff_eq_none] at hcheck
  obtain ⟨⟨⟨⟨hfree, hnone⟩, hslots⟩, hempty⟩, hcap⟩ := hcheck
  obtain ⟨G, hinv⟩ := hrun.reachableBy.reachable.inv
  have hout := hinv.data.inv.regions.outside hfree
  refine ⟨w.sys, hrun.reachableBy.reachable, hout, hslots, ?_⟩
  refine (override_forwards_foreign page4k hrun.reachableBy.reachable
    (hrun.reachableBy.regionsListed.exact hidle) (by decide) hout).2.2 ?_ ?_ (by decide) true
  · rintro ⟨size, offset, hb, _⟩
    rw [hnone] at hb
    cases hb
  · exact fun hfull => hfull.2 ⟨1, by omega, hempty⟩

/-- Another allocator maps a page 1 MiB behind the base of a large region of
20480 bytes. When its page is freed through the override, `hm_free` is called,
which takes it for a pointer into the large region. -/
theorem override_claims_foreign : ∃ sys p, Reachable page4k sys ∧
    (∀ t, (sys.threads t).pc = .idle) ∧
    (∀ b, sys.store.registry.Holds b ↔ Has sys.store.os.regions Purpose.Tagged b) ∧
    sys.store.os.regions p = some ⟨4096, .foreign⟩ ∧ Outside sys.store.os.regions p ∧
    ours sys.store.registry p = some true ∧
    checkedFree true sys.store.registry p = some (.hmFree p) := by
  obtain ⟨w, hrun, hidle, hcheck⟩ := schedule_reaches_quiet page4k (tableReady page4k)
    (fun _ _ _ _ => ()) () [.spawn 0, .call 0 (.malloc 20000), .step 0 true, .step 0 true]
    (fun w => (List.range 4096).all (fun i => !w.sys.store.os.mapped (3298535931904 + i)) &&
      ours w.sys.store.registry 3298535931904 == some true)
    (fun _ _ => tableReady_ok) (by decide +kernel)
  simp only [Bool.and_eq_true, beq_iff_eq, List.all_eq_true, List.mem_range,
    Bool.not_eq_true'] at hcheck
  obtain ⟨hfree, hours⟩ := hcheck
  obtain ⟨G, hinv⟩ := hrun.reachableBy.reachable.inv
  have hstep : Step page4k w.sys (.foreignMap 3298535931904 4096) _ :=
    ⟨⟨by decide, by decide, by decide, fun x hlo hhi => by
      have := hfree (x - 3298535931904) (by omega)
      rwa [Nat.add_sub_cancel' hlo] at this⟩, rfl⟩
  have hreach := ReachableBy.step hrun.reachableBy hstep trivial
  have hregions : ∀ b, ((w.sys.store.os.rawMmap 3298535931904 4096).retain 3298535931904 4096
      .foreign).regions b = Function.update w.sys.store.os.regions 3298535931904
        (some ⟨4096, .foreign⟩) b := fun _ => rfl
  refine ⟨_, 3298535931904, hreach.reachable, hidle, hreach.regionsListed.exact hidle,
    (hregions _).trans (Function.update_self ..), ?_, hours,
    (RoutedHome.of_owns (by decide) hours true).free⟩
  rintro b r hb htag ⟨hle, hlt⟩
  have hb := (hregions b).symm.trans hb
  by_cases heq : b = 3298535931904
  · rw [heq, Function.update_self] at hb
    cases hb
    simp [Purpose.Tagged] at htag
  · rw [Function.update_of_ne heq] at hb
    have hmapped := hinv.data.inv.regions.mapped b r hb _ hle hlt
    rw [show w.sys.store.os.mapped 3298535931904 = false from hfree 0 (by decide)] at hmapped
    cases hmapped

end HMalloc
