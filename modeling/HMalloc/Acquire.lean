import HMalloc.Sweep

/-!
`central_acquire_page`: it takes a free page if there is one, sweeps the
abandoned pages if there is none, and maps a segment only if the sweep found
nothing. A sweep that reclaims a page always leaves one to take, although it
may unmap idle segments: the cache keeps the first of them.
-/

namespace HMalloc

open Bytes Linked

/-- What is assumed of the kernel when `map_segment` is called. -/
def MapOk (ps : PageSize) (o : Oracle) (s : Store) : Prop :=
  KernelOk ps o.mapping s.os segmentSize segmentSize ∧
    ∀ b os w r, osAllocAligned ps o.mapping s.os segmentSize segmentSize .small = (some b, os) →
      storeRegister ps o (initSegment { s with os := os } b) b = some (w, r) → w.ok

namespace Inv

variable {ps : PageSize} {s : Store} {G : Ghost}

/-- `map_segment`: it fails and changes nothing, or there is a new segment with
all its pages free. -/
theorem mapSegmentCall (h : Inv ps s G) (hav : s.central.avail = none) {o : Oracle}
    (hk : MapOk ps o s) {answer : Option Nat} {s' : Store}
    (hrun : HMalloc.mapSegment ps o s = some (answer, s')) :
    (answer = none ∧ s' = s) ∨
      ∃ b, answer = some b ∧ Inv ps s' (G.mapped b) ∧ ¬ IsSegment s.os.regions b ∧
        s'.central.avail = some b := by
  have hsize : segmentSize < 2 ^ 64 := by decide
  rcases osAllocAligned_spec ps .small hk.1 hsize hsize with hnone | ⟨b, os, hsome, hm, hdvd⟩
  · simp only [HMalloc.mapSegment, hnone, Option.some.injEq, Prod.mk.injEq] at hrun
    exact Or.inl ⟨hrun.1.symm, hrun.2.symm⟩
  · simp only [HMalloc.mapSegment, hsome, Option.bind_eq_bind, Option.bind_eq_some_iff,
      Option.pure_def, Option.some.injEq, Prod.mk.injEq] at hrun
    obtain ⟨⟨w, r⟩, hreg, rfl, rfl⟩ := hrun
    have hinv := h.mapSegment hm hdvd hav
    have hinit := initSegment_spec (s := { s with os := os }) b hav
    refine Or.inr ⟨b, rfl, (hinv.register hreg (hk.2 b os w r hsome hreg)).1, ?_, ?_⟩
    · unfold IsSegment
      rw [hm.unmapped_before h.regions]
      simp
    · change (initSegment { s with os := os } b).central.avail = some b
      rw [hinit.central]

end Inv

theorem mapSegment_ends {ps : PageSize} {s : Store} (hav : s.central.avail = none) {o : Oracle}
    (hk : MapOk ps o s) (hspare : s.registry.Spare) :
    ∃ answer s', HMalloc.mapSegment ps o s = some (answer, s') := by
  have hsize : segmentSize < 2 ^ 64 := by decide
  rcases osAllocAligned_spec ps .small hk.1 hsize hsize with hnone | ⟨b, os, hsome, hm, hdvd⟩
  · exact ⟨none, s, by simp [HMalloc.mapSegment, hnone]⟩
  · have hinit := initSegment_spec (s := { s with os := os }) b hav
    have hregistry : (initSegment { s with os := os } b).registry = s.registry := by
      rw [hinit.rest]
    have hkey : IsKey b := ⟨hm.ne_zero, hdvd, by have := hm.bound; have := hm.size_pos; omega⟩
    obtain ⟨w, r, hreg⟩ := regionRegister_ends (osTables ps) (osTables_refusesEmpty ps)
      hspare.inv hspare.hasRoom ⟨(initSegment { s with os := os } b).os, o.tables, True⟩ hkey
    have hrun : storeRegister ps o (initSegment { s with os := os } b) b = some (w, r) := by
      rw [storeRegister, hregistry]
      exact hreg
    exact ⟨some b, _, by simp [HMalloc.mapSegment, hsome, hrun]; rfl⟩

/-- Page `pg` was the first of its segment's free list in `s` and is gone from
it in `s'`. -/
def TakenFrom (s s' : Store) (pg : PageId) : Prop :=
  ∃ rest, Chain s.page.next (s.seg.freeList pg.seg) (pg :: rest) ∧ pg ∉ rest ∧
    Chain s'.page.next (s'.seg.freeList pg.seg) rest

/-- What is assumed of the kernel in a call of `central_acquire_page`. -/
def AcquireOk (ps : PageSize) (o : Oracle) (frees : Nat → List Nat) (s : Store) : Prop :=
  ∀ s₁ log, sweepAbandoned frees s = some (s₁, log) → MapOk ps o s₁

theorem Inv.takenFrom {ps : PageSize} {s s' : Store} {G : Ghost} (h : Inv ps s G) {pg : PageId}
    {rest : List PageId} {k c : Nat} (hpg : IsPage (IsSegment s.os.regions) pg)
    (hpool : G.pool pg.seg = pg :: rest) (h' : Inv ps s' (G.take pg.seg pg rest k c))
    (hregions : s'.os.regions = s.os.regions) : TakenFrom s s' pg := by
  have hchain := h.lists.chains.pool pg.seg hpg.1
  have hnod := h.pool_nodup hpg.1
  rw [hpool] at hchain hnod
  have hchain' := h'.lists.chains.pool pg.seg (by rw [hregions]; exact hpg.1)
  have hrest : (G.take pg.seg pg rest k c).pool pg.seg = rest := Function.update_self _ _ _
  rw [hrest] at hchain'
  exact ⟨rest, hchain, (List.nodup_cons.mp hnod).1, hchain'⟩

/-- What `central_acquire_page` has done. -/
structure AcquireFacts (s : Store) (frees : Nat → List Nat) (owner cls : Nat) (r : Acquired)
    (s' : Store) : Prop where
  /-- A segment is asked for only when there is no free page and no abandoned
  page was free at its visit. -/
  mapped : r.mapped ≠ none → s.central.avail = none ∧
    ∃ s₁ log, r.swept = some (s₁, log) ∧ ∀ e ∈ log, e.kept = true
  /-- A null result: the mapping failed and the central heap is as before. -/
  null : r.page = none → r.mapped = some none ∧ SameCentral s s' ∧
    ∀ abandoned, Chain s.page.next s.central.abandoned abandoned →
      Chain s'.page.next s'.central.abandoned abandoned ∧
        ∀ q, q ∉ abandoned → s'.page.localRow q = s.page.localRow q
  /-- A page: taken from a pool once, set up as asked. -/
  page : ∀ pg, r.page = some pg → FreshPage s' pg owner cls (classToSize cls) ∧
    ∃ s₂, TakenFrom s₂ s' pg ∧ (r.swept = none → s₂ = s) ∧
      (∀ s₁ log, r.swept = some (s₁, log) → r.mapped = none → s₂ = s₁) ∧
      ∀ b, r.mapped = some (some b) → pg.seg = b ∧ ¬ IsSegment s.os.regions b
  /-- A sweep that reclaims a page leaves a segment available. -/
  swept : ∀ s₁ log, r.swept = some (s₁, log) → sweepAbandoned frees s = some (s₁, log) ∧
    ((∃ e ∈ log, e.kept = false) → s₁.central.avail ≠ none)

namespace Inv

variable {ps : PageSize} {s : Store} {G : Ghost}

theorem avail_ne_none (h : Inv ps s G) (hav : G.avail ≠ []) : s.central.avail ≠ none :=
  fun hnone => hav (h.avail_nil hnone)

/-- The last part of `central_acquire_page`. -/
theorem takeSettled (h : Inv ps s G) (hlimbo : G.limbo = none) (hdying : G.dying = none)
    (hav : s.central.avail ≠ none) {c : Nat} (hc : c < numSizeClasses) (k : Nat) :
    ∃ pg s', takePage s k c (classToSize c) = some (pg, s') ∧ Settled ps s' ∧
      FreshPage s' pg k c (classToSize c) ∧ TakenFrom s s' pg ∧
      s'.os.regions = s.os.regions ∧ pg.seg ∈ G.avail := by
  obtain ⟨pg, rest, s', htake, hloc, hpg, hpool, hfresh, hinv, hmove⟩ := h.take hav hc k
  refine ⟨pg, s', htake, ⟨_, hinv, hlimbo, hdying⟩, hfresh,
    h.takenFrom hpg hpool hinv hmove.regions, hmove.regions, ?_⟩
  refine (h.lists.places.avail pg.seg).mpr ⟨?_, by rw [hpool]; simp⟩
  exact (h.lists.places.segments pg.seg).mpr ⟨hpg.1, by rw [hdying]; simp⟩

theorem acquire (h : Inv ps s G) (hlimbo : G.limbo = none) (hdying : G.dying = none)
    {o : Oracle} {frees : Nat → List Nat} (hk : AcquireOk ps o frees s) {cls : Nat}
    (hcls : cls < numSizeClasses) (owner : Nat) {r : Acquired} {s' : Store}
    (hrun : centralAcquirePage ps o frees s owner cls (classToSize cls) = some (r, s')) :
    Settled ps s' ∧ AcquireFacts s frees owner cls r s' := by
  unfold centralAcquirePage at hrun
  by_cases hav : s.central.avail ≠ none
  · obtain ⟨pg, s₂, htake, hsettled, hfresh, htaken, _, _⟩ :=
      h.takeSettled hlimbo hdying hav hcls owner
    rw [if_pos hav] at hrun
    simp only [htake, Option.bind_eq_bind, Option.bind_some, Option.pure_def, Option.some.injEq,
      Prod.mk.injEq] at hrun
    obtain ⟨rfl, rfl⟩ := hrun
    refine ⟨hsettled, by simp, by simp, ?_, by simp⟩
    rintro pg' ⟨⟩
    exact ⟨hfresh, s, htaken, by simp, by simp, by simp⟩
  · rw [if_neg hav] at hrun
    rw [not_not] at hav
    simp only [Option.bind_eq_bind, Option.bind_eq_some_iff] at hrun
    obtain ⟨⟨s₁, log⟩, hsweep, hrun⟩ := hrun
    obtain ⟨G₁, hres⟩ := (sweepAbandoned_spec frees h hlimbo hdying).2 s₁ log hsweep
    have hswept : ∀ s₂ log₂, some (s₁, log) = some (s₂, log₂) →
        sweepAbandoned frees s = some (s₂, log₂) ∧
          ((∃ e ∈ log₂, e.kept = false) → s₂.central.avail ≠ none) := by
      rintro s₂ log₂ ⟨⟩
      exact ⟨hsweep, fun hsome => hres.inv.avail_ne_none (hres.avail hsome)⟩
    by_cases hav₁ : s₁.central.avail ≠ none
    · obtain ⟨pg, s₂, htake, hsettled, hfresh, htaken, _, _⟩ :=
        hres.inv.takeSettled hres.limbo hres.dying hav₁ hcls owner
      rw [if_pos hav₁] at hrun
      simp only [htake, Option.bind_some, Option.pure_def, Option.some.injEq, Prod.mk.injEq] at hrun
      obtain ⟨rfl, rfl⟩ := hrun
      refine ⟨hsettled, by simp, by simp, ?_, hswept⟩
      rintro pg' ⟨⟩
      refine ⟨hfresh, s₁, htaken, by simp, ?_, by simp⟩
      rintro s₃ log₃ ⟨⟩ _
      rfl
    · rw [if_neg hav₁] at hrun
      rw [not_not] at hav₁
      -- Nothing was reclaimed, so the sweep has changed no list.
      have hall : ∀ e ∈ log, e.kept = true := by
        by_contra hnot
        push Not at hnot
        obtain ⟨e, he, hkept⟩ := hnot
        exact (hswept s₁ log rfl).2 ⟨e, he, by simpa using hkept⟩ hav₁
      obtain ⟨_, hsame, hlocal⟩ := hres.same hall
      simp only [Option.bind_eq_some_iff] at hrun
      obtain ⟨⟨answer, s₂⟩, hmap, hrun⟩ := hrun
      rcases hres.inv.mapSegmentCall hav₁ (hk s₁ log hsweep) hmap with
        ⟨rfl, rfl⟩ | ⟨b, rfl, hinv₂, hnew, hav₂⟩
      · simp only [Option.pure_def, Option.some.injEq, Prod.mk.injEq] at hrun
        obtain ⟨rfl, rfl⟩ := hrun
        refine ⟨⟨G₁, hres.inv, hres.limbo, hres.dying⟩, fun _ => ⟨hav, s₂, log, rfl, hall⟩, ?_,
          by simp, hswept⟩
        refine fun _ => ⟨rfl, hsame, ?_⟩
        intro abandoned hchain
        have heq : abandoned = G.abandoned := hchain.unique h.lists.chains.abandoned
        rw [hsame.central, hsame.next]
        exact ⟨hchain, fun q hq => hlocal q (heq ▸ hq)⟩
      · obtain ⟨pg, s₃, htake, hsettled, hfresh, htaken, _, hseg⟩ :=
          hinv₂.takeSettled hres.limbo hres.dying (by rw [hav₂]; simp) hcls owner
        simp only [htake, Option.bind_some, Option.pure_def, Option.some.injEq,
          Prod.mk.injEq] at hrun
        obtain ⟨rfl, rfl⟩ := hrun
        refine ⟨hsettled, fun _ => ⟨hav, s₁, log, rfl, hall⟩, by simp, ?_, hswept⟩
        rintro pg' ⟨⟩
        refine ⟨hfresh, s₂, htaken, by simp, by simp, ?_⟩
        rintro b' ⟨⟩
        refine ⟨?_, ?_⟩
        · have hlist : (G₁.mapped b).avail = [b] := by
            change b :: G₁.avail = [b]
            rw [hres.inv.avail_nil hav₁]
          rw [hlist] at hseg
          simpa using hseg
        · rw [← hsame.regions]
          exact hnew

/-- `central_acquire_page` returns if the registry has an empty slot. -/
theorem acquire_ends (h : Inv ps s G) (hlimbo : G.limbo = none) (hdying : G.dying = none)
    {o : Oracle} {frees : Nat → List Nat} (hk : AcquireOk ps o frees s) {cls : Nat}
    (hcls : cls < numSizeClasses) (owner : Nat) (hspare : s.registry.Spare) :
    (centralAcquirePage ps o frees s owner cls (classToSize cls)).isSome := by
  unfold centralAcquirePage
  by_cases hav : s.central.avail ≠ none
  · obtain ⟨pg, s₂, htake, _⟩ := h.takeSettled hlimbo hdying hav hcls owner
    simp [hav, htake]
  · rw [if_neg hav]
    obtain ⟨hends, hresult⟩ := sweepAbandoned_spec frees h hlimbo hdying
    obtain ⟨⟨s₁, log⟩, hsweep⟩ := Option.isSome_iff_exists.mp (hends hspare)
    obtain ⟨G₁, hres⟩ := hresult s₁ log hsweep
    simp only [hsweep, Option.bind_eq_bind, Option.bind_some]
    by_cases hav₁ : s₁.central.avail ≠ none
    · obtain ⟨pg, s₂, htake, _⟩ := hres.inv.takeSettled hres.limbo hres.dying hav₁ hcls owner
      simp [hav₁, htake]
    · rw [if_neg hav₁]
      rw [not_not] at hav₁
      have hall : ∀ e ∈ log, e.kept = true := by
        by_contra hnot
        push Not at hnot
        obtain ⟨e, he, hkept⟩ := hnot
        exact hres.inv.avail_ne_none (hres.avail ⟨e, he, by simpa using hkept⟩) hav₁
      have hspare₁ : s₁.registry.Spare := by
        rw [(hres.same hall).2.1.registry]
        exact hspare
      obtain ⟨answer, s₂, hmap⟩ := mapSegment_ends hav₁ (hk s₁ log hsweep) hspare₁
      simp only [hmap, Option.bind_some]
      rcases hres.inv.mapSegmentCall hav₁ (hk s₁ log hsweep) hmap with
        ⟨rfl, rfl⟩ | ⟨b, rfl, hinv₂, _, hav₂⟩
      · rfl
      · obtain ⟨pg, s₃, htake, _⟩ := hinv₂.takeSettled hres.limbo hres.dying
          (by rw [hav₂]; simp) hcls owner
        simp [htake]

end Inv

end HMalloc
