import HMalloc.Safety
import HMalloc.Schedule

/-!
The contract of live pointers, in every reachable state of the system: no two
of them overlap, each lies in one mapped region behind its metadata, the mask
and the shift recover where it was carved from for as long as it is live, and
no step of the allocator touches its bytes.
-/

namespace HMalloc

open Bytes Linked

/-- The range of `p` lies inside one mapped region and outside its metadata: page
0 of a segment, the header of a large region. -/
def InsideRegion (s : Store) (p : Nat) : Prop :=
  ∃ b r, s.os.regions b = some r ∧ p + usableSize s p ≤ b + r.size ∧
    (∀ x, b ≤ x → x < b + r.size → s.os.mapped x = true) ∧
    (r.purpose = .small ∧ b + pageSize ≤ p ∨
      (∃ offset, r.purpose = .large offset) ∧ b + largeOffset ≤ p)

/-- What the mask and the shift recover of a pointer is where it was carved
from. -/
def Recovers (s : Store) (p : Nat) (g : Grant) : Prop :=
  g.size ≤ usableSize s p ∧
    match g.origin with
    | .small pg i =>
        IsPage (IsSegment s.os.regions) pg ∧ regionBase p = pg.seg ∧ isLarge s.os.mem p = false ∧
          pageOf p = pg ∧ p = s.page.area pg + i * s.page.blockSize pg ∧
          p + s.page.blockSize pg ≤ s.page.area pg + pageSize
    | .large b =>
        ∃ size offset, s.os.regions b = some ⟨size, .large offset⟩ ∧ regionBase p = b ∧
          isLarge s.os.mem p = true ∧ p = b + offset ∧ offset < segmentSize

/-- The states reached from `sys` while `p` is live. -/
inductive WhileLive (ps : PageSize) (p : Nat) (sys : System) : System → Prop where
  | refl : WhileLive ps p sys sys
  | step {sys' sys'' : System} {l : Label} (h : WhileLive ps p sys sys')
      (hstep : Step ps sys' l sys'') (hlive : ∃ g, Live sys''.store p g) : WhileLive ps p sys sys''

section Pointers

variable {ps : PageSize} {s : Store} {G : Ghost} {p : Nat} {g : Grant} {sys sys' : System}

theorem Inv.insideRegion (h : Inv ps s G) (hg : s.grants p = some g) : InsideRegion s p := by
  obtain ⟨b, r, hreg, hle, _, hcase⟩ := h.grant_in_region hg
  refine ⟨b, r, hreg, by rw [h.usableSize_eq hg]; exact hle, h.regions.mapped b r hreg, ?_⟩
  rcases hcase with hsmall | ⟨offset, hlarge, rfl, hoffset⟩
  · exact Or.inl hsmall
  · exact Or.inr ⟨⟨offset, hlarge⟩, by omega⟩

/-- No two live allocations overlap. In every state of every run, for any two
distinct live pointers, the ranges from the pointer to its usable size are
disjoint, and each lies inside one mapped region behind its metadata. -/
theorem live_pointers_disjoint (ps : PageSize) {sys : System} (hr : Reachable ps sys) {p : Nat}
    {g : Grant} (hp : Live sys.store p g) :
    InsideRegion sys.store p ∧
    ∀ q g', Live sys.store q g' → p ≠ q →
      p + usableSize sys.store p ≤ q ∨ q + usableSize sys.store q ≤ p := by
  obtain ⟨G, hinv⟩ := hr.inv
  refine ⟨hinv.data.inv.insideRegion hp.1, ?_⟩
  intro q g' hq hne
  rw [hinv.data.inv.usableSize_eq hp.1, hinv.data.inv.usableSize_eq hq.1]
  exact hinv.data.inv.grants_disjoint hp.1 hq.1 hne

/-- The first two blocks of a page. -/
theorem live_pointers_disjoint_two : ∃ sys p q g g', Reachable page4k sys ∧ Live sys.store p g ∧
    Live sys.store q g' ∧ p ≠ q ∧
    (p + usableSize sys.store p ≤ q ∨ q + usableSize sys.store q ≤ p) := by
  obtain ⟨sys, hr, hcheck⟩ := schedule_reachable page4k
    (firstMalloc 0 16 ++ [.call 0 (.malloc 16), .step 0 false])
    (fun sys => sys.store.grants (2 ^ 43 + 63 * pageSize) ==
        some ⟨16, 16, .client, .small ⟨2 ^ 43, 63⟩ 0⟩ &&
      sys.store.grants (2 ^ 43 + 63 * pageSize + 16) ==
        some ⟨16, 16, .client, .small ⟨2 ^ 43, 63⟩ 1⟩) (by decide +kernel)
  simp only [Bool.and_eq_true, beq_iff_eq] at hcheck
  have hp : Live sys.store _ _ := ⟨hcheck.1, Or.inl rfl⟩
  have hq : Live sys.store _ _ := ⟨hcheck.2, Or.inl rfl⟩
  exact ⟨sys, _, _, _, _, hr, hp, hq, by decide,
    (live_pointers_disjoint page4k hr hp).2 _ _ hq (by decide)⟩

theorem Inv.recovers (h : Inv ps s G) (hg : s.grants p = some g) : Recovers s p g := by
  have husable := h.usableSize_eq hg
  cases ho : g.origin with
  | small pg i =>
      obtain ⟨hbase, htag, hpage⟩ := h.decode_small hg ho
      have hs := h.smallGrant hg ho
      have hbounds := hs.bounds
      have harea : s.page.area pg = pg.start := hs.area
      refine ⟨by rw [husable]; exact hs.size, ?_⟩
      rw [ho]
      refine ⟨hs.page, hbase, htag, hpage, hs.block, ?_⟩
      rw [harea, ← show g.usable = s.page.blockSize pg from hs.usable]
      exact hbounds.2
  | large b =>
      obtain ⟨hbase, htag⟩ := h.decode_large hg ho
      obtain ⟨size, offset, hreg, hp, _, hsize⟩ := h.grants.large p g b hg ho
      obtain ⟨_, _, _, hlt, _⟩ := h.regions.large b size offset hreg
      refine ⟨by rw [husable]; exact hsize, ?_⟩
      rw [ho]
      exact ⟨size, offset, hreg, hbase, htag, hp, hlt⟩

/-- A step keeps the origin and the usable size of a pointer. -/
theorem SysInv.same_grant (h : SysInv ps sys G) {l : Label} (hstep : Step ps sys l sys')
    (hg : sys.store.grants p = some g) {g' : Grant} (hg' : sys'.store.grants p = some g') :
    g'.origin = g.origin ∧ g'.usable = g.usable := by
  obtain ⟨G', hchange⟩ := h.change hstep
  cases hchange with
  | thread _ _ hout => exact hout.frame.same p g g' hg hg'
  | client _ _ _ _ _ _ hout => exact hout.frame.same p g g' hg hg'
  | world =>
      cases hg.symm.trans hg'
      exact ⟨rfl, rfl⟩

theorem WhileLive.same (h : WhileLive ps p sys sys') (hr : Reachable ps sys)
    (hlive : Live sys.store p g) : Reachable ps sys' ∧ ∃ g', Live sys'.store p g' ∧
      g'.origin = g.origin ∧ g'.usable = g.usable := by
  induction h with
  | refl => exact ⟨hr, g, hlive, rfl, rfl⟩
  | step _ hstep hlive' ih =>
      obtain ⟨hr', g', hg', horigin, husable⟩ := ih
      obtain ⟨g'', hg''⟩ := hlive'
      obtain ⟨G, hinv⟩ := hr'.inv
      obtain ⟨ho, hu⟩ := hinv.same_grant hstep hg'.1 hg''.1
      exact ⟨hr'.step hstep, g'', hg'', ho.trans horigin, hu.trans husable⟩

/-- Metadata recovery is exact and stable. In every state of every run, the
region, the kind and the page or the offset that are computed from a live pointer
are those it was carved from, its block lies in the page, and its usable size is
at least the size asked for; and for as long as it is live, whatever any thread
does, all this stays so, with the same origin and the same usable size. -/
theorem metadata_recovered (ps : PageSize) {sys : System} (hr : Reachable ps sys) {p : Nat}
    {g : Grant} (hp : Live sys.store p g) :
    Recovers sys.store p g ∧
    ∀ sys', WhileLive ps p sys sys' → ∃ g', Live sys'.store p g' ∧ g'.origin = g.origin ∧
      Recovers sys'.store p g' ∧ usableSize sys'.store p = usableSize sys.store p := by
  obtain ⟨G, hinv⟩ := hr.inv
  refine ⟨hinv.data.inv.recovers hp.1, ?_⟩
  intro sys' hwhile
  obtain ⟨hr', g', hg', horigin, husable⟩ := hwhile.same hr hp
  obtain ⟨G', hinv'⟩ := hr'.inv
  refine ⟨g', hg', horigin, hinv'.data.inv.recovers hg'.1, ?_⟩
  rw [hinv.data.inv.usableSize_eq hp.1, hinv'.data.inv.usableSize_eq hg'.1, husable]

/-- The first block of a thread, decoded while the thread exits. -/
theorem metadata_recovered_first : ∃ sys p g, Reachable page4k sys ∧ Live sys.store p g ∧
    Recovers sys.store p g := by
  obtain ⟨sys, hr, hcheck⟩ := schedule_reachable page4k
    (firstMalloc 0 16 ++ [.guardExit 0, .step 0 false, .step 0 false])
    (fun sys => sys.store.grants (2 ^ 43 + 63 * pageSize) ==
      some ⟨16, 16, .client, .small ⟨2 ^ 43, 63⟩ 0⟩) (by decide +kernel)
  have hp : Live sys.store _ _ := ⟨eq_of_beq hcheck, Or.inl rfl⟩
  exact ⟨sys, _, _, hr, hp, (metadata_recovered page4k hr hp).1⟩

/-- The allocator never writes into a live allocation. In every run, a step of any
thread changes no byte from a live pointer to its usable size and leaves them all
mapped. -/
theorem live_bytes_kept (ps : PageSize) {sys sys' : System} (hr : Reachable ps sys) {l : Label}
    (hl : l.thread ≠ none) (hstep : Step ps sys l sys') {p : Nat} {g : Grant}
    (hp : Live sys.store p g) :
    ∀ x, p ≤ x → x < p + usableSize sys.store p →
      sys'.store.os.mem x = sys.store.os.mem x ∧ sys'.store.os.mapped x = true := by
  obtain ⟨G, hinv⟩ := hr.inv
  obtain ⟨G', hinv'⟩ := (hr.step hstep).inv
  have hholder : ∀ t, g.holder ≠ .freeing t ∧ g.holder ≠ .fresh t := by
    intro t
    rcases hp.2 with hh | ⟨u, hh⟩ <;> rw [hh] <;> simp
  have hkeeps : (∃ g', sys'.store.grants p = some g') ∧
      ∀ x, p ≤ x → x < p + g.usable → sys'.store.os.mem x = sys.store.os.mem x := by
    obtain ⟨G₁, hchange⟩ := hinv.change hstep
    cases hchange with
    | @thread t _ _ _ _ _ _ hout =>
        exact ⟨hout.frame.kept p g hp.1 (hholder t).1,
          hout.frame.bytes p g hp.1 (hholder t).1 (hholder t).2⟩
    | @client _ t _ _ _ _ _ _ _ hkept hout =>
        exact ⟨hkept p g hp.1, hout.frame.bytes p g hp.1 (hholder t).1 (hholder t).2⟩
    | world _ _ hnone => exact absurd hnone hl
  obtain ⟨⟨g', hg'⟩, hbytes⟩ := hkeeps
  have husable := hinv.data.inv.usableSize_eq hp.1
  obtain ⟨b, r, hreg, hbase, hle⟩ := hinv'.data.inv.grant_within hg'
  have hsame := (hinv.same_grant hstep hp.1 hg').2
  intro x hlo hhi
  rw [husable] at hhi
  exact ⟨hbytes x hlo hhi, hinv'.data.inv.regions.mapped b r hreg x (by omega) (by omega)⟩

/-- Another block of its page is taken while the first one is live. -/
theorem live_bytes_kept_second : ∃ sys sys' o p g, Reachable page4k sys ∧
    Step page4k sys (.step 0 o) sys' ∧ Live sys.store p g ∧
    ∀ x, p ≤ x → x < p + usableSize sys.store p →
      sys'.store.os.mem x = sys.store.os.mem x ∧ sys'.store.os.mapped x = true := by
  have hrun : splitSchedule page4k
      (fun w a => a == .step 0 false && w.sys.store.grants (2 ^ 43 + 63 * pageSize) ==
        some ⟨16, 16, .client, .small ⟨2 ^ 43, 63⟩ 0⟩)
      (firstMalloc 0 16 ++ [.call 0 (.malloc 16)]) [.step 0 false]
      (fun sys₀ sys => (sys₀.threads 0).pc != (sys.threads 0).pc) = true := by
    decide +kernel
  obtain ⟨sys₀, sys', hr, hlast, hcheck⟩ := splitSchedule_run
    (R := fun sys₀ sys => Reachable page4k sys₀ → Reachable page4k sys ∧ (sys = sys₀ ∨
      ∃ sys₁ o, Reachable page4k sys₁ ∧ Step page4k sys₁ (.step 0 o) sys ∧
        sys₁.store.grants (2 ^ 43 + 63 * pageSize) =
          some ⟨16, 16, .client, .small ⟨2 ^ 43, 63⟩ 0⟩))
    (fun sys hr => ⟨hr, Or.inl rfl⟩)
    (by
      intro sys₀ w a sys hR hok hstep hr
      simp only [Bool.and_eq_true, beq_iff_eq] at hok
      obtain ⟨rfl, hg⟩ := hok
      exact ⟨(hR hr).1.step hstep, Or.inr ⟨w.sys, _, (hR hr).1, hstep, hg⟩⟩) hrun
  rcases (hlast hr).2 with rfl | ⟨sys, o, hr', hstep, hg⟩
  · simp at hcheck
  · have hp : Live sys.store _ _ := ⟨hg, Or.inl rfl⟩
    exact ⟨sys, sys', o, _, _, hr', hstep, hp,
      live_bytes_kept page4k hr' (by simp [Label.thread]) hstep hp⟩

end Pointers

end HMalloc
