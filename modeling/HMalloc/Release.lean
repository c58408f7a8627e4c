import HMalloc.PoolReturn

/-!
Where pages come back from: a heap releases a page without live blocks
(`central_release_page`) or abandons a page with some (`central_abandon_page`),
and the sweep takes an abandoned page off its list once its last block has come
back.
-/

namespace HMalloc

open Bytes Linked

/-- The class lists without page `pg` of class `c` of heap `k`. -/
def Ghost.clsWithout (G : Ghost) (k c : Nat) (pg : PageId) : Nat → Nat → List PageId :=
  Function.update G.cls k (Function.update (G.cls k) c ((G.cls k c).filter (· ≠ pg)))

theorem Ghost.mem_clsWithout {S : Nat → Prop} {G : Ghost} (h : PlacesOk S G) {k c : Nat}
    {pg : PageId} (hpg : pg ∈ G.cls k c) (k' c' : Nat) (q : PageId) :
    q ∈ G.clsWithout k c pg k' c' ↔ q ≠ pg ∧ q ∈ G.cls k' c' := by
  have hloc := ((h.cls k c pg).mp hpg).2
  have hother : ∀ k' c', q = pg → q ∈ G.cls k' c' → k' = k ∧ c' = c := by
    rintro k' c' rfl hmem
    have := ((h.cls k' c' q).mp hmem).2
    rw [hloc] at this
    cases this
    exact ⟨rfl, rfl⟩
  unfold Ghost.clsWithout
  by_cases hk : k' = k
  · subst hk
    rw [Function.update_self]
    by_cases hc : c' = c
    · subst hc
      simp [and_comm]
    · rw [Function.update_of_ne hc]
      exact ⟨fun hmem => ⟨fun heq => hc (hother k' c' heq hmem).2, hmem⟩, fun hmem => hmem.2⟩
  · rw [Function.update_of_ne hk]
    exact ⟨fun hmem => ⟨fun heq => hk (hother k' c' heq hmem).1, hmem⟩, fun hmem => hmem.2⟩

/-- A heap's page without live blocks leaves its class list. -/
def Ghost.release (G : Ghost) (k c : Nat) (pg : PageId) : Ghost :=
  { G with
    page := Function.update G.page pg ⟨[], [], [], .limbo⟩
    cls := G.clsWithout k c pg
    limbo := some pg }

/-- A heap's page moves to the abandoned list. -/
def Ghost.abandon (G : Ghost) (k c : Nat) (pg : PageId) : Ghost :=
  { G with
    page := Function.update G.page pg { G.page pg with loc := .abandoned }
    cls := G.clsWithout k c pg
    abandoned := pg :: G.abandoned }

/-- An abandoned page without live blocks leaves its list. -/
def Ghost.reclaim (G : Ghost) (pg : PageId) : Ghost :=
  { G with
    page := Function.update G.page pg ⟨[], [], [], .limbo⟩
    abandoned := G.abandoned.filter (· ≠ pg)
    limbo := some pg }

section Places

variable {S : Nat → Prop} {G : Ghost} {pg : PageId}

theorem PlacesOk.release (h : PlacesOk S G) (hlimbo : G.limbo = none) {k c : Nat}
    (hpg : pg ∈ G.cls k c) : PlacesOk S (G.release k c pg) := by
  obtain ⟨hp, hloc⟩ := (h.cls k c pg).mp hpg
  refine h.move hp rfl ?_ ?_ ?_ ?_ rfl rfl h.avail (fun _ _ => rfl)
  · intro b q
    by_cases hq : q = pg
    · subst hq
      simp [Ghost.release, h.pool, hloc]
    · simp [Ghost.release, hq]
  · intro q
    by_cases hq : q = pg
    · subst hq
      simp [Ghost.release, h.abandoned, hloc]
    · simp [Ghost.release, hq]
  · intro k' c' q
    change q ∈ G.clsWithout k c pg k' c' ↔ _
    rw [Ghost.mem_clsWithout h hpg]
    by_cases hq : q = pg
    · simp [hq]
    · simp [hq]
  · intro q
    by_cases hq : q = pg
    · simp [Ghost.release, hq]
    · have : pg ≠ q := fun heq => hq heq.symm
      simp [Ghost.release, hq, this, hlimbo]

theorem PlacesOk.abandon (h : PlacesOk S G) {k c : Nat} (hpg : pg ∈ G.cls k c) :
    PlacesOk S (G.abandon k c pg) := by
  obtain ⟨hp, hloc⟩ := (h.cls k c pg).mp hpg
  refine h.move hp rfl ?_ ?_ ?_ ?_ rfl rfl h.avail (fun _ _ => rfl)
  · intro b q
    by_cases hq : q = pg
    · subst hq
      simp [Ghost.abandon, h.pool, hloc]
    · simp [Ghost.abandon, hq]
  · intro q
    by_cases hq : q = pg
    · simp [Ghost.abandon, hq]
    · simp [Ghost.abandon, hq]
  · intro k' c' q
    change q ∈ G.clsWithout k c pg k' c' ↔ _
    rw [Ghost.mem_clsWithout h hpg]
    by_cases hq : q = pg
    · simp [hq]
    · simp [hq]
  · intro q
    by_cases hq : q = pg
    · subst hq
      simp [Ghost.abandon, h.limbo, hloc]
    · simp [Ghost.abandon, hq]

theorem PlacesOk.reclaim (h : PlacesOk S G) (hlimbo : G.limbo = none) (hpg : pg ∈ G.abandoned) :
    PlacesOk S (G.reclaim pg) := by
  obtain ⟨hp, hloc⟩ := (h.abandoned pg).mp hpg
  refine h.move hp rfl ?_ ?_ ?_ ?_ rfl rfl h.avail (fun _ _ => rfl)
  · intro b q
    by_cases hq : q = pg
    · subst hq
      simp [Ghost.reclaim, h.pool, hloc]
    · simp [Ghost.reclaim, hq]
  · intro q
    by_cases hq : q = pg
    · simp [Ghost.reclaim, hq]
    · simp [Ghost.reclaim, hq]
  · intro k c q
    by_cases hq : q = pg
    · subst hq
      simp [Ghost.reclaim, h.cls, hloc]
    · simp [Ghost.reclaim, hq]
  · intro q
    by_cases hq : q = pg
    · simp [Ghost.reclaim, hq]
    · have : pg ≠ q := fun heq => hq heq.symm
      simp [Ghost.reclaim, hq, this, hlimbo]

end Places

/-- A page in service whose `used` is zero has all its blocks on the local
list. -/
theorem InService.vacant {mem : Mem} {v : PageState} {g : PageGhost} (h : InService mem v g)
    (hused : v.used = 0) : g.remote = [] ∧ g.out = [] ∧ v.threadFree = 0 := by
  have hcount := h.used
  rw [hused] at hcount
  have hremote : g.remote = [] := List.eq_nil_of_length_eq_zero (by omega)
  have hout : g.out = [] := List.eq_nil_of_length_eq_zero (by omega)
  refine ⟨hremote, hout, ?_⟩
  have hchain := h.remote
  rw [hremote] at hchain
  exact ptr_eq_none.mp (chain_nil.mp hchain)

namespace Inv

variable {ps : PageSize} {s : Store} {G : Ghost} {pg : PageId}

/-- A held page is counted in `pages_in_use`. -/
theorem pagesInUse_pos (h : Inv ps s G) (hlimbo : G.limbo = none) (hdying : G.dying = none)
    {k c : Nat} (hpg : pg ∈ G.cls k c) :
    0 < s.central.pagesInUse ∧ s.central.pagesInUse < 2 ^ 64 ∧
      s.central.abandonedCount + 1 < 2 ^ 64 := by
  obtain ⟨hp, hloc⟩ := (h.lists.places.cls k c pg).mp hpg
  have hcounted := h.lists.places.counted h.segments_nodup (fun b hb => h.pool_nodup hb)
    h.lists.chains.abandoned.nodup hdying hp (by simp [hloc]) (by simp [hloc])
  have hc := h.lists.counters
  have htotal := hc.total
  have hbound := h.segments_bound
  have h1 := hc.numSegments
  have h2 := hc.freePages
  have h3 := hc.abandonedCount
  have husable : usablePagesPerSegment = 63 := by decide
  rw [hlimbo, husable] at htotal
  rw [husable] at hcounted
  simp only [Option.toList_none, List.length_nil] at htotal
  omega

/-- The first assignment of `central_release_page`. -/
theorem release (h : Inv ps s G) (hlimbo : G.limbo = none) (hdying : G.dying = none) {k c : Nat}
    (hpg : pg ∈ G.cls k c) (hused : s.page.used pg = 0) :
    Inv ps { s with central := { s.central with
      pagesInUse := Word.sub 64 s.central.pagesInUse 1 } } (G.release k c pg) := by
  obtain ⟨hp, hloc⟩ := (h.lists.places.cls k c pg).mp hpg
  obtain ⟨hpos, hlt, _⟩ := h.pagesInUse_pos hlimbo hdying hpg
  have hin := (h.pages pg hp).inService (by simp [hloc])
  obtain ⟨hremote, hout, htf⟩ := hin.vacant hused
  have hc := h.lists.counters
  have htotal := hc.total
  have hsub : Word.sub 64 s.central.pagesInUse 1 = s.central.pagesInUse - 1 :=
    Word.sub_eq hlt hpos
  refine h.movePage hp s.page s.seg _ (fun _ _ => rfl) ?_ ?_ ?_ (fun _ => rfl) ?_
  · refine ⟨(h.pages pg hp).area, ?_⟩
    simp only [Ghost.release, Function.update_self, LocOk]
    exact ⟨hused, htf, rfl, rfl, rfl⟩
  · intro q hq
    simp [Ghost.release, Function.update_of_ne hq]
  · simp [Ghost.release, hout]
  · refine ⟨h.lists.places.release hlimbo hpg, { h.lists.chains with }, ?_, h.lists.cache⟩
    refine { hc with total := ?_ }
    simp only [Ghost.release, Option.toList_some, List.length_cons, List.length_nil, hsub]
    rw [hlimbo] at htotal
    simp only [Option.toList_none, List.length_nil] at htotal
    omega

/-- `central_release_page` of a held page without live blocks. -/
theorem releasePage (h : Inv ps s G) (hlimbo : G.limbo = none) (hdying : G.dying = none)
    {k c : Nat} (hpg : pg ∈ G.cls k c) (hused : s.page.used pg = 0) :
    ∃ s' dead, centralReleasePage s pg = some (s', dead) ∧ MoveStep G pg s s' ∧
      ((dead = none ∧ Inv ps s' ((G.release k c pg).put pg.seg pg)) ∨
        (dead = some pg.seg ∧ 0 < s.central.freeSegments ∧
          Inv ps s' (((G.release k c pg).put pg.seg pg).drop pg.seg))) := by
  obtain ⟨s', dead, heq, hstep, hinv⟩ :=
    (h.release hlimbo hdying hpg hused).poolReturn rfl hdying
  refine ⟨s', dead, by rw [centralReleasePage]; exact heq,
    ⟨hstep.rest, hstep.mtx, ?_, ?_, hstep.bytes⟩, hinv⟩
  · intro q hq hloc
    refine hstep.links q hq ?_
    simpa [Ghost.release, Function.update_of_ne hq] using hloc
  · exact hstep.row

/-- `central_abandon_page` of a held page. -/
theorem abandonPage (h : Inv ps s G) (hlimbo : G.limbo = none) (hdying : G.dying = none)
    {k c : Nat} (hpg : pg ∈ G.cls k c) :
    Inv ps (centralAbandonPage s pg) (G.abandon k c pg) ∧
      MoveStep G pg s (centralAbandonPage s pg) := by
  obtain ⟨hp, hloc⟩ := (h.lists.places.cls k c pg).mp hpg
  obtain ⟨hpos, hlt, hab⟩ := h.pagesInUse_pos hlimbo hdying hpg
  have hin := (h.pages pg hp).inService (by simp [hloc])
  have hc := h.lists.counters
  have htotal := hc.total
  have hchains := h.lists.chains
  have hsub : Word.sub 64 s.central.pagesInUse 1 = s.central.pagesInUse - 1 :=
    Word.sub_eq hlt hpos
  have hadd : Word.add 64 s.central.abandonedCount 1 = s.central.abandonedCount + 1 :=
    Word.add_eq hab
  have hnotab : pg ∉ G.abandoned := by
    intro hmem
    have := ((h.lists.places.abandoned pg).mp hmem).2
    rw [hloc] at this
    cases this
  have hnext : ∀ q, q ≠ pg →
      (centralAbandonPage s pg).page.next q = s.page.next q := by
    intro q hq
    simp [centralAbandonPage, Function.update_of_ne hq]
  constructor
  · refine h.movePage hp _ s.seg _ ?_ ?_ ?_ ?_ (fun _ => rfl) ⟨?_, ?_, ?_, h.lists.cache⟩
    · intro q hq
      simp [Pages.row, Function.update_of_ne hq]
    · refine ⟨(h.pages pg hp).area, ?_⟩
      simp only [Ghost.abandon, Function.update_self, LocOk]
      exact ⟨by simp [Pages.row], { hin with }⟩
    · intro q hq
      simp [Ghost.abandon, Function.update_of_ne hq]
    · simp [Ghost.abandon]
    · exact h.lists.places.abandon hpg
    · refine { hchains with pool := ?_, abandoned := ?_ }
      · intro b hb
        apply (hchains.pool b hb).congr
        intro q hq
        apply hnext
        rintro rfl
        have := ((h.lists.places.pool b q).mp hq).2.2
        rw [hloc] at this
        cases this
      · refine hchains.abandoned.push (Function.update_self ..) ?_
        intro q hq
        exact hnext q (fun heq => hnotab (heq ▸ hq))
    · refine { hc with abandonedCount := ?_, total := ?_ }
      · change Word.add 64 s.central.abandonedCount 1 = G.abandoned.length + 1
        rw [hadd, hc.abandonedCount]
      · simp only [Ghost.abandon, hadd, hsub]
        omega
  · refine ⟨rfl, rfl, ?_, ?_, fun _ _ _ _ _ _ => rfl⟩
    · intro q hq _
      simp [centralAbandonPage, Function.update_of_ne hq]
    · intro q hq
      simp [Pages.row, centralAbandonPage, Function.update_of_ne hq]

/-- The page a cursor of the sweep leads to, in the sequence of abandoned
pages. -/
theorem cursor_split (h : Inv ps s G) {cur : Option PageId}
    (hcur : ∀ q, cur = some q → q ∈ G.abandoned) (hread : cursorRead s cur = some pg) :
    ∃ l r, G.abandoned = l ++ pg :: r ∧ l.getLast? = cur := by
  have hchain := h.lists.chains.abandoned
  cases cur with
  | none =>
      change s.central.abandoned = some pg at hread
      rw [hread] at hchain
      cases hl : G.abandoned with
      | nil =>
          rw [hl] at hchain
          cases chain_nil.mp hchain
      | cons x r =>
          rw [hl] at hchain
          cases hchain.1
          exact ⟨[], r, rfl, rfl⟩
  | some q =>
      obtain ⟨l, r, hl⟩ := List.append_of_mem (hcur q rfl)
      rw [hl] at hchain ⊢
      have htail := hchain.at_mem
      change s.page.next q = some pg at hread
      rw [hread] at htail
      cases r with
      | nil => cases chain_nil.mp htail
      | cons x r =>
          cases htail.1
          exact ⟨l ++ [q], r, by simp, by simp⟩

/-- `sweep_abandoned` takes a page without live blocks off its list. -/
theorem reclaim (h : Inv ps s G) (hlimbo : G.limbo = none) {cur : Option PageId}
    (hcur : ∀ q, cur = some q → q ∈ G.abandoned) (hread : cursorRead s cur = some pg)
    (hused : s.page.used pg = 0) :
    Inv ps { cursorWrite s cur (s.page.next pg) with
      central := { (cursorWrite s cur (s.page.next pg)).central with
        abandonedCount := Word.sub 64
          (cursorWrite s cur (s.page.next pg)).central.abandonedCount 1 } } (G.reclaim pg) := by
  obtain ⟨l, r, hsplit, hlast⟩ := h.cursor_split hcur hread
  have hmem : pg ∈ G.abandoned := by simp [hsplit]
  obtain ⟨hp, hloc⟩ := (h.lists.places.abandoned pg).mp hmem
  have hin := (h.pages pg hp).inService (by simp [hloc])
  obtain ⟨_, hout, htf⟩ := hin.vacant hused
  have hchains := h.lists.chains
  have hc := h.lists.counters
  have htotal := hc.total
  have hchain := hchains.abandoned
  rw [hsplit] at hchain
  have hfilter : G.abandoned.filter (· ≠ pg) = l ++ r := by
    rw [hsplit]
    exact filter_ne_middle hchain.nodup
  have hnod := hchain.nodup
  rw [List.nodup_middle, List.nodup_cons] at hnod
  have hne : ∀ q ∈ l ++ r, q ≠ pg := fun q hq heq => hnod.1 (heq ▸ hq)
  have hlen : G.abandoned.length = (l ++ r).length + 1 := by
    simp only [hsplit, List.length_append, List.length_cons]
    omega
  -- The cursor's page is itself abandoned, so no pool's links change.
  have hnext : ∀ q, (G.page q).loc ≠ .abandoned → IsPage (IsSegment s.os.regions) q →
      assign s.page.next cur (s.page.next pg) q = s.page.next q := by
    intro q hq hpq
    rw [assign_apply, if_neg]
    intro heq
    exact hq ((h.lists.places.abandoned q).mp (hcur q heq)).2
  have hbound := h.segments_bound
  have h1 := hc.numSegments
  have h2 := hc.abandonedCount
  have husable : usablePagesPerSegment = 63 := by decide
  rw [husable, hlimbo] at htotal
  simp only [Option.toList_none, List.length_nil] at htotal
  have hsub : Word.sub 64 s.central.abandonedCount 1 = s.central.abandonedCount - 1 :=
    Word.sub_eq (by omega) (by omega)
  refine h.movePage hp _ s.seg _ (fun _ _ => rfl) ?_ ?_ ?_ (fun _ => rfl)
    ⟨?_, ?_, ?_, h.lists.cache⟩
  · refine ⟨(h.pages pg hp).area, ?_⟩
    simp only [Ghost.reclaim, Function.update_self, LocOk]
    exact ⟨hused, htf, rfl, rfl, rfl⟩
  · intro q hq
    simp [Ghost.reclaim, Function.update_of_ne hq]
  · simp [Ghost.reclaim, hout]
  · exact h.lists.places.reclaim hlimbo hmem
  · refine { hchains with pool := ?_, abandoned := ?_ }
    · intro b hb
      apply (hchains.pool b hb).congr
      intro q hq
      obtain ⟨hpq, _, hlq⟩ := (h.lists.places.pool b q).mp hq
      exact hnext q (by simp [hlq]) hpq
    · change Chain (assign s.page.next cur (s.page.next pg))
        (if cur = none then s.page.next pg else s.central.abandoned)
        (G.abandoned.filter (· ≠ pg))
      rw [hfilter]
      have hempty : (cur = none) ↔ l = [] := by
        rw [← hlast, List.getLast?_eq_none_iff]
      have hun : Chain (assign s.page.next cur (s.page.next pg))
          (if l = [] then s.page.next pg else s.central.abandoned) (l ++ r) := by
        apply hchain.unlink
        · intro q hq
          rw [assign_apply, if_pos (hlast.symm.trans hq)]
        · intro q _ hq
          rw [assign_apply, if_neg (by rw [← hlast]; exact hq)]
        · intro q hq
          rw [assign_apply, if_neg]
          intro heq
          have hql : q ∈ l := List.mem_of_getLast? (hlast.trans heq)
          exact (List.nodup_append.mp hnod.2).2.2 q hql q hq rfl
      simpa only [hempty] using hun
  · refine { hc with abandonedCount := ?_, total := ?_ }
    · change Word.sub 64 s.central.abandonedCount 1 = (G.abandoned.filter (· ≠ pg)).length
      rw [hsub, hfilter]
      omega
    · change s.central.pagesInUse + s.central.freePageCount +
        Word.sub 64 s.central.abandonedCount 1 + (some pg).toList.length =
          usablePagesPerSegment * s.central.numSegments
      rw [hsub, husable]
      simp only [Option.toList_some, List.length_cons, List.length_nil]
      omega

/-- How one round of `sweep_abandoned` on page `pg` changes the lists: a page
with blocks out stays and the cursor moves on; a page without goes to its pool
and the cursor stays, and when that leaves one idle segment too many, the
page's segment leaves the lists. -/
inductive SweepRound (G : Ghost) (cur : Option PageId) (pg : PageId) :
    SweepNext → Ghost → Prop where
  | kept (hout : (G.page pg).out ≠ []) :
      SweepRound G cur pg ⟨some pg, none⟩ (G.setPage pg (G.page pg).collected)
  | returned (hout : (G.page pg).out = []) :
      SweepRound G cur pg ⟨cur, none⟩
        (((G.setPage pg (G.page pg).collected).reclaim pg).put pg.seg pg)
  | dropped (hout : (G.page pg).out = []) :
      SweepRound G cur pg ⟨cur, some pg.seg⟩
        ((((G.setPage pg (G.page pg).collected).reclaim pg).put pg.seg pg).drop pg.seg)

theorem SweepRound.page {cur : Option PageId} {next : SweepNext} {G' : Ghost}
    (h : SweepRound G cur pg next G') {q : PageId} (hq : q ≠ pg) : G'.page q = G.page q := by
  cases h with
  | kept => exact Function.update_of_ne hq ..
  | returned | dropped =>
      simp [Ghost.drop, Ghost.put, Ghost.reclaim, Ghost.setPage, Function.update_of_ne hq]

/-- One round of `sweep_abandoned`. -/
theorem sweepVisit (h : Inv ps s G) (hlimbo : G.limbo = none) (hdying : G.dying = none)
    {cur : Option PageId} (hcur : ∀ q, cur = some q → q ∈ G.abandoned)
    (hread : cursorRead s cur = some pg) :
    ∃ s₁ s' next G', collectLocked s pg = some s₁ ∧
      s₁.page.used pg = (G.page pg).out.length ∧
      HMalloc.sweepVisit s cur pg = some (s', next) ∧ Inv ps s' G' ∧
      MoveStep G pg s s' ∧ SweepRound G cur pg next G' ∧
      (next.unmap ≠ none → 0 < s.central.freeSegments) := by
  obtain ⟨l, r, hsplit, hlast⟩ := h.cursor_split hcur hread
  have hmem : pg ∈ G.abandoned := by simp [hsplit]
  obtain ⟨hp, hloc⟩ := (h.lists.places.abandoned pg).mp hmem
  obtain ⟨s₁, heq₁, hinv₁, hstep₁⟩ := h.collect hp (by simp [hloc])
  have hread₁ : cursorRead s₁ cur = some pg := by
    rw [← hread, hstep₁.rest]
    cases cur with
    | none => rfl
    | some q => exact congrFun hstep₁.next q
  have hcount : s₁.page.used pg = (G.page pg).out.length := by
    have hp₁ : IsPage (IsSegment s₁.os.regions) pg := by
      rw [hstep₁.regions]
      exact hp
    have hin := (hinv₁.pages pg hp₁).inService (by simp [Ghost.setPage, PageGhost.collected, hloc])
    have hused := hin.used
    simpa [Ghost.setPage, PageGhost.collected, Pages.row] using hused
  refine ⟨s₁, ?_⟩
  unfold HMalloc.sweepVisit
  rw [show collectLocked s pg = some s₁ from heq₁]
  simp only [Option.bind_eq_bind, Option.bind_some]
  by_cases hused : s₁.page.used pg = 0
  · rw [if_pos hused]
    have hout : (G.page pg).out = [] := List.eq_nil_of_length_eq_zero (hcount.symm.trans hused)
    have hinv₂ := hinv₁.reclaim hlimbo hcur hread₁ hused
    obtain ⟨s', dead, heq, hstep, hcase⟩ := hinv₂.poolReturn rfl hdying
    -- The unlinking and the return to the pool, as one step from `s₁`.
    have hmove : MoveStep G pg s₁ s' := by
      refine ⟨hstep.rest, hstep.mtx, ?_, hstep.row, hstep.bytes⟩
      intro q hq hl
      obtain ⟨hn, hpv, hu⟩ := hstep.links q hq (by
        simpa [Ghost.reclaim, Ghost.setPage, Function.update_of_ne hq] using hl)
      refine ⟨hn.trans ?_, hpv, hu⟩
      change assign s₁.page.next cur _ q = _
      rw [assign_apply, if_neg]
      intro heq
      exact hl ((h.lists.places.abandoned q).mp (hcur q heq)).2
    have hall : MoveStep G pg s s' :=
      (hstep₁.toMove G).trans hmove (fun _ _ hl => hl)
    have hfree : s₁.central.freeSegments = s.central.freeSegments := by rw [hstep₁.rest]
    rcases hcase with ⟨rfl, hinv⟩ | ⟨rfl, hpos, hinv⟩
    · exact ⟨s', ⟨cur, none⟩, _, trivial, hcount, by rw [heq]; rfl, hinv, hall, .returned hout,
        fun hne => absurd rfl hne⟩
    · exact ⟨s', ⟨cur, some pg.seg⟩, _, trivial, hcount, by rw [heq]; rfl, hinv, hall,
        .dropped hout,
        fun _ => hfree ▸ hpos⟩
  · rw [if_neg hused]
    have hout : (G.page pg).out ≠ [] := by
      intro hnil
      rw [hnil] at hcount
      exact hused hcount
    exact ⟨s₁, ⟨some pg, none⟩, _, trivial, hcount, rfl, hinv₁, hstep₁.toMove G, .kept hout,
      fun hne => absurd rfl hne⟩

/-- What a round leaves for the next one. -/
theorem SweepRound.next_ok (h : Inv ps s G) (hlimbo : G.limbo = none) (hdying : G.dying = none)
    {cur : Option PageId} (hcur : ∀ q, cur = some q → q ∈ G.abandoned)
    (hread : cursorRead s cur = some pg) {next : SweepNext} {G' : Ghost}
    (hround : SweepRound G cur pg next G') :
    G'.cls = G.cls ∧ G'.limbo = none ∧ G'.dying = next.unmap ∧
      ∀ q, next.cursor = some q → q ∈ G'.abandoned := by
  obtain ⟨l, r, hsplit, hlast⟩ := h.cursor_split hcur hread
  have hpgcur : cur ≠ some pg := by
    intro heq
    have hl : pg ∈ l := List.mem_of_getLast? (hlast.trans heq)
    have hnod := h.lists.chains.abandoned.nodup
    rw [hsplit] at hnod
    exact (List.nodup_append.mp hnod).2.2 pg hl pg (by simp) rfl
  have hcur' : ∀ q, cur = some q → q ∈ G.abandoned.filter (· ≠ pg) := by
    intro q hq
    have hne : q ≠ pg := fun heq => hpgcur (heq ▸ hq)
    simpa [hne] using hcur q hq
  cases hround with
  | kept hout =>
      refine ⟨rfl, hlimbo, hdying, ?_⟩
      rintro q ⟨⟩
      rw [Ghost.setPage]
      simp [hsplit]
  | returned hout => exact ⟨rfl, rfl, hdying, hcur'⟩
  | dropped hout => exact ⟨rfl, rfl, rfl, hcur'⟩

end Inv

end HMalloc
