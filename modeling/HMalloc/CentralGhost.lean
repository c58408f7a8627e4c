import HMalloc.PageSteps

/-!
How pages and segments move between the lists of the central heap, on the ghost
state alone. A page moves from one list to another (`PlacesOk.move`), and the
counts of free pages and of idle segments follow the length of one pool.
-/

namespace HMalloc

open Linked

theorem PlacesOk.pool_disjoint {S : Nat → Prop} {G : Ghost} (h : PlacesOk S G) {b b' : Nat}
    {pg : PageId} (hb : pg ∈ G.pool b) (hb' : pg ∈ G.pool b') : b = b' :=
  ((h.pool b pg).mp hb).2.1.symm.trans ((h.pool b' pg).mp hb').2.1

/-- A page moves to another list. -/
theorem PlacesOk.move {S : Nat → Prop} {G G' : Ghost} (h : PlacesOk S G) {pg : PageId}
    {g : PageGhost} (hpg : IsPage S pg) (hpage : G'.page = Function.update G.page pg g)
    (hpool : ∀ b q, q ∈ G'.pool b ↔ if q = pg then pg.seg = b ∧ g.loc = .pool else q ∈ G.pool b)
    (habandoned : ∀ q, q ∈ G'.abandoned ↔
      if q = pg then g.loc = .abandoned else q ∈ G.abandoned)
    (hcls : ∀ k c q, q ∈ G'.cls k c ↔ if q = pg then g.loc = .held k c else q ∈ G.cls k c)
    (hlimbo : ∀ q, G'.limbo = some q ↔ if q = pg then g.loc = .limbo else G.limbo = some q)
    (hsegments : G'.segments = G.segments) (hdying : G'.dying = G.dying)
    (havail : ∀ b, b ∈ G'.avail ↔ b ∈ G.segments ∧ G'.pool b ≠ [])
    (hkept : ∀ b, G.dying = some b → G'.pool b = G.pool b) : PlacesOk S G' where
  pool := by
    intro b q
    rw [hpool, hpage]
    by_cases hq : q = pg
    · subst hq
      simp [hpg]
    · simp [hq, h.pool]
  abandoned := by
    intro q
    rw [habandoned, hpage]
    by_cases hq : q = pg
    · subst hq
      simp [hpg]
    · simp [hq, h.abandoned]
  cls := by
    intro k c q
    rw [hcls, hpage]
    by_cases hq : q = pg
    · subst hq
      simp [hpg]
    · simp [hq, h.cls]
  limbo := by
    intro q
    rw [hlimbo, hpage]
    by_cases hq : q = pg
    · subst hq
      simp [hpg]
    · simp [hq, h.limbo]
  segments := by
    intro b
    rw [hsegments, hdying]
    exact h.segments b
  avail := by
    intro b
    rw [hsegments]
    exact havail b
  dying := by
    intro b hb
    rw [hdying] at hb
    rw [hkept b hb]
    exact h.dying b hb

/-- The usable pages of a segment. -/
def segmentPages (b : Nat) : List PageId :=
  (List.range' firstUsablePage usablePagesPerSegment).map (fun i => ⟨b, i⟩)

theorem mem_segmentPages {S : Nat → Prop} {b : Nat} (hb : S b) (pg : PageId) :
    pg ∈ segmentPages b ↔ IsPage S pg ∧ pg.seg = b := by
  obtain ⟨seg, idx⟩ := pg
  simp only [segmentPages, List.mem_map, List.mem_range'_1, PageId.mk.injEq]
  constructor
  · rintro ⟨i, hi, rfl, rfl⟩
    exact ⟨⟨hb, hi.1, hi.2⟩, rfl⟩
  · rintro ⟨⟨_, hlo, hhi⟩, rfl⟩
    exact ⟨idx, ⟨hlo, hhi⟩, rfl, rfl⟩

theorem length_segmentPages (b : Nat) : (segmentPages b).length = usablePagesPerSegment := by
  simp [segmentPages]

/-- A pool has at most the pages of its segment. -/
theorem PlacesOk.pool_length_le {S : Nat → Prop} {G : Ghost} (h : PlacesOk S G) {b : Nat}
    (hb : S b) (hnod : (G.pool b).Nodup) : (G.pool b).length ≤ usablePagesPerSegment := by
  rw [← length_segmentPages b]
  apply (List.subperm_of_subset hnod _).length_le
  intro pg hpg
  obtain ⟨hp, hseg, _⟩ := (h.pool b pg).mp hpg
  exact (mem_segmentPages hb pg).mpr ⟨hp, hseg⟩

/-- A pool with all the pages of its segment has every page. -/
theorem PlacesOk.mem_full_pool {S : Nat → Prop} {G : Ghost} (h : PlacesOk S G) {b : Nat}
    (hb : S b) (hnod : (G.pool b).Nodup) (hfull : (G.pool b).length = usablePagesPerSegment)
    {pg : PageId} (hpg : IsPage S pg) (hseg : pg.seg = b) : pg ∈ G.pool b := by
  have hsub : (G.pool b).Subperm (segmentPages b) := by
    apply List.subperm_of_subset hnod
    intro q hq
    obtain ⟨hp, hs, _⟩ := (h.pool b q).mp hq
    exact (mem_segmentPages hb q).mpr ⟨hp, hs⟩
  have hperm := hsub.perm_of_length_le (by rw [length_segmentPages, hfull])
  exact hperm.mem_iff.mpr ((mem_segmentPages hb pg).mpr ⟨hpg, hseg⟩)

section Counts

variable {G : Ghost} {b : Nat}

theorem Ghost.freePages_update (G : Ghost) (hnod : G.segments.Nodup) (hb : b ∈ G.segments)
    (l : List PageId) :
    (G.segments.map (fun x => (Function.update G.pool b l x).length)).sum + (G.pool b).length =
      G.freePages + l.length := by
  have hfun : (fun x => (Function.update G.pool b l x).length) =
      Function.update (fun x => (G.pool x).length) b l.length := by
    funext x
    by_cases hx : x = b
    · subst hx
      simp
    · simp [Function.update_of_ne hx]
  rw [hfun]
  exact Count.sum_update hnod hb (fun x => (G.pool x).length) l.length

theorem Ghost.idleSegments_update (G : Ghost) (hnod : G.segments.Nodup) (hb : b ∈ G.segments)
    (l : List PageId) :
    G.segments.countP
        (fun x => (Function.update G.pool b l x).length == usablePagesPerSegment) +
      ((G.pool b).length == usablePagesPerSegment).toNat =
    G.idleSegments + (l.length == usablePagesPerSegment).toNat :=
  Count.countP_update hnod hb G.pool l (fun l => l.length == usablePagesPerSegment)

end Counts

/-- Segments are multiples of the segment size inside the address space. -/
theorem segments_length_le {mapped : Nat → Bool} {regions : Nat → Option Region} {l : List Nat}
    (hr : RegionsOk mapped regions) (hnod : l.Nodup) (hl : ∀ b ∈ l, IsSegment regions b) :
    l.length ≤ 2 ^ 42 := by
  have hmap : (l.map (· / segmentSize)).Nodup := by
    refine List.Nodup.map_on ?_ hnod
    intro x hx y hy heq
    obtain ⟨_, hdx, _⟩ := hr.segment (hl x hx)
    obtain ⟨_, hdy, _⟩ := hr.segment (hl y hy)
    rw [← Nat.div_mul_cancel hdx, ← Nat.div_mul_cancel hdy, heq]
  have hle := Count.length_le_of_nodup_lt (n := 2 ^ 42) hmap (by
    intro k hk
    obtain ⟨x, hx, rfl⟩ := List.mem_map.mp hk
    obtain ⟨_, _, hbound⟩ := hr.segment (hl x hx)
    rw [Nat.div_lt_iff_lt_mul (by decide)]
    simp only [segmentSize] at hbound ⊢
    omega)
  simpa using hle

/-- The pages of all the segments in the lists. -/
def Ghost.allPages (G : Ghost) : List PageId := G.segments.flatMap segmentPages

theorem Ghost.length_allPages (G : Ghost) :
    G.allPages.length = usablePagesPerSegment * G.segments.length := by
  unfold Ghost.allPages
  induction G.segments with
  | nil => rfl
  | cons b l ih =>
      rw [List.flatMap_cons, List.length_append, ih, length_segmentPages, List.length_cons,
        Nat.mul_succ, Nat.add_comm]

/-- A page outside the pools and the abandoned list is counted in
`pages_in_use`: the listed pages and it are distinct pages of the segments. -/
theorem PlacesOk.counted {S : Nat → Prop} {G : Ghost} (h : PlacesOk S G)
    (hseg : G.segments.Nodup) (hpool : ∀ b, S b → (G.pool b).Nodup) (hab : G.abandoned.Nodup)
    (hdying : G.dying = none) {pg : PageId} (hpg : IsPage S pg) (hnp : (G.page pg).loc ≠ .pool)
    (hna : (G.page pg).loc ≠ .abandoned) :
    G.freePages + G.abandoned.length + 1 ≤ usablePagesPerSegment * G.segments.length := by
  have hS : ∀ b ∈ G.segments, S b := fun b hb => ((h.segments b).mp hb).1
  have hmemS : ∀ b, S b → b ∈ G.segments := fun b hb =>
    (h.segments b).mpr ⟨hb, by simp [hdying]⟩
  have hpools : (G.segments.flatMap G.pool).Nodup := by
    rw [List.nodup_flatMap]
    refine ⟨fun b hb => hpool b (hS b hb), ?_⟩
    apply hseg.imp
    intro b b' hne q hq hq'
    exact hne (h.pool_disjoint hq hq')
  have hlen : (G.segments.flatMap G.pool).length = G.freePages := by
    rw [List.length_flatMap]
    rfl
  have hnod : (pg :: (G.segments.flatMap G.pool ++ G.abandoned)).Nodup := by
    refine List.nodup_cons.mpr ⟨?_, List.nodup_append.mpr ⟨hpools, hab, ?_⟩⟩
    · intro hmem
      rcases List.mem_append.mp hmem with hp | ha
      · obtain ⟨b, _, hb⟩ := List.mem_flatMap.mp hp
        exact hnp ((h.pool b pg).mp hb).2.2
      · exact hna ((h.abandoned pg).mp ha).2
    · rintro q hp q' ha rfl
      obtain ⟨b, _, hb⟩ := List.mem_flatMap.mp hp
      have h1 := ((h.pool b q).mp hb).2.2
      rw [((h.abandoned q).mp ha).2] at h1
      cases h1
  have hsub : pg :: (G.segments.flatMap G.pool ++ G.abandoned) ⊆ G.allPages := by
    have hin : ∀ q, IsPage S q → q ∈ G.allPages := fun q hq =>
      List.mem_flatMap.mpr ⟨q.seg, hmemS q.seg hq.1, (mem_segmentPages hq.1 q).mpr ⟨hq, rfl⟩⟩
    intro q hq
    rcases List.mem_cons.mp hq with rfl | hq
    · exact hin q hpg
    · rcases List.mem_append.mp hq with hp | ha
      · obtain ⟨b, _, hb⟩ := List.mem_flatMap.mp hp
        exact hin q ((h.pool b q).mp hb).1
      · exact hin q ((h.abandoned q).mp ha).1
  have hle := (List.subperm_of_subset hnod hsub).length_le
  rw [G.length_allPages, List.length_cons, List.length_append, hlen] at hle
  exact hle

end HMalloc
