import HMalloc.Regions

/-!
Segments come and go (`map_segment`, the end of `pool_return`). The loop of
`map_segment` builds a free list of all usable pages; a segment that is unmapped
has left every list before and has all its pages in its pool.
-/

namespace HMalloc

open Bytes Linked

/-- What the loop of `map_segment` does for the pages `i .. i + n` of segment
`b`: they are set up and pushed on the segment's free list, and nothing else is
touched. -/
structure PagesInit (b n i : Nat) (s s' : Store) : Prop where
  rest : s' = { s with
    page := { s.page with
      area := s'.page.area, inUse := s'.page.inUse, next := s'.page.next }
    seg := { s.seg with freeList := s'.seg.freeList, freeCount := s'.seg.freeCount } }
  area : ∀ pg : PageId, pg.seg = b → i ≤ pg.idx → pg.idx < i + n →
    s'.page.area pg = pg.start ∧ s'.page.inUse pg = false
  other : ∀ pg : PageId, ¬ (pg.seg = b ∧ i ≤ pg.idx ∧ pg.idx < i + n) →
    s'.page.area pg = s.page.area pg ∧ s'.page.inUse pg = s.page.inUse pg ∧
      s'.page.next pg = s.page.next pg
  freeList : ∀ b', b' ≠ b → s'.seg.freeList b' = s.seg.freeList b' ∧
    s'.seg.freeCount b' = s.seg.freeCount b'
  freeCount : s.seg.freeCount b + n < 2 ^ 32 → s'.seg.freeCount b = s.seg.freeCount b + n
  chain : ∀ l, (∀ q ∈ l, q.seg = b → q.idx < i) → Chain s.page.next (s.seg.freeList b) l →
    Chain s'.page.next (s'.seg.freeList b)
      (((List.range' i n).map (fun j => (⟨b, j⟩ : PageId))).reverse ++ l)

theorem initPages_spec (b n i : Nat) (s : Store) : PagesInit b n i s (initPages b n i s) := by
  induction n generalizing i s with
  | zero =>
      refine ⟨rfl, ?_, fun _ _ => ⟨rfl, rfl, rfl⟩, fun _ _ => ⟨rfl, rfl⟩, fun _ => rfl, ?_⟩
      · intro pg _ hlo hhi
        omega
      · intro l _ hl
        exact hl
  | succ n ih =>
      rw [initPages]
      have hrec := ih (i + 1) { s with
        page := { s.page with
          area := Function.update s.page.area ⟨b, i⟩ (b + i * pageSize)
          inUse := Function.update s.page.inUse ⟨b, i⟩ false
          next := Function.update s.page.next ⟨b, i⟩ (s.seg.freeList b) }
        seg := { s.seg with
          freeList := Function.update s.seg.freeList b (some ⟨b, i⟩)
          freeCount := Function.update s.seg.freeCount b (Word.add 32 (s.seg.freeCount b) 1) } }
      generalize hs' : initPages b n (i + 1) _ = s' at hrec
      constructor
      · rw [hrec.rest]
      · intro pg hseg hlo hhi
        by_cases hidx : pg.idx = i
        · have hpg : pg = ⟨b, i⟩ := by
            cases pg
            simp_all
          obtain ⟨harea, huse, _⟩ := hrec.other pg (by omega)
          rw [harea, huse, hpg]
          simp [PageId.start]
        · exact hrec.area pg hseg (by omega) (by omega)
      · intro pg hnot
        have hpg : pg ≠ ⟨b, i⟩ := by
          rintro rfl
          exact hnot ⟨rfl, Nat.le_refl i, by simp only; omega⟩
        obtain ⟨harea, huse, hnext⟩ := hrec.other pg (by omega)
        rw [harea, huse, hnext]
        simp [Function.update_of_ne hpg]
      · intro b' hb'
        obtain ⟨hlist, hcount⟩ := hrec.freeList b' hb'
        rw [hlist, hcount]
        simp [Function.update_of_ne hb']
      · intro hlt
        have hone : Word.add 32 (s.seg.freeCount b) 1 = s.seg.freeCount b + 1 :=
          Word.add_eq (by omega)
        have hcount := hrec.freeCount (by simp only [Function.update_self, hone]; omega)
        rw [hcount]
        simp only [Function.update_self, hone]
        omega
      · intro l hl hchain
        have hlist : ((List.range' i (n + 1)).map (fun j => (⟨b, j⟩ : PageId))).reverse ++ l =
            ((List.range' (i + 1) n).map (fun j => (⟨b, j⟩ : PageId))).reverse ++
              (⟨b, i⟩ :: l) := by
          simp [List.range'_succ]
        rw [hlist]
        apply hrec.chain
        · intro q hq hseg
          rcases List.mem_cons.mp hq with rfl | hq
          · exact Nat.lt_succ_self i
          · exact Nat.lt_succ_of_lt (hl q hq hseg)
        · have hnotin : ∀ q ∈ l, q ≠ ⟨b, i⟩ := by
            rintro q hq rfl
            exact absurd (hl _ hq rfl) (Nat.lt_irrefl i)
          simp only [Function.update_self]
          exact hchain.push (by simp) (fun q hq => Function.update_of_ne (hnotin q hq) _ _)

/-- A new segment with all its pages in its pool. -/
def Ghost.mapped (G : Ghost) (b : Nat) : Ghost :=
  { G with
    page := fun pg => if pg.seg = b then ⟨[], [], [], .pool⟩ else G.page pg
    pool := Function.update G.pool b (segmentPages b).reverse
    segments := b :: G.segments
    avail := b :: G.avail }

theorem PlacesOk.mapped {S S' : Nat → Prop} {G : Ghost} (h : PlacesOk S G) {b : Nat} (hb : ¬ S b)
    (hS : ∀ b', S' b' ↔ b' = b ∨ S b') : PlacesOk S' (G.mapped b) := by
  have hpage : ∀ pg, IsPage S' pg ↔ (pg ∈ segmentPages b) ∨ (pg.seg ≠ b ∧ IsPage S pg) := by
    intro pg
    have hseg := mem_segmentPages (S := S') ((hS b).mpr (Or.inl rfl)) pg
    rw [hseg]
    constructor
    · intro hp
      by_cases heq : pg.seg = b
      · exact Or.inl ⟨hp, heq⟩
      · exact Or.inr ⟨heq, ((hS _).mp hp.1).resolve_left heq, hp.2⟩
    · rintro (⟨hp, _⟩ | ⟨_, hp⟩)
      · exact hp
      · exact ⟨(hS _).mpr (Or.inr hp.1), hp.2⟩
  have hold : ∀ pg, IsPage S pg → pg.seg ≠ b := by
    rintro pg hp rfl
    exact hb hp.1
  have hnew : ∀ pg, pg ∈ segmentPages b → pg.seg = b := fun pg hpg =>
    ((mem_segmentPages (S := S') ((hS b).mpr (Or.inl rfl)) pg).mp hpg).2
  -- Any list other than the new pool has the pages it had.
  have hsame : ∀ (loc : Loc), loc ≠ .pool → ∀ pg,
      (IsPage S' pg ∧ ((G.mapped b).page pg).loc = loc) ↔
        (IsPage S pg ∧ (G.page pg).loc = loc) := by
    intro loc hloc pg
    by_cases heq : pg.seg = b
    · simp only [Ghost.mapped, heq, if_true]
      exact ⟨fun h => absurd h.2.symm hloc, fun h => absurd heq (hold pg h.1)⟩
    · simp only [Ghost.mapped, heq, if_false]
      rw [hpage]
      constructor
      · rintro ⟨hp | hp, hl⟩
        · exact absurd (hnew pg hp) heq
        · exact ⟨hp.2, hl⟩
      · exact fun ⟨hp, hl⟩ => ⟨Or.inr ⟨heq, hp⟩, hl⟩
  constructor
  · intro b' pg
    by_cases hbb : b' = b
    · subst hbb
      simp only [Ghost.mapped, Function.update_self, List.mem_reverse]
      constructor
      · intro hpg
        exact ⟨(hpage pg).mpr (Or.inl hpg), hnew pg hpg, by simp [hnew pg hpg]⟩
      · rintro ⟨hp, hseg, _⟩
        rcases (hpage pg).mp hp with hpg | ⟨hne, _⟩
        · exact hpg
        · exact absurd hseg hne
    · simp only [Ghost.mapped, Function.update_of_ne hbb]
      rw [h.pool, hpage]
      constructor
      · rintro ⟨hp, hseg, hloc⟩
        have hne := hold pg hp
        exact ⟨Or.inr ⟨hne, hp⟩, hseg, by simp [hne, hloc]⟩
      · rintro ⟨hp | ⟨hne, hp⟩, hseg, hloc⟩
        · exact absurd ((hnew pg hp).symm.trans hseg) (fun heq => hbb heq.symm)
        · simp only [hne, if_false] at hloc
          exact ⟨hp, hseg, hloc⟩
  · intro pg
    rw [hsame _ (by simp)]
    exact h.abandoned pg
  · intro k c pg
    rw [hsame _ (by simp)]
    exact h.cls k c pg
  · intro pg
    rw [hsame _ (by simp)]
    exact h.limbo pg
  · intro b'
    have hdying : G.dying ≠ some b := fun heq => hb (h.dying b heq).1
    simp only [Ghost.mapped, List.mem_cons, h.segments, hS]
    constructor
    · rintro (rfl | ⟨hs, hd⟩)
      · exact ⟨Or.inl rfl, hdying⟩
      · exact ⟨Or.inr hs, hd⟩
    · rintro ⟨rfl | hs, hd⟩
      · exact Or.inl rfl
      · exact Or.inr ⟨hs, hd⟩
  · intro b'
    by_cases hbb : b' = b
    · subst hbb
      simp only [Ghost.mapped, List.mem_cons, true_or, Function.update_self, true_and, true_iff]
      intro hnil
      have hlen := length_segmentPages b'
      rw [List.reverse_eq_nil_iff.mp hnil] at hlen
      exact absurd hlen (by decide)
    · simp [Ghost.mapped, hbb, h.avail]
  · intro b' hd
    obtain ⟨hs, hlen⟩ := h.dying b' hd
    have hbb : b' ≠ b := by
      rintro rfl
      exact hb hs
    exact ⟨(hS b').mpr (Or.inr hs), by simp [Ghost.mapped, Function.update_of_ne hbb, hlen]⟩

/-- What `map_segment` leaves behind, for a store whose `avail` list is empty. -/
structure SegmentInit (b : Nat) (s t : Store) : Prop where
  rest : t = { s with
    os := { s.os with mem := fill s.os.mem b sizeofSegment 0 }
    page := t.page, seg := t.seg, central := t.central }
  row : ∀ pg : PageId, pg.seg ≠ b → t.page.row pg = s.page.row pg
  links : ∀ pg : PageId, pg.seg ≠ b →
    t.page.next pg = s.page.next pg ∧ t.page.prev pg = s.page.prev pg
  fresh : ∀ pg : PageId, pg ∈ segmentPages b →
    t.page.area pg = pg.start ∧ t.page.inUse pg = false ∧ t.page.owner pg = .null ∧
      t.page.used pg = 0 ∧ t.page.threadFree pg = 0
  pool : Chain t.page.next (t.seg.freeList b) (segmentPages b).reverse
  freeCount : t.seg.freeCount b = usablePagesPerSegment
  mmapSize : t.seg.mmapSize b = segmentSize
  next : t.seg.next b = s.central.segments
  avail : t.seg.availNext b = none ∧ t.seg.availPrev b = none ∧ t.seg.inAvail b = true
  other : ∀ b', b' ≠ b → t.seg.freeList b' = s.seg.freeList b' ∧
    t.seg.freeCount b' = s.seg.freeCount b' ∧ t.seg.mmapSize b' = s.seg.mmapSize b' ∧
    t.seg.next b' = s.seg.next b' ∧ t.seg.inAvail b' = s.seg.inAvail b'
  central : t.central = { s.central with
    freePageCount := Word.add 64 s.central.freePageCount usablePagesPerSegment
    segments := some b
    avail := some b
    numSegments := Word.add 64 s.central.numSegments 1
    freeSegments := Word.add 64 s.central.freeSegments 1 }

theorem initSegment_spec {s : Store} (b : Nat) (hav : s.central.avail = none) :
    SegmentInit b s (initSegment s b) := by
  have hinit := initPages_spec b usablePagesPerSegment firstUsablePage (zeroSegment s b)
  have heq : initSegment s b =
      let i := initPages b usablePagesPerSegment firstUsablePage (zeroSegment s b)
      availPush { i with
        seg := { i.seg with next := Function.update i.seg.next b i.central.segments }
        central := { i.central with
          freePageCount := Word.add 64 i.central.freePageCount (i.seg.freeCount b)
          segments := some b
          numSegments := Word.add 64 i.central.numSegments 1
          freeSegments := Word.add 64 i.central.freeSegments 1 } } b := rfl
  rw [heq]
  generalize initPages b usablePagesPerSegment firstUsablePage (zeroSegment s b) = i at hinit
  have hcentral : i.central = s.central := by rw [hinit.rest]; rfl
  have hcount : i.seg.freeCount b = usablePagesPerSegment := by
    have hzero : (zeroSegment s b).seg.freeCount b = 0 := Function.update_self _ _ _
    rw [hinit.freeCount (by rw [hzero]; decide), hzero]
    exact Nat.zero_add _
  have hpages : ∀ pg : PageId, pg ∈ segmentPages b →
      pg.seg = b ∧ firstUsablePage ≤ pg.idx ∧ pg.idx < firstUsablePage + usablePagesPerSegment := by
    intro pg hpg
    obtain ⟨⟨_, hlo, hhi⟩, hseg⟩ := (mem_segmentPages (S := fun _ => True) trivial pg).mp hpg
    have husable : firstUsablePage + usablePagesPerSegment = pagesPerSegment := by decide
    exact ⟨hseg, hlo, by omega⟩
  constructor
  · simp only [availPush, hcentral]
    rw [hinit.rest]
    rfl
  · intro pg hpg
    obtain ⟨harea, huse, _⟩ := hinit.other pg (fun h => hpg h.1)
    simp only [availPush, Pages.row, harea, huse]
    rw [hinit.rest]
    simp [zeroSegment, hpg]
  · intro pg hpg
    obtain ⟨_, _, hnext⟩ := hinit.other pg (fun h => hpg h.1)
    simp only [availPush, hnext]
    rw [hinit.rest]
    simp [zeroSegment, hpg]
  · intro pg hpg
    obtain ⟨hseg, hlo, hhi⟩ := hpages pg hpg
    obtain ⟨harea, huse⟩ := hinit.area pg hseg hlo hhi
    simp only [availPush, harea, huse]
    rw [hinit.rest]
    simp [zeroSegment, hseg]
  · have hempty : (zeroSegment s b).seg.freeList b = none := by simp [zeroSegment]
    have hchain := hinit.chain [] (by simp) (chain_nil.mpr hempty)
    simpa [segmentPages, availPush] using hchain
  · exact hcount
  · change i.seg.mmapSize b = segmentSize
    rw [hinit.rest]
    exact Function.update_self _ _ _
  · simp [availPush, hcentral]
  · simp [availPush, hcentral, hav, assign]
  · intro b' hb'
    obtain ⟨hlist, hcnt⟩ := hinit.freeList b' hb'
    simp only [availPush, hlist, hcnt, Function.update_of_ne hb']
    rw [hinit.rest]
    simp [zeroSegment, Function.update_of_ne hb']
  · simp [availPush, hcentral, hcount]

/-- The dying segment is gone. -/
def Ghost.unmapped (G : Ghost) (b : Nat) : Ghost :=
  { G with pool := Function.update G.pool b [], dying := none }

theorem PlacesOk.unmapped {S S' : Nat → Prop} {G : Ghost} (h : PlacesOk S G) {b : Nat}
    (hdying : G.dying = some b) (hnod : (G.pool b).Nodup)
    (hS : ∀ b', S' b' ↔ b' ≠ b ∧ S b') : PlacesOk S' (G.unmapped b) := by
  obtain ⟨hb, hfull⟩ := h.dying b hdying
  -- All pages of the segment are in its pool, so no other list has one.
  have hout : ∀ pg, IsPage S pg → (G.page pg).loc ≠ .pool → pg.seg ≠ b := by
    intro pg hp hloc hseg
    exact hloc ((h.pool b pg).mp (h.mem_full_pool hb hnod hfull hp hseg)).2.2
  have hsame : ∀ (loc : Loc), loc ≠ .pool → ∀ pg,
      (IsPage S' pg ∧ (G.page pg).loc = loc) ↔ (IsPage S pg ∧ (G.page pg).loc = loc) := by
    intro loc hloc pg
    constructor
    · exact fun ⟨hp, hl⟩ => ⟨⟨((hS _).mp hp.1).2, hp.2⟩, hl⟩
    · exact fun ⟨hp, hl⟩ => ⟨⟨(hS _).mpr ⟨hout pg hp (by rw [hl]; exact hloc), hp.1⟩, hp.2⟩, hl⟩
  constructor
  · intro b' pg
    by_cases hbb : b' = b
    · subst hbb
      simp only [Ghost.unmapped, Function.update_self, List.not_mem_nil, false_iff]
      rintro ⟨hp, rfl, _⟩
      exact ((hS _).mp hp.1).1 rfl
    · simp only [Ghost.unmapped, Function.update_of_ne hbb]
      rw [h.pool]
      constructor
      · rintro ⟨hp, rfl, hl⟩
        exact ⟨⟨(hS _).mpr ⟨hbb, hp.1⟩, hp.2⟩, rfl, hl⟩
      · rintro ⟨hp, rfl, hl⟩
        exact ⟨⟨((hS _).mp hp.1).2, hp.2⟩, rfl, hl⟩
  · intro pg
    change pg ∈ G.abandoned ↔ IsPage S' pg ∧ (G.page pg).loc = .abandoned
    rw [hsame _ (by simp)]
    exact h.abandoned pg
  · intro k c pg
    change pg ∈ G.cls k c ↔ IsPage S' pg ∧ (G.page pg).loc = .held k c
    rw [hsame _ (by simp)]
    exact h.cls k c pg
  · intro pg
    change G.limbo = some pg ↔ IsPage S' pg ∧ (G.page pg).loc = .limbo
    rw [hsame _ (by simp)]
    exact h.limbo pg
  · intro b'
    simp only [Ghost.unmapped, h.segments, hdying, hS, ne_eq, Option.some.injEq, reduceCtorEq,
      not_false_eq_true, and_true]
    rw [and_comm, eq_comm]
  · intro b'
    have hne : b' ∈ G.segments → b' ≠ b := by
      rintro hmem rfl
      exact ((h.segments b').mp hmem).2 hdying
    by_cases hbb : b' = b
    · subst hbb
      simp only [Ghost.unmapped, Function.update_self, ne_eq, not_true_eq_false, and_false,
        iff_false, h.avail, not_and]
      exact fun hmem => absurd rfl (hne hmem)
    · simp only [Ghost.unmapped, Function.update_of_ne hbb]
      exact h.avail b'
  · intro b' hd
    cases hd

namespace Inv

variable {ps : PageSize} {s : Store} {G : Ghost}

theorem pool_of_avail_nil (h : Inv ps s G) (hav : G.avail = []) {b : Nat} (hb : b ∈ G.segments) :
    G.pool b = [] := by
  by_contra hne
  have := (h.lists.places.avail b).mpr ⟨hb, hne⟩
  rw [hav] at this
  cases this

/-- An idle segment is available, so an empty `avail` list means there is none. -/
theorem idle_of_avail_nil (h : Inv ps s G) (hav : G.avail = []) : s.central.freeSegments = 0 := by
  rw [h.lists.counters.freeSegments, Ghost.idleSegments, List.countP_eq_zero]
  intro b hb
  rw [h.pool_of_avail_nil hav hb]
  decide

theorem free_of_avail_nil (h : Inv ps s G) (hav : G.avail = []) : s.central.freePageCount = 0 := by
  rw [h.lists.counters.freePages, Ghost.freePages, List.sum_eq_zero]
  intro n hn
  obtain ⟨b, hb, rfl⟩ := List.mem_map.mp hn
  rw [h.pool_of_avail_nil hav hb]
  rfl

theorem avail_nil (h : Inv ps s G) (hav : s.central.avail = none) : G.avail = [] := by
  have hchain := h.lists.chains.avail.toChain
  rw [hav] at hchain
  exact hchain.nil_of_none

/-- The lists of the central heap after `map_segment`. -/
theorem mapSegment_lists (h : Inv ps s G) {b : Nat} {S : Nat → Prop} {os : Os} {t : Store}
    (hinit : SegmentInit b { s with os := os } t) (hav : s.central.avail = none)
    (hnot : ¬ IsSegment s.os.regions b) (hS : ∀ b', S b' ↔ b' = b ∨ IsSegment s.os.regions b')
    (hr : (b :: G.segments).length ≤ 2 ^ 42) :
    ListsOk S t.page.next t.seg t.central (G.mapped b) := by
  have hplaces := h.lists.places
  have hchains := h.lists.chains
  have hcounters := h.lists.counters
  have havail := h.avail_nil hav
  have hidle := h.idle_of_avail_nil havail
  have hold : ∀ pg, IsPage (IsSegment s.os.regions) pg → pg.seg ≠ b := by
    rintro pg hp rfl
    exact hnot hp.1
  have hseg : ∀ b' ∈ G.segments, b' ≠ b := by
    rintro b' hb' rfl
    exact hnot (h.isSegment_of_mem hb')
  have husable : usablePagesPerSegment = 63 := by decide
  have hle : G.freePages ≤ 63 * G.segments.length := by
    rw [Ghost.freePages, ← husable, Nat.mul_comm]
    have hsum := List.sum_le_card_nsmul (G.segments.map (fun b => (G.pool b).length))
      usablePagesPerSegment (by
        intro n hn
        obtain ⟨b', hb', rfl⟩ := List.mem_map.mp hn
        exact h.pool_le (h.isSegment_of_mem hb'))
    simpa using hsum
  have hpools : ∀ b' ∈ G.segments, (G.mapped b).pool b' = G.pool b' := fun b' hb' =>
    Function.update_of_ne (hseg b' hb') _ _
  have hnew : (G.mapped b).pool b = (segmentPages b).reverse := Function.update_self _ _ _
  have hfree : (G.mapped b).freePages = usablePagesPerSegment + G.freePages := by
    change (List.map _ (b :: G.segments)).sum = _
    rw [List.map_cons, List.sum_cons, hnew, List.length_reverse, length_segmentPages,
      Ghost.freePages]
    congr 2
    exact List.map_congr_left (fun b' hb' => by rw [hpools b' hb'])
  have hcount : (G.mapped b).idleSegments = G.idleSegments + 1 := by
    change List.countP _ (b :: G.segments) = _
    rw [List.countP_cons, hnew, List.length_reverse, length_segmentPages]
    simp only [beq_self_eq_true, if_true, Nat.add_right_cancel_iff]
    exact List.countP_congr (fun b' hb' => by rw [hpools b' hb'])
  rw [List.length_cons] at hr
  have hnum : Word.add 64 s.central.numSegments 1 = s.central.numSegments + 1 :=
    Word.add_eq (by rw [hcounters.numSegments]; omega)
  have hpagecount : Word.add 64 s.central.freePageCount usablePagesPerSegment =
      s.central.freePageCount + usablePagesPerSegment :=
    Word.add_eq (by rw [hcounters.freePages]; omega)
  have hsegs : Word.add 64 s.central.freeSegments 1 = s.central.freeSegments + 1 :=
    Word.add_eq (by rw [hidle]; decide)
  refine ⟨hplaces.mapped hnot hS, ⟨?_, ?_, ?_, ?_, ?_, ?_, ?_⟩, ⟨?_, ?_, ?_, ?_, ?_⟩, ?_⟩
  · intro b' hb'
    by_cases hbb : b' = b
    · subst hbb
      rw [hnew]
      exact hinit.pool
    · rw [(hinit.other b' hbb).1]
      simp only [Ghost.mapped, Function.update_of_ne hbb]
      refine (hchains.pool b' (((hS b').mp hb').resolve_left hbb)).congr ?_
      intro pg hpg
      exact (hinit.links pg (hold pg ((hplaces.pool b' pg).mp hpg).1)).1
  · intro b' hb'
    by_cases hbb : b' = b
    · subst hbb
      rw [hnew, List.length_reverse, length_segmentPages]
      exact hinit.freeCount
    · rw [(hinit.other b' hbb).2.1]
      simp only [Ghost.mapped, Function.update_of_ne hbb]
      exact hchains.freeCount b' (((hS b').mp hb').resolve_left hbb)
  · intro b' hb'
    by_cases hbb : b' = b
    · subst hbb
      exact hinit.mmapSize
    · rw [(hinit.other b' hbb).2.2.1]
      exact hchains.mmapSize b' (((hS b').mp hb').resolve_left hbb)
  · rw [hinit.central]
    refine hchains.abandoned.congr ?_
    intro pg hpg
    exact (hinit.links pg (hold pg ((hplaces.abandoned pg).mp hpg).1)).1
  · rw [hinit.central]
    exact hchains.segments.push hinit.next (fun b' hb' => (hinit.other b' (hseg b' hb')).2.2.2.1)
  · rw [hinit.central]
    have hlist : (G.mapped b).avail = [b] := by
      change b :: G.avail = [b]
      rw [havail]
    rw [hlist]
    exact ⟨rfl, hinit.avail.2.1, hinit.avail.1⟩
  · intro b' hb'
    by_cases hbb : b' = b
    · subst hbb
      simp [Ghost.mapped, hinit.avail.2.2]
    · rw [(hinit.other b' hbb).2.2.2.2]
      simp only [Ghost.mapped, List.mem_cons, hbb, false_or]
      exact hchains.inAvail b' (((hS b').mp hb').resolve_left hbb)
  · rw [hinit.central]
    change Word.add 64 s.central.numSegments 1 = G.segments.length + 1
    rw [hnum, hcounters.numSegments]
  · rw [hinit.central]
    change Word.add 64 s.central.freePageCount usablePagesPerSegment = _
    rw [hpagecount, hcounters.freePages, hfree, Nat.add_comm]
  · rw [hinit.central]
    change Word.add 64 s.central.freeSegments 1 = _
    rw [hsegs, hcounters.freeSegments, hcount]
  · rw [hinit.central]
    exact hcounters.abandonedCount
  · rw [hinit.central]
    have htotal := hcounters.total
    change s.central.pagesInUse + Word.add 64 s.central.freePageCount usablePagesPerSegment +
      s.central.abandonedCount + G.limbo.toList.length =
        usablePagesPerSegment * Word.add 64 s.central.numSegments 1
    rw [hpagecount, hnum]
    rw [husable] at htotal ⊢
    omega
  · rw [hinit.central]
    change Word.add 64 s.central.freeSegments 1 ≤ segmentCache
    rw [hsegs, hidle]
    decide

/-- `map_segment` after a successful mapping. -/
theorem mapSegment (h : Inv ps s G) {os : Os} {b : Nat}
    (hm : s.os.Mapped os b segmentSize .small) (hb : segmentSize ∣ b)
    (hav : s.central.avail = none) :
    Inv ps (initSegment { s with os := os } b) (G.mapped b) := by
  have hinit := initSegment_spec (s := { s with os := os }) b hav
  generalize initSegment { s with os := os } b = t at hinit
  have hr : RegionsOk os.mapped os.regions :=
    h.regions.map hm (fun _ => ⟨hb, rfl⟩) (by simp)
  have hnone := hm.unmapped_before h.regions
  have hnot : ¬ IsSegment s.os.regions b := by
    unfold IsSegment
    rw [hnone]
    simp
  have hkeep : ∀ b' r, s.os.regions b' = some r → os.regions b' = some r :=
    fun b' r => hm.regions_kept h.regions
  have hback : ∀ b' r, b' ≠ b → os.regions b' = some r → s.os.regions b' = some r := by
    intro b' r hne hb'
    rwa [hm.regions, Function.update_of_ne hne] at hb'
  have hS : ∀ b', IsSegment os.regions b' ↔ b' = b ∨ IsSegment s.os.regions b' := by
    intro b'
    by_cases hbb : b' = b
    · subst hbb
      simp [IsSegment, hm.regions]
    · exact ⟨fun hb' => Or.inr (hback b' _ hbb hb'), fun hb' => hkeep b' _ (hb'.resolve_left hbb)⟩
  have hregions : t.os.regions = os.regions := by rw [hinit.rest]
  have hmapped : t.os.mapped = os.mapped := by rw [hinit.rest]
  have hmem : t.os.mem = fill os.mem b sizeofSegment 0 := by rw [hinit.rest]
  have hold : ∀ pg, IsPage (IsSegment s.os.regions) pg → pg.seg ≠ b := by
    rintro pg hp rfl
    exact hnot hp.1
  -- The new segment and what is written to it lie outside all older regions.
  have hsize : sizeofSegment ≤ segmentSize := by decide
  have hbytes : ∀ b' r, s.os.regions b' = some r → ∀ x, b' ≤ x → x < b' + r.size →
      t.os.mem x = s.os.mem x := by
    intro b' r hb' x hlo hhi
    have hd := hm.disjoint h.regions hb'
    rw [hmem, fill_outside _ _ _ _ _ (by omega)]
    exact hm.mem_old x (h.regions.mapped b' r hb' x hlo hhi)
  have hghost : ∀ pg : PageId, pg.seg ≠ b → (G.mapped b).page pg = G.page pg :=
    fun pg hne => if_neg hne
  refine ⟨?_, ?_, ?_, ?_, ?_, ?_, ?_⟩
  · rw [hmapped, hregions]
    exact hr
  · rw [hregions]
    have htags : TagsOk t.os.mem s.os.regions := by
      apply h.tags.congr
      intro b' r hb' hp x hlo hhi
      have := h.regions.header_fits hb' hp
      exact hbytes b' r hb' x hlo (by omega)
    constructor
    · intro b' size hb'
      by_cases hbb : b' = b
      · subst hbb
        rw [hmem]
        have hpos : 0 < sizeofSegment := by decide
        exact if_pos ⟨Nat.le_refl b', by omega⟩
      · exact htags.small b' size (hback b' _ hbb hb')
    · intro b' size offset hb'
      have hbb : b' ≠ b := by
        rintro rfl
        rw [hm.regions, Function.update_self] at hb'
        cases hb'
      exact htags.large b' size offset (hback b' _ hbb hb')
  · intro pg hpg
    rw [hregions] at hpg
    by_cases hseg : pg.seg = b
    · obtain ⟨harea, huse, howner, hused, htf⟩ := hinit.fresh pg
        ((mem_segmentPages ((hS b).mpr (Or.inl rfl)) pg).mpr ⟨hpg, hseg⟩)
      refine ⟨harea, ?_⟩
      have hg : (G.mapped b).page pg = ⟨[], [], [], .pool⟩ := if_pos hseg
      rw [hg]
      exact ⟨howner, huse, hused, htf, rfl, rfl, rfl⟩
    · have hpg' : IsPage (IsSegment s.os.regions) pg := ⟨hback _ _ hseg hpg.1, hpg.2⟩
      rw [hghost pg hseg, hinit.row pg hseg]
      apply (h.pages pg hpg').congr_outside
      intro x hlo hhi
      have hbounds := hpg'.area_bounds
      exact hbytes pg.seg _ hpg'.1 x (by omega) (by simp only; omega)
  · rw [hregions]
    refine h.mapSegment_lists hinit hav hnot hS ?_
    apply segments_length_le hr
    · refine List.nodup_cons.mpr ⟨?_, h.segments_nodup⟩
      exact fun hmem => hnot (h.isSegment_of_mem hmem)
    · intro b' hb'
      rcases List.mem_cons.mp hb' with rfl | hb'
      · exact (hS b').mpr (Or.inl rfl)
      · exact (hS b').mpr (Or.inr (h.isSegment_of_mem hb'))
  · have hgrants : t.grants = s.grants := by rw [hinit.rest]
    rw [hregions, hgrants]
    constructor
    · intro p g pg i hg ho
      obtain ⟨hpg, hout, hblock, husable, hsz⟩ := h.grants.small p g pg i hg ho
      have hne := hold pg hpg
      have harea : t.page.area pg = s.page.area pg := congrArg PageState.area (hinit.row pg hne)
      have hbs : t.page.blockSize pg = s.page.blockSize pg :=
        congrArg PageState.blockSize (hinit.row pg hne)
      refine ⟨⟨hkeep _ _ hpg.1, hpg.2⟩, ?_, ?_, ?_, hsz⟩
      · rw [hghost pg hne]
        exact hout
      · rw [harea, hbs]
        exact hblock
      · rw [hbs]
        exact husable
    · intro p g b' hg ho
      obtain ⟨size, offset, hb', hrest⟩ := h.grants.large p g b' hg ho
      exact ⟨size, offset, hkeep _ _ hb', hrest⟩
    · intro pg p hpg hp
      by_cases hseg : pg.seg = b
      · simp [Ghost.mapped, hseg] at hp
      · rw [hghost pg hseg] at hp
        exact h.grants.out pg p ⟨hback _ _ hseg hpg.1, hpg.2⟩ hp
  · have hreg : t.registry = s.registry := by rw [hinit.rest]
    rw [hregions, hreg]
    exact fun hslots => hkeep _ _ (h.table hslots)
  · have hne : emptyPage.seg ≠ b := fun heq => hm.ne_zero heq.symm
    have hfree : t.page.free emptyPage = s.page.free emptyPage :=
      congrArg PageState.free (hinit.row emptyPage hne)
    rw [hfree]
    exact h.sentinel

/-- The end of `pool_return`: the idle segment is unmapped. -/
theorem unmapSegment (h : Inv ps s G) {b : Nat} (hdying : G.dying = some b) :
    Inv ps { s with os := osFree s.os b (s.seg.mmapSize b) } (G.unmapped b) := by
  have hplaces := h.lists.places
  have hchains := h.lists.chains
  have hcounters := h.lists.counters
  obtain ⟨hb, hfull⟩ := hplaces.dying b hdying
  have hnod := h.pool_nodup hb
  rw [hchains.mmapSize b hb]
  obtain ⟨hmem, hregions, hr⟩ := osFree_region h.regions hb
  simp only at hmem hregions hr
  generalize osFree s.os b segmentSize = os at hmem hregions hr
  have hback : ∀ b' r, os.regions b' = some r → b' ≠ b ∧ s.os.regions b' = some r := by
    intro b' r hb'
    rw [hregions] at hb'
    exact PartialMap.erase_eq_some.mp hb'
  have hkeep : ∀ b' r, b' ≠ b → s.os.regions b' = some r → os.regions b' = some r := by
    intro b' r hne hb'
    rw [hregions, Function.update_of_ne hne]
    exact hb'
  have hS : ∀ b', IsSegment os.regions b' ↔ b' ≠ b ∧ IsSegment s.os.regions b' :=
    fun b' => ⟨hback b' _, fun hb' => hkeep b' _ hb'.1 hb'.2⟩
  have hnot : b ∉ G.segments := fun hmem => ((hplaces.segments b).mp hmem).2 hdying
  have hpools : ∀ b' ∈ G.segments, (G.unmapped b).pool b' = G.pool b' := by
    intro b' hb'
    have hne : b' ≠ b := by
      rintro rfl
      exact hnot hb'
    exact Function.update_of_ne hne _ _
  refine ⟨hr, ?_, ?_, ?_, ?_, ?_, h.sentinel⟩
  · change TagsOk os.mem os.regions
    rw [hmem]
    exact ⟨fun b' sz hb' => h.tags.small b' sz (hback b' _ hb').2,
      fun b' sz o hb' => h.tags.large b' sz o (hback b' _ hb').2⟩
  · intro pg hpg
    change IsPage (IsSegment os.regions) pg at hpg
    change PageOk os.mem _ _ _
    rw [hmem]
    exact h.pages pg ⟨(hback _ _ hpg.1).2, hpg.2⟩
  · refine ⟨hplaces.unmapped hdying hnod hS, ⟨?_, ?_, ?_, hchains.abandoned, hchains.segments,
      hchains.avail, ?_⟩, ⟨hcounters.numSegments, ?_, ?_, hcounters.abandonedCount,
      hcounters.total⟩, h.lists.cache⟩
    · intro b' hb'
      obtain ⟨hbb, hold⟩ := (hS b').mp hb'
      simp only [Ghost.unmapped, Function.update_of_ne hbb]
      exact hchains.pool b' hold
    · intro b' hb'
      obtain ⟨hbb, hold⟩ := (hS b').mp hb'
      simp only [Ghost.unmapped, Function.update_of_ne hbb]
      exact hchains.freeCount b' hold
    · exact fun b' hb' => hchains.mmapSize b' ((hS b').mp hb').2
    · exact fun b' hb' => hchains.inAvail b' ((hS b').mp hb').2
    · rw [hcounters.freePages]
      unfold Ghost.freePages
      exact congrArg List.sum (List.map_congr_left (fun b' hb' => by rw [hpools b' hb']))
    · rw [hcounters.freeSegments]
      unfold Ghost.idleSegments
      exact List.countP_congr (fun b' hb' => by rw [hpools b' hb'])
  · refine h.grants.anti hregions ?_ ?_
    · rintro p g pg i hg ho rfl
      obtain ⟨hpg, hout, _⟩ := h.grants.small p g pg i hg ho
      have hloc := ((hplaces.pool _ pg).mp (hplaces.mem_full_pool hb hnod hfull hpg rfl)).2.2
      have hvacant := (h.pages pg hpg).loc
      unfold LocOk at hvacant
      rw [hloc] at hvacant
      rw [hvacant.2.2.out] at hout
      cases hout
    · intro p g hg ho
      obtain ⟨size, offset, hlarge, _⟩ := h.grants.large p g b hg ho
      unfold IsSegment at hb
      rw [hb] at hlarge
      cases hlarge
  · intro hslots
    have hold := h.table hslots
    refine hkeep _ _ ?_ hold
    intro heq
    change s.registry.slots = b at heq
    unfold IsSegment at hb
    rw [heq, hb, Option.some.injEq] at hold
    exact absurd (congrArg Region.purpose hold) (by simp)

end Inv

end HMalloc
