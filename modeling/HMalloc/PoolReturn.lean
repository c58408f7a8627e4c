import HMalloc.CentralOps

/-!
Returning pages. A page leaves its class list or the abandoned list for a
moment (`Ghost.release`), goes back to the pool of its segment, and the segment
leaves the lists when it is one idle segment too many. Abandoning moves a page
from its class list to the abandoned list.
-/

namespace HMalloc

open Bytes Linked

theorem head_ne_of_nodup {l r : List Nat} {b : Nat} (hnod : (l ++ b :: r).Nodup) (hl : l ≠ []) :
    (l ++ b :: r).head? ≠ some b := by
  obtain ⟨y, l, rfl⟩ := List.exists_cons_of_ne_nil hl
  simp only [List.cons_append, List.head?_cons, ne_eq, Option.some.injEq]
  rintro rfl
  exact (List.nodup_cons.mp hnod).1 (by simp)

/-- The loop of `all_remove` finds the predecessor `q` and links it past `b`. -/
theorem allRemoveLoop_spec {next : Nat → Option Nat} {b q fuel : Nat} {head : Option Nat}
    {l r : List Nat} (h : Chain next head (l ++ [q] ++ b :: r)) (hfuel : l.length < fuel) :
    allRemoveLoop next b fuel head = some (Function.update next q (next b)) := by
  induction l generalizing head fuel with
  | nil =>
      obtain ⟨fuel, rfl⟩ : ∃ k, fuel = k + 1 := ⟨fuel - 1, by simp at hfuel; omega⟩
      obtain ⟨rfl, hq, _⟩ := h
      simp [allRemoveLoop, hq]
  | cons x l ih =>
      simp only [List.length_cons] at hfuel
      obtain ⟨fuel, rfl⟩ : ∃ k, fuel = k + 1 := ⟨fuel - 1, by omega⟩
      obtain ⟨rfl, htail⟩ := h
      have hne : next x ≠ some b := by
        rw [Chain.head_eq htail]
        exact head_ne_of_nodup (Chain.nodup htail) (by simp)
      rw [allRemoveLoop, if_neg hne]
      exact ih htail (by omega)

/-- `all_remove`. -/
theorem allRemove_spec {s : Store} {b : Nat} {l r : List Nat}
    (h : Chain s.seg.next s.central.segments (l ++ b :: r))
    (hnum : s.central.numSegments = (l ++ b :: r).length) :
    ∃ next segments, allRemove s b = some { s with
        seg := { s.seg with next := next }
        central := { s.central with segments := segments } } ∧
      Chain next segments (l ++ r) := by
  rcases List.eq_nil_or_concat l with rfl | ⟨l, q, rfl⟩
  · obtain ⟨hhead, htail⟩ := h
    exact ⟨s.seg.next, s.seg.next b, by rw [allRemove, if_pos hhead], htail⟩
  · rw [List.concat_eq_append] at h hnum ⊢
    have hne : s.central.segments ≠ some b := by
      rw [h.head_eq]
      exact head_ne_of_nodup h.nodup (by simp)
    have hfuel : l.length < s.central.numSegments := by
      simp only [hnum, List.length_append, List.length_cons]
      omega
    have hloop := allRemoveLoop_spec h hfuel
    have hq : q ∉ r := by
      intro hq
      have hdisj := (List.nodup_append.mp h.nodup).2.2 q (by simp) q (by simp [hq])
      exact hdisj rfl
    refine ⟨Function.update s.seg.next q (s.seg.next b), s.central.segments, ?_, ?_⟩
    · rw [allRemove, if_neg hne]
      simp only [hloop, Option.bind_eq_bind, Option.bind_some]
      rfl
    · have hchain : Chain (Function.update s.seg.next q (s.seg.next b))
          (if l ++ [q] = [] then s.seg.next b else s.central.segments) (l ++ [q] ++ r) := by
        apply h.unlink
        · intro x hx
          simp only [List.getLast?_append, List.getLast?_singleton, Option.some_or,
            Option.some.injEq] at hx
          rw [← hx, Function.update_self]
        · intro x _ hx
          rw [Function.update_of_ne]
          rintro rfl
          simp at hx
        · intro x hx
          rw [Function.update_of_ne]
          rintro rfl
          exact hq hx
      rwa [if_neg (by simp)] at hchain

/-- The page in transit goes back to the pool of its segment `b`. -/
def Ghost.put (G : Ghost) (b : Nat) (pg : PageId) : Ghost :=
  { G with
    page := Function.update G.page pg ⟨[], [], [], .pool⟩
    pool := Function.update G.pool b (pg :: G.pool b)
    avail := if G.pool b = [] then b :: G.avail else G.avail
    limbo := none }

/-- An idle segment leaves the lists. -/
def Ghost.drop (G : Ghost) (b : Nat) : Ghost :=
  { G with
    segments := G.segments.erase b
    avail := G.avail.erase b
    dying := some b }

section Put

variable {S : Nat → Prop} {G : Ghost} {b : Nat} {pg : PageId}

theorem PlacesOk.put (h : PlacesOk S G) (hlimbo : G.limbo = some pg) (hseg : pg.seg = b)
    (hb : b ∈ G.segments) : PlacesOk S (G.put b pg) := by
  obtain ⟨hpg, hloc⟩ := (h.limbo pg).mp hlimbo
  refine h.move hpg rfl ?_ ?_ ?_ ?_ rfl rfl ?_ ?_
  · intro b' q
    by_cases hb' : b' = b
    · subst hb'
      by_cases hq : q = pg
      · subst hq
        simp [Ghost.put, hseg]
      · simp [Ghost.put, hq]
    · have hne : b ≠ b' := fun heq => hb' heq.symm
      by_cases hq : q = pg
      · subst hq
        simp [Ghost.put, Function.update_of_ne hb', hseg, hne, h.pool, hloc]
      · simp [Ghost.put, Function.update_of_ne hb', hq]
  · intro q
    by_cases hq : q = pg
    · subst hq
      simp [Ghost.put, h.abandoned, hloc]
    · simp [Ghost.put, hq]
  · intro k c q
    by_cases hq : q = pg
    · subst hq
      simp [Ghost.put, h.cls, hloc]
    · simp [Ghost.put, hq]
  · intro q
    by_cases hq : q = pg
    · subst hq
      simp [Ghost.put]
    · simp only [Ghost.put, hq, if_false, reduceCtorEq, hlimbo, Option.some.injEq, false_iff]
      exact fun heq => hq heq.symm
  · intro x
    have hav := h.avail x
    by_cases hx : x = b
    · subst hx
      by_cases hnil : G.pool x = []
      · simp [Ghost.put, hnil, hb]
      · simp [Ghost.put, hnil, hav, hb]
    · by_cases hnil : G.pool b = []
      · simp [Ghost.put, hnil, hav, hx]
      · simp [Ghost.put, hnil, hav, Function.update_of_ne hx]
  · intro x hx
    have hne : x ≠ b := by
      rintro rfl
      exact ((h.segments x).mp hb).2 hx
    simp [Ghost.put, Function.update_of_ne hne]

theorem ChainsOk.put {next : PageId → Option PageId} {seg : Segments} (seg' : Segments)
    {central : Central} (central' : Central) (h : ChainsOk S next seg central G)
    (hp : PlacesOk S G) (hlimbo : G.limbo = some pg)
    (hfreeList : seg'.freeList = Function.update seg.freeList b (some pg))
    (hfreeCount : seg'.freeCount = Function.update seg.freeCount b ((G.pool b).length + 1))
    (hmmapSize : seg'.mmapSize = seg.mmapSize) (hnext : seg'.next = seg.next)
    (habandoned : central'.abandoned = central.abandoned)
    (hsegments : central'.segments = central.segments)
    (havail : DList seg'.availNext seg'.availPrev central'.avail (G.put b pg).avail)
    (hinAvail : ∀ x, S x → (seg'.inAvail x = true ↔ x ∈ (G.put b pg).avail)) :
    ChainsOk S (Function.update next pg (seg.freeList b)) seg' central' (G.put b pg) := by
  have hloc := ((hp.limbo pg).mp hlimbo).2
  have hnot : ∀ x, pg ∉ G.pool x := by
    intro x hmem
    have := ((hp.pool x pg).mp hmem).2.2
    rw [hloc] at this
    cases this
  have hsame : ∀ x, ∀ q ∈ G.pool x, Function.update next pg (seg.freeList b) q = next q := by
    intro x q hq
    rw [Function.update_of_ne]
    rintro rfl
    exact hnot x hq
  refine ⟨?_, ?_, ?_, ?_, ?_, havail, hinAvail⟩
  · intro x hx
    rw [hfreeList]
    by_cases hxb : x = b
    · subst hxb
      simp only [Ghost.put, Function.update_self]
      exact (h.pool x hx).push (Function.update_self ..) (hsame x)
    · simp only [Ghost.put, Function.update_of_ne hxb]
      exact (h.pool x hx).congr (hsame x)
  · intro x hx
    rw [hfreeCount]
    by_cases hxb : x = b
    · subst hxb
      simp [Ghost.put]
    · simp [Ghost.put, Function.update_of_ne hxb, h.freeCount x hx]
  · intro x hx
    rw [hmmapSize]
    exact h.mmapSize x hx
  · rw [habandoned]
    apply h.abandoned.congr
    intro q hq
    rw [Function.update_of_ne]
    rintro rfl
    have := ((hp.abandoned q).mp hq).2
    rw [hloc] at this
    cases this
  · rw [hnext, hsegments]
    exact h.segments

theorem CountersOk.put {central : Central} (central' : Central) (h : CountersOk central G)
    (hseg : G.segments.Nodup) (hb : b ∈ G.segments) (hlimbo : G.limbo = some pg)
    (hle : (G.pool b).length < usablePagesPerSegment) (hbound : G.segments.length ≤ 2 ^ 42)
    (hnum : central'.numSegments = central.numSegments)
    (hfree : central'.freePageCount = Word.add 64 central.freePageCount 1)
    (hidle : central'.freeSegments =
      if (G.pool b).length + 1 = usablePagesPerSegment then Word.add 64 central.freeSegments 1
      else central.freeSegments)
    (huse : central'.pagesInUse = central.pagesInUse)
    (hab : central'.abandonedCount = central.abandonedCount) :
    CountersOk central' (G.put b pg) := by
  have husable : usablePagesPerSegment = 63 := by decide
  have hsum := G.freePages_update hseg hb (pg :: G.pool b)
  have hcount := G.idleSegments_update hseg hb (pg :: G.pool b)
  change (G.put b pg).freePages + _ = _ at hsum
  change (G.put b pg).idleSegments + _ = _ at hcount
  have htotal := h.total
  have h1 := h.numSegments
  have h2 := h.freePages
  have h3 := h.freeSegments
  have hidleLe : G.idleSegments ≤ G.segments.length := List.countP_le_length
  have hold : ((G.pool b).length == usablePagesPerSegment) = false := by
    simp only [beq_eq_false_iff_ne, ne_eq]
    omega
  rw [hold, Bool.toNat_false, List.length_cons] at hcount
  rw [List.length_cons] at hsum
  rw [husable, hlimbo] at htotal
  simp only [Option.toList_some, List.length_cons, List.length_nil] at htotal
  have hadd : Word.add 64 central.freePageCount 1 = central.freePageCount + 1 :=
    Word.add_eq (by omega)
  refine ⟨hnum.trans h1, ?_, ?_, hab.trans h.abandonedCount, ?_⟩
  · rw [hfree, hadd]
    omega
  · rw [hidle]
    by_cases hfull : (G.pool b).length + 1 = usablePagesPerSegment
    · rw [hfull, beq_self_eq_true, Bool.toNat_true] at hcount
      rw [if_pos hfull, Word.add_eq (by omega)]
      omega
    · have hnot : ((G.pool b).length + 1 == usablePagesPerSegment) = false := by
        simpa using hfull
      rw [hnot, Bool.toNat_false] at hcount
      rw [if_neg hfull]
      omega
  · rw [hfree, huse, hab, hnum, hadd, husable]
    change _ + (none : Option PageId).toList.length = _
    simp only [Option.toList_none, List.length_nil]
    omega

end Put

section Drop

variable {S : Nat → Prop} {G : Ghost} {b : Nat}

theorem PlacesOk.drop (h : PlacesOk S G) (hdying : G.dying = none) (hb : b ∈ G.segments)
    (hfull : (G.pool b).length = usablePagesPerSegment) (hseg : G.segments.Nodup)
    (hav : G.avail.Nodup) : PlacesOk S (G.drop b) :=
  { h with
    segments := by
      intro x
      have hx := h.segments x
      simp only [hdying, ne_eq, reduceCtorEq, not_false_eq_true, and_true] at hx
      simp only [Ghost.drop, hseg.mem_erase_iff, hx, ne_eq, Option.some.injEq]
      rw [and_comm, eq_comm]
    avail := by
      intro x
      simp only [Ghost.drop, hseg.mem_erase_iff, hav.mem_erase_iff, h.avail x]
      tauto
    dying := by
      intro x hx
      simp only [Ghost.drop, Option.some.injEq] at hx
      subst hx
      exact ⟨((h.segments b).mp hb).1, hfull⟩ }

theorem CountersOk.drop {central : Central} (central' : Central) (h : CountersOk central G)
    (hb : b ∈ G.segments) (hfull : (G.pool b).length = usablePagesPerSegment)
    (hbound : G.segments.length ≤ 2 ^ 42)
    (hnum : central'.numSegments = Word.sub 64 central.numSegments 1)
    (hidle : central'.freeSegments = Word.sub 64 central.freeSegments 1)
    (hfree : central'.freePageCount =
      Word.sub 64 central.freePageCount usablePagesPerSegment)
    (huse : central'.pagesInUse = central.pagesInUse)
    (hab : central'.abandonedCount = central.abandonedCount) :
    CountersOk central' (G.drop b) ∧ central'.freeSegments + 1 = central.freeSegments := by
  have husable : usablePagesPerSegment = 63 := by decide
  have hlen : (G.drop b).segments.length + 1 = G.segments.length := by
    have hpos := List.length_pos_of_mem hb
    simp only [Ghost.drop, List.length_erase_of_mem hb]
    omega
  have hsum : (G.pool b).length + (G.drop b).freePages = G.freePages :=
    List.sum_map_erase (fun x => (G.pool x).length) hb
  have hcount : (G.drop b).idleSegments + 1 = G.idleSegments := by
    have hperm := (List.perm_cons_erase hb).countP_eq
      (fun x => (G.pool x).length == usablePagesPerSegment)
    rw [List.countP_cons_of_pos (by simpa using hfull)] at hperm
    exact hperm.symm
  have htotal := h.total
  have h1 := h.numSegments
  have h2 := h.freePages
  have h3 := h.freeSegments
  have hidleLe : G.idleSegments ≤ G.segments.length := List.countP_le_length
  rw [husable] at htotal hfull hfree
  have hs1 : Word.sub 64 central.numSegments 1 = central.numSegments - 1 :=
    Word.sub_eq (by omega) (by omega)
  have hs2 : Word.sub 64 central.freeSegments 1 = central.freeSegments - 1 :=
    Word.sub_eq (by omega) (by omega)
  have hs3 : Word.sub 64 central.freePageCount 63 = central.freePageCount - 63 :=
    Word.sub_eq (by omega) (by omega)
  refine ⟨⟨?_, ?_, ?_, hab.trans h.abandonedCount, ?_⟩, ?_⟩
  · rw [hnum, hs1]
    omega
  · rw [hfree, hs3]
    omega
  · rw [hidle, hs2]
    omega
  · rw [hfree, huse, hab, hnum, hs1, hs3, husable]
    change _ + G.limbo.toList.length = _
    omega
  · rw [hidle, hs2]
    omega

end Drop

namespace Inv

variable {ps : PageSize} {s : Store} {G : Ghost} {pg : PageId}

/-- The page in transit is put into its pool, up to the check for an idle
segment; `count` is what `free_segments` is set to next. -/
theorem poolInsert_lists (h : Inv ps s G) (hlimbo : G.limbo = some pg) (hdying : G.dying = none) :
    let s' := poolInsert s pg pg.seg
    PlacesOk (IsSegment s.os.regions) (G.put pg.seg pg) ∧
      ChainsOk (IsSegment s.os.regions) s'.page.next s'.seg s'.central (G.put pg.seg pg) ∧
      CountersOk { s'.central with
        freeSegments :=
          if (G.pool pg.seg).length + 1 = usablePagesPerSegment
          then Word.add 64 s.central.freeSegments 1 else s.central.freeSegments }
        (G.put pg.seg pg) ∧
      s'.seg.freeCount pg.seg = (G.pool pg.seg).length + 1 ∧
      s'.central.freeSegments = s.central.freeSegments ∧
      s'.central.mtx = s.central.mtx ∧
      s' = { s with
        page := (poolPush s pg pg.seg).page, seg := s'.seg, central := s'.central } := by
  obtain ⟨hpg, hloc⟩ := (h.lists.places.limbo pg).mp hlimbo
  have hseg := hpg.1
  have hb : pg.seg ∈ G.segments := (h.lists.places.segments pg.seg).mpr ⟨hseg, by simp [hdying]⟩
  have hnotin : pg ∉ G.pool pg.seg := by
    intro hmem
    have := ((h.lists.places.pool pg.seg pg).mp hmem).2.2
    rw [hloc] at this
    cases this
  have hlt : (G.pool pg.seg).length < usablePagesPerSegment := by
    refine Nat.lt_of_le_of_ne (h.pool_le hseg) ?_
    intro hfull
    exact hnotin (h.lists.places.mem_full_pool hseg (h.pool_nodup hseg) hfull hpg rfl)
  have husable : usablePagesPerSegment = 63 := by decide
  have hcount : s.seg.freeCount pg.seg = (G.pool pg.seg).length :=
    h.lists.chains.freeCount pg.seg hseg
  have hadd : Word.add 32 (s.seg.freeCount pg.seg) 1 = (G.pool pg.seg).length + 1 := by
    rw [Word.add_eq (by omega), hcount]
  have hcol : (poolPush s pg pg.seg).seg.freeCount =
      Function.update s.seg.freeCount pg.seg ((G.pool pg.seg).length + 1) := by
    simp only [poolPush, hadd]
  have hplaces := h.lists.places.put hlimbo rfl hb
  by_cases hnil : G.pool pg.seg = []
  · have heq : poolInsert s pg pg.seg = availPush (poolPush s pg pg.seg) pg.seg := by
      rw [poolInsert]
      exact if_pos (by rw [hcount, hnil]; rfl)
    have hghost : (G.put pg.seg pg).avail = pg.seg :: G.avail := by
      simp [Ghost.put, hnil]
    have hnew : pg.seg ∉ G.avail := by
      intro hmem
      exact ((h.lists.places.avail pg.seg).mp hmem).2 hnil
    simp only [heq]
    refine ⟨hplaces, ?_, ?_, ?_, rfl, rfl, rfl⟩
    · refine ChainsOk.put (availPush (poolPush s pg pg.seg) pg.seg).seg
        (availPush (poolPush s pg pg.seg) pg.seg).central h.lists.chains h.lists.places hlimbo
        rfl hcol rfl rfl rfl rfl ?_ ?_
      · rw [hghost]
        exact availPush_avail (s := poolPush s pg pg.seg) h.lists.chains.avail hnew
      · intro x hx
        rw [hghost]
        change Function.update s.seg.inAvail pg.seg true x = true ↔ _
        by_cases hxb : x = pg.seg
        · simp [hxb]
        · rw [Function.update_of_ne hxb, h.lists.chains.inAvail x hx]
          simp [hxb]
    · exact CountersOk.put _ h.lists.counters h.segments_nodup hb hlimbo hlt h.segments_bound
        rfl rfl rfl rfl rfl
    · exact congrFun hcol pg.seg |>.trans (Function.update_self ..)
  · have heq : poolInsert s pg pg.seg = poolPush s pg pg.seg := by
      rw [poolInsert]
      refine if_neg ?_
      rw [hcount]
      simpa using hnil
    have hghost : (G.put pg.seg pg).avail = G.avail := by
      simp [Ghost.put, hnil]
    simp only [heq]
    refine ⟨hplaces, ?_, ?_, ?_, rfl, rfl, rfl⟩
    · refine ChainsOk.put (poolPush s pg pg.seg).seg (poolPush s pg pg.seg).central
        h.lists.chains h.lists.places hlimbo rfl hcol rfl rfl rfl rfl ?_ ?_
      · rw [hghost]
        exact h.lists.chains.avail
      · intro x hx
        rw [hghost]
        exact h.lists.chains.inAvail x hx
    · exact CountersOk.put _ h.lists.counters h.segments_nodup hb hlimbo hlt h.segments_bound
        rfl rfl rfl rfl rfl
    · exact congrFun hcol pg.seg |>.trans (Function.update_self ..)

end Inv

theorem erase_middle {l r : List Nat} {b : Nat} (hnod : (l ++ b :: r).Nodup) :
    (l ++ b :: r).erase b = l ++ r := by
  have hb : b ∉ l := by
    intro hmem
    exact (List.nodup_append.mp hnod).2.2 b hmem b (by simp) rfl
  rw [List.erase_append_right _ hb, List.erase_cons_head]

/-- The bookkeeping that drops a segment. -/
theorem dropSegment_spec {s : Store} {b : Nat} {segs av : List Nat} (hb : b ∈ segs)
    (hav : b ∈ av) (hchain : Chain s.seg.next s.central.segments segs)
    (hdlist : DList s.seg.availNext s.seg.availPrev s.central.avail av)
    (hnum : s.central.numSegments = segs.length) :
    ∃ s', dropSegment s b = some s' ∧
      s' = { s with seg := s'.seg, central := s'.central } ∧
      Chain s'.seg.next s'.central.segments (segs.erase b) ∧
      DList s'.seg.availNext s'.seg.availPrev s'.central.avail (av.erase b) ∧
      s'.seg.freeList = s.seg.freeList ∧ s'.seg.freeCount = s.seg.freeCount ∧
      s'.seg.mmapSize = s.seg.mmapSize ∧
      s'.seg.inAvail = Function.update s.seg.inAvail b false ∧
      s'.central = { s.central with
        segments := s'.central.segments
        avail := s'.central.avail
        numSegments := Word.sub 64 s.central.numSegments 1
        freeSegments := Word.sub 64 s.central.freeSegments 1
        freePageCount := Word.sub 64 s.central.freePageCount usablePagesPerSegment } := by
  obtain ⟨l, r, rfl⟩ := List.append_of_mem hb
  obtain ⟨l', r', rfl⟩ := List.append_of_mem hav
  rw [erase_middle hchain.nodup, erase_middle hdlist.nodup]
  obtain ⟨next, segments, heq, hsegs⟩ :=
    allRemove_spec (s := availRemove s b) hchain hnum
  refine ⟨{ availRemove s b with
      seg := { (availRemove s b).seg with next := next }
      central := { (availRemove s b).central with
        segments := segments
        numSegments := Word.sub 64 s.central.numSegments 1
        freeSegments := Word.sub 64 s.central.freeSegments 1
        freePageCount := Word.sub 64 s.central.freePageCount usablePagesPerSegment } },
    ?_, rfl, hsegs, availRemove_avail hdlist, rfl, rfl, rfl, rfl, rfl⟩
  simp only [dropSegment, heq, Option.bind_eq_bind, Option.bind_some]
  rfl

namespace Inv

variable {ps : PageSize} {s : Store} {G : Ghost} {pg : PageId}

/-- The page in transit after it has been put into its pool. -/
theorem put_page (h : Inv ps s G) (hlimbo : G.limbo = some pg) {G' : Ghost} {seg : Segments}
    {central : Central} (hG : G'.page = (G.put pg.seg pg).page)
    (hlists : ListsOk (IsSegment s.os.regions) (poolPush s pg pg.seg).page.next seg central G') :
    Inv ps { s with page := (poolPush s pg pg.seg).page, seg := seg, central := central } G' := by
  obtain ⟨hpg, hloc⟩ := (h.lists.places.limbo pg).mp hlimbo
  have hvac : Vacant (s.page.row pg) (G.page pg) := by
    have hl := (h.pages pg hpg).loc
    rw [LocOk, hloc] at hl
    exact hl
  refine h.movePage hpg _ _ _ ?_ ?_ ?_ ?_ ?_ hlists
  · intro q hq
    simp [poolPush, Pages.row, Function.update_of_ne hq]
  · refine ⟨(h.pages pg hpg).area, ?_⟩
    simp only [hG, Ghost.put, Function.update_self, LocOk]
    refine ⟨by simp [poolPush, Pages.row], by simp [poolPush, Pages.row], ?_⟩
    exact ⟨hvac.used, hvac.threadFree, rfl, rfl, rfl⟩
  · intro q hq
    simp [hG, Ghost.put, Function.update_of_ne hq]
  · simp [hG, Ghost.put, hvac.out]
  · intro hout
    exact absurd hvac.out hout

/-- `pool_return` up to the unmapping: the page goes to the pool, and when that
leaves one idle segment too many, its segment leaves the lists. -/
theorem poolReturn (h : Inv ps s G) (hlimbo : G.limbo = some pg) (hdying : G.dying = none) :
    ∃ s' dead, HMalloc.poolReturn s pg = some (s', dead) ∧ MoveStep G pg s s' ∧
      ((dead = none ∧ Inv ps s' (G.put pg.seg pg)) ∨
        (dead = some pg.seg ∧ 0 < s.central.freeSegments ∧
          Inv ps s' ((G.put pg.seg pg).drop pg.seg))) := by
  obtain ⟨hpg, hloc⟩ := (h.lists.places.limbo pg).mp hlimbo
  have hbase : regionBase (s.page.area pg) = pg.seg := by
    have harea : s.page.area pg = pg.start := (h.pages pg hpg).area
    rw [harea]
    exact (h.regions.pageOf_area hpg (Nat.le_refl _) (Nat.lt_add_of_pos_right (by decide))).1
  obtain ⟨hplaces, hchains, hcounters, hcount, hidle, hmtx, heq⟩ :=
    h.poolInsert_lists hlimbo hdying
  have hcache := h.lists.cache
  have hfs : s.central.freeSegments < 2 ^ 64 - 1 := by
    simp only [segmentCache] at hcache
    omega
  have hadd : Word.add 64 s.central.freeSegments 1 = s.central.freeSegments + 1 :=
    Word.add_eq (by omega)
  have hmove : ∀ s' : Store,
      s' = { s with page := (poolPush s pg pg.seg).page, seg := s'.seg, central := s'.central } →
      s'.central.mtx = s.central.mtx → MoveStep G pg s s' := by
    intro s' hs' hm
    refine ⟨by rw [hs'], hm, ?_, ?_, ?_⟩
    · intro q hq _
      rw [hs']
      simp [poolPush, Function.update_of_ne hq]
    · intro q hq
      rw [hs']
      simp [Pages.row, poolPush, Function.update_of_ne hq]
    · intro p g _ x _ _
      rw [hs']
  unfold HMalloc.poolReturn
  simp only [hbase]
  by_cases hfull : (G.pool pg.seg).length + 1 = usablePagesPerSegment
  · rw [if_pos (hcount.trans hfull)]
    rw [if_pos hfull, hadd] at hcounters
    rw [hidle, hadd]
    by_cases hmany : s.central.freeSegments + 1 > segmentCache
    · -- One idle segment too many: it leaves the lists.
      rw [if_pos hmany]
      have hb : pg.seg ∈ (G.put pg.seg pg).segments :=
        (hplaces.segments pg.seg).mpr ⟨hpg.1, by simp [Ghost.put, hdying]⟩
      have hav : pg.seg ∈ (G.put pg.seg pg).avail :=
        (hplaces.avail pg.seg).mpr ⟨hb, by simp [Ghost.put]⟩
      have hlen : ((G.put pg.seg pg).pool pg.seg).length = usablePagesPerSegment := by
        simpa [Ghost.put] using hfull
      obtain ⟨s', hdrop, hrest, hsegs, havail, hfl, hfc, hms, hin, hcent⟩ :=
        dropSegment_spec (s := { poolInsert s pg pg.seg with
          central := { (poolInsert s pg pg.seg).central with
            freeSegments := s.central.freeSegments + 1 } }) hb hav hchains.segments hchains.avail
          hcounters.numSegments
      have hs' : s' = { s with
          page := (poolPush s pg pg.seg).page, seg := s'.seg, central := s'.central } := by
        rw [heq] at hrest
        exact hrest
      refine ⟨s', some pg.seg, by simp only [hdrop]; rfl, hmove s' hs' ?_,
        Or.inr ⟨rfl, Nat.lt_of_succ_lt_succ hmany, ?_⟩⟩
      · rw [hcent]
        exact hmtx
      · obtain ⟨hc, hle⟩ := CountersOk.drop s'.central hcounters hb hlen h.segments_bound
          (by rw [hcent]) (by rw [hcent]) (by rw [hcent]) (by rw [hcent]) (by rw [hcent])
        rw [hs']
        refine h.put_page hlimbo rfl ⟨?_, ?_, hc, ?_⟩
        · exact hplaces.drop hdying hb hlen h.segments_nodup hchains.avail.nodup
        · refine ⟨?_, ?_, ?_, ?_, hsegs, havail, ?_⟩
          · intro x hx
            have hp := hchains.pool x hx
            rw [heq] at hp
            rw [hfl, heq]
            exact hp
          · intro x hx
            rw [hfc]
            exact hchains.freeCount x hx
          · intro x hx
            rw [hms]
            exact hchains.mmapSize x hx
          · have hp := hchains.abandoned
            rw [heq] at hp
            rw [hcent]
            exact hp
          · intro x hx
            rw [hin]
            have hmem : x ∈ ((G.put pg.seg pg).drop pg.seg).avail ↔
                x ≠ pg.seg ∧ x ∈ (G.put pg.seg pg).avail := hchains.avail.nodup.mem_erase_iff
            rw [hmem]
            by_cases hxb : x = pg.seg
            · simp [hxb]
            · rw [Function.update_of_ne hxb]
              simpa [hxb] using hchains.inAvail x hx
        · simp only at hle
          omega
    · rw [if_neg hmany]
      refine ⟨_, none, rfl, hmove _ (by rw [heq]) hmtx, Or.inl ⟨rfl, ?_⟩⟩
      rw [heq]
      refine h.put_page hlimbo rfl ⟨hplaces, ?_, hcounters, Nat.not_lt.mp hmany⟩
      rw [heq] at hchains
      exact { hchains with }
  · rw [if_neg (by rw [hcount]; exact hfull)]
    rw [if_neg hfull] at hcounters
    refine ⟨_, none, rfl, hmove _ heq hmtx, Or.inl ⟨rfl, ?_⟩⟩
    rw [heq]
    refine h.put_page hlimbo rfl ⟨hplaces, ?_, ?_, hidle ▸ hcache⟩
    · rw [heq] at hchains
      exact hchains
    · rw [← hidle] at hcounters
      exact hcounters

end Inv

end HMalloc
