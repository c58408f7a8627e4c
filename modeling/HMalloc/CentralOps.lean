import HMalloc.CentralGhost

/-!
The operations of the central heap keep the invariant: taking a page from the
pool, returning one, dropping an idle segment, abandoning a page and unlinking
an abandoned one.
-/

namespace HMalloc

open Bytes Linked

section Avail

variable {s : Store} {b : Nat}

/-- `avail_push`. -/
theorem availPush_avail {l : List Nat}
    (h : DList s.seg.availNext s.seg.availPrev s.central.avail l) (hb : b ∉ l) :
    DList (availPush s b).seg.availNext (availPush s b).seg.availPrev
      (availPush s b).central.avail (b :: l) := by
  have hmem : ∀ a, s.central.avail = some a → a ∈ l := by
    intro a ha
    have hhead := h.toChain.head_eq
    rw [ha] at hhead
    exact List.mem_of_head? hhead.symm
  have hne : ∀ x ∈ l, x ≠ b := fun x hx heq => hb (heq ▸ hx)
  apply h.push
  · exact Function.update_self ..
  · change assign _ s.central.avail _ b = none
    rw [assign_apply, if_neg (fun ha => hb (hmem b ha)), Function.update_self]
  · intro x hx
    exact Function.update_of_ne (hne x hx) ..
  · intro x hx
    change assign _ s.central.avail _ x = _
    rw [assign_apply, Function.update_of_ne (hne x hx)]

/-- `avail_remove`. -/
theorem availRemove_avail {l r : List Nat}
    (h : DList s.seg.availNext s.seg.availPrev s.central.avail (l ++ b :: r)) :
    DList (availRemove s b).seg.availNext (availRemove s b).seg.availPrev
      (availRemove s b).central.avail (l ++ r) := by
  have hne : ∀ x ∈ l ++ r, x ≠ b := by
    rintro x hx rfl
    have hnod := h.nodup
    rw [List.nodup_middle, List.nodup_cons] at hnod
    exact hnod.1 hx
  apply h.unlink
  · intro x hx
    change Function.update (assign _ _ _) b none x = _
    rw [Function.update_of_ne (hne x hx), assign_apply]
  · intro x hx
    change Function.update (assign _ _ _) b none x = _
    rw [Function.update_of_ne (hne x hx), assign_apply]

end Avail

/-- A page is taken from the pool of segment `b` for class `c` of heap `h`. -/
def Ghost.take (G : Ghost) (b : Nat) (pg : PageId) (rest : List PageId) (h c : Nat) : Ghost :=
  { G with
    page := Function.update G.page pg ⟨[], [], [], .held h c⟩
    cls := Function.update G.cls h (Function.update (G.cls h) c (pg :: G.cls h c))
    pool := Function.update G.pool b rest
    avail := if rest = [] then G.avail.erase b else G.avail }

section Take

variable {S : Nat → Prop} {G : Ghost} {b : Nat} {pg : PageId} {rest : List PageId}

theorem Ghost.mem_cls_take (G : Ghost) {h c k d : Nat} {q : PageId} :
    q ∈ (G.take b pg rest h c).cls k d ↔ q ∈ G.cls k d ∨ (q = pg ∧ h = k ∧ c = d) := by
  by_cases hk : k = h
  · subst hk
    by_cases hd : d = c
    · subst hd
      simp [Ghost.take, or_comm]
    · have : c ≠ d := fun heq => hd heq.symm
      simp [Ghost.take, Function.update_of_ne hd, this]
  · have : h ≠ k := fun heq => hk heq.symm
    simp [Ghost.take, Function.update_of_ne hk, this]

theorem Ghost.mem_avail_take (hplaces : PlacesOk S G) (hnod : G.avail.Nodup)
    (hpool : G.pool b = pg :: rest) (h c x : Nat) :
    x ∈ (G.take b pg rest h c).avail ↔
      x ∈ G.segments ∧ (G.take b pg rest h c).pool x ≠ [] := by
  have hav := hplaces.avail
  by_cases hx : x = b
  · subst hx
    by_cases hrest : rest = []
    · simp [Ghost.take, hrest, hnod.mem_erase_iff]
    · simp [Ghost.take, hrest, hav, hpool]
  · by_cases hrest : rest = []
    · simp [Ghost.take, hrest, hnod.mem_erase_iff, hav, hx]
    · simp [Ghost.take, hrest, hav, Function.update_of_ne hx]

theorem PlacesOk.take (h : PlacesOk S G) (hav : G.avail.Nodup) (hnod : (G.pool b).Nodup)
    (hpool : G.pool b = pg :: rest) (hb : b ∈ G.segments) (k c : Nat) :
    PlacesOk S (G.take b pg rest k c) := by
  obtain ⟨hpg, hseg, hloc⟩ := (h.pool b pg).mp (by simp [hpool])
  have hrest : pg ∉ rest := by
    rw [hpool] at hnod
    exact (List.nodup_cons.mp hnod).1
  refine h.move hpg rfl ?_ ?_ ?_ ?_ rfl rfl (Ghost.mem_avail_take h hav hpool k c) ?_
  · intro b' q
    by_cases hb' : b' = b
    · subst hb'
      by_cases hq : q = pg
      · subst hq
        simp [Ghost.take, hrest]
      · simp [Ghost.take, hpool, hq]
    · have hnot : pg ∉ G.pool b' := fun hmem => hb' (h.pool_disjoint hmem (by simp [hpool]))
      by_cases hq : q = pg
      · subst hq
        simpa [Ghost.take, Function.update_of_ne hb'] using hnot
      · simp [Ghost.take, Function.update_of_ne hb', hq]
  · intro q
    by_cases hq : q = pg
    · subst hq
      simp [Ghost.take, h.abandoned, hloc]
    · simp [Ghost.take, hq]
  · intro k' c' q
    rw [Ghost.mem_cls_take]
    by_cases hq : q = pg
    · subst hq
      simp [h.cls, hloc]
    · simp [hq]
  · intro q
    by_cases hq : q = pg
    · subst hq
      simp [Ghost.take, h.limbo, hloc]
    · simp [Ghost.take, hq]
  · intro b' hb'
    have hne : b' ≠ b := by
      rintro rfl
      exact ((h.segments b').mp hb).2 hb'
    simp [Ghost.take, Function.update_of_ne hne]

theorem ChainsOk.take {next : PageId → Option PageId} {seg : Segments} (seg' : Segments)
    {central : Central} (central' : Central) (h : ChainsOk S next seg central G) (hp : PlacesOk S G)
    (hpool : G.pool b = pg :: rest)
    (hfreeList : seg'.freeList = Function.update seg.freeList b (next pg))
    (hfreeCount : seg'.freeCount = Function.update seg.freeCount b rest.length)
    (hmmapSize : seg'.mmapSize = seg.mmapSize) (hnext : seg'.next = seg.next)
    (habandoned : central'.abandoned = central.abandoned)
    (hsegments : central'.segments = central.segments) (k c : Nat)
    (havail : DList seg'.availNext seg'.availPrev central'.avail (G.take b pg rest k c).avail)
    (hinAvail : ∀ x, S x → (seg'.inAvail x = true ↔ x ∈ (G.take b pg rest k c).avail)) :
    ChainsOk S (Function.update next pg none) seg' central' (G.take b pg rest k c) where
  pool := by
    intro x hx
    rw [hfreeList]
    have hchain := h.pool x hx
    by_cases hxb : x = b
    · subst hxb
      simp only [Ghost.take, Function.update_self]
      rw [hpool] at hchain
      apply hchain.2.congr
      intro q hq
      rw [Function.update_of_ne]
      rintro rfl
      exact (List.nodup_cons.mp hchain.nodup).1 hq
    · simp only [Ghost.take, Function.update_of_ne hxb]
      apply hchain.congr
      intro q hq
      rw [Function.update_of_ne]
      rintro rfl
      exact hxb (hp.pool_disjoint hq (by simp [hpool]))
  freeCount := by
    intro x hx
    rw [hfreeCount]
    by_cases hxb : x = b
    · subst hxb
      simp [Ghost.take]
    · simp [Ghost.take, Function.update_of_ne hxb, h.freeCount x hx]
  mmapSize := by
    intro x hx
    rw [hmmapSize]
    exact h.mmapSize x hx
  abandoned := by
    rw [habandoned]
    apply h.abandoned.congr
    intro q hq
    rw [Function.update_of_ne]
    rintro rfl
    have h1 := ((hp.abandoned q).mp hq).2
    rw [((hp.pool b q).mp (by simp [hpool])).2.2] at h1
    cases h1
  segments := by
    rw [hnext, hsegments]
    exact h.segments
  avail := havail
  inAvail := hinAvail

theorem CountersOk.take {central : Central} (central' : Central) (h : CountersOk central G)
    (hseg : G.segments.Nodup) (hb : b ∈ G.segments) (hpool : G.pool b = pg :: rest)
    (hle : (G.pool b).length ≤ usablePagesPerSegment) (hbound : G.segments.length ≤ 2 ^ 42)
    (hnum : central'.numSegments = central.numSegments)
    (hfree : central'.freePageCount = Word.sub 64 central.freePageCount 1)
    (hidle : central'.freeSegments =
      if (G.pool b).length = usablePagesPerSegment then Word.sub 64 central.freeSegments 1
      else central.freeSegments)
    (huse : central'.pagesInUse = Word.add 64 central.pagesInUse 1)
    (hab : central'.abandonedCount = central.abandonedCount) (k c : Nat) :
    CountersOk central' (G.take b pg rest k c) ∧ central'.freeSegments ≤ central.freeSegments := by
  have husable : usablePagesPerSegment = 63 := by decide
  have hlen : (G.pool b).length = rest.length + 1 := by simp [hpool]
  have hsum := G.freePages_update hseg hb rest
  have hcount := G.idleSegments_update hseg hb rest
  change (G.take b pg rest k c).freePages + _ = _ at hsum
  change (G.take b pg rest k c).idleSegments + _ = _ at hcount
  have htotal := h.total
  rw [husable] at htotal hle
  have h1 := h.numSegments
  have h2 := h.freePages
  have h3 := h.freeSegments
  have hidleLe : G.idleSegments ≤ G.segments.length := List.countP_le_length
  have hrest : (rest.length == usablePagesPerSegment) = false := by
    simp only [beq_eq_false_iff_ne, ne_eq]
    omega
  rw [hrest, Bool.toNat_false] at hcount
  have hsub : Word.sub 64 central.freePageCount 1 = central.freePageCount - 1 :=
    Word.sub_eq (by omega) (by omega)
  have hadd : Word.add 64 central.pagesInUse 1 = central.pagesInUse + 1 :=
    Word.add_eq (by omega)
  have hidle' : central'.freeSegments = (G.take b pg rest k c).idleSegments ∧
      central'.freeSegments ≤ central.freeSegments := by
    rw [hidle]
    by_cases hfull : (G.pool b).length = usablePagesPerSegment
    · rw [hfull, beq_self_eq_true, Bool.toNat_true] at hcount
      rw [if_pos hfull, Word.sub_eq (by omega) (by omega)]
      omega
    · have hnot : ((G.pool b).length == usablePagesPerSegment) = false := by
        simpa using hfull
      rw [hnot, Bool.toNat_false] at hcount
      rw [if_neg hfull]
      omega
  refine ⟨⟨hnum.trans h1, ?_, hidle'.1, hab.trans h.abandonedCount, ?_⟩, hidle'.2⟩
  · rw [hfree, hsub]
    omega
  · rw [hfree, huse, hab, hnum, hsub, hadd]
    change _ + G.limbo.toList.length = _
    rw [husable]
    omega

end Take

/-- Moving one page between lists: its row and the central heap's data change,
the memory and the other pages do not. -/
theorem Inv.movePage {ps : PageSize} {s : Store} {G G' : Ghost} {pg : PageId} (h : Inv ps s G)
    (hpg : IsPage (IsSegment s.os.regions) pg) (page : Pages) (seg : Segments) (central : Central)
    (hrow : ∀ q, q ≠ pg → page.row q = s.page.row q)
    (hok : PageOk s.os.mem (page.row pg) (G'.page pg) pg)
    (hghost : ∀ q, q ≠ pg → G'.page q = G.page q)
    (hout : (G'.page pg).out = (G.page pg).out)
    (hsize : (G.page pg).out ≠ [] → page.blockSize pg = s.page.blockSize pg)
    (hlists : ListsOk (IsSegment s.os.regions) page.next seg central G') :
    Inv ps { s with page := page, seg := seg, central := central } G' where
  regions := h.regions
  tags := h.tags
  pages := by
    intro q hq
    by_cases hqp : q = pg
    · subst hqp
      exact hok
    · change PageOk _ (page.row q) _ _
      rw [hrow q hqp, hghost q hqp]
      exact h.pages q hq
  lists := hlists
  grants := by
    have houts : (fun q => (G'.page q).out) = fun q => (G.page q).out := by
      funext q
      by_cases hqp : q = pg
      · subst hqp
        exact hout
      · rw [hghost q hqp]
    rw [houts]
    refine ⟨?_, h.grants.large, h.grants.out⟩
    intro p g q i hg ho
    obtain ⟨hq, hmem, hblock, husable, hle⟩ := h.grants.small p g q i hg ho
    have hcols : page.area q = s.page.area q ∧ page.blockSize q = s.page.blockSize q := by
      by_cases hqp : q = pg
      · subst hqp
        exact ⟨hok.area.trans (h.pages q hq).area.symm, hsize (List.ne_nil_of_mem hmem)⟩
      · exact ⟨congrArg PageState.area (hrow q hqp), congrArg PageState.blockSize (hrow q hqp)⟩
    simp only [hcols.1, hcols.2]
    exact ⟨hq, hmem, hblock, husable, hle⟩
  table := h.table
  sentinel := by
    have hne : emptyPage ≠ pg := fun heq => hpg.ne_emptyPage h.regions heq.symm
    exact (congrArg PageState.free (hrow emptyPage hne)).trans h.sentinel

/-- A page fresh from the pool is in service without blocks. -/
theorem inService_fresh {mem : Mem} {v : PageState} {g : PageGhost} {c : Nat}
    (hc : c < numSizeClasses) (hfree : v.free = 0) (hused : v.used = 0)
    (hcap : v.capacity = pageSize / classToSize c) (hres : v.reserved = 0)
    (hsize : v.blockSize = classToSize c) (hcls : v.sizeClass = c) (huse : v.inUse = true)
    (hremote : v.threadFree = 0) (hg : g.free = [] ∧ g.remote = [] ∧ g.out = []) :
    InService mem v g where
  cls := hcls.symm ▸ hc
  blockSize := by rw [hsize, hcls]
  capacity := by rw [hcap, hsize]
  reserved := by
    rw [hres]
    exact Nat.zero_le _
  blocks := by simp [hg, hres]
  used := by simp [hg, hused]
  free := by
    rw [hg.1, hfree]
    exact ptr_zero
  remote := by
    rw [hg.2.1, hremote]
    exact ptr_zero
  inUse := huse

namespace Inv

variable {ps : PageSize} {s : Store} {G : Ghost}

theorem pool_nodup (h : Inv ps s G) {b : Nat} (hb : IsSegment s.os.regions b) :
    (G.pool b).Nodup := (h.lists.chains.pool b hb).nodup

theorem segments_nodup (h : Inv ps s G) : G.segments.Nodup := h.lists.chains.segments.nodup

theorem isSegment_of_mem (h : Inv ps s G) {b : Nat} (hb : b ∈ G.segments) :
    IsSegment s.os.regions b := ((h.lists.places.segments b).mp hb).1

theorem segments_bound (h : Inv ps s G) : G.segments.length ≤ 2 ^ 42 :=
  segments_length_le h.regions h.segments_nodup (fun _ hb => h.isSegment_of_mem hb)

theorem pool_le (h : Inv ps s G) {b : Nat} (hb : IsSegment s.os.regions b) :
    (G.pool b).length ≤ usablePagesPerSegment :=
  h.lists.places.pool_length_le hb (h.pool_nodup hb)

/-- What `takeFree` does to the central heap's lists. -/
theorem takeFree_lists (h : Inv ps s G) {b : Nat} {as : List Nat} {pg : PageId}
    {rest : List PageId} (hav : G.avail = b :: as) (hpool : G.pool b = pg :: rest) (k c : Nat) :
    ListsOk (IsSegment s.os.regions) (Function.update s.page.next pg none)
        (takeFree s b pg).seg (takeFree s b pg).central (G.take b pg rest k c) ∧
      (takeFree s b pg).central.mtx = s.central.mtx ∧
      takeFree s b pg = { s with
        seg := (takeFree s b pg).seg, central := (takeFree s b pg).central } := by
  have hb : b ∈ G.segments := ((h.lists.places.avail b).mp (by simp [hav])).1
  have hseg := h.isSegment_of_mem hb
  have hnod := h.lists.chains.avail.nodup
  have hlen : (G.pool b).length = rest.length + 1 := by simp [hpool]
  have hle := h.pool_le hseg
  have husable : usablePagesPerSegment = 63 := by decide
  have hcount : s.seg.freeCount b = (G.pool b).length := h.lists.chains.freeCount b hseg
  have hfree : Word.sub 32 (s.seg.freeCount b) 1 = rest.length := by
    rw [Word.sub_eq (by omega) (by omega)]
    omega
  have hplaces := h.lists.places.take hnod (h.pool_nodup hseg) hpool hb k c
  have hcounters : ∀ avail, CountersOk { (unlinkFree s b pg).central with avail := avail }
        (G.take b pg rest k c) ∧
      (unlinkFree s b pg).central.freeSegments ≤ s.central.freeSegments := by
    intro avail
    refine CountersOk.take { (unlinkFree s b pg).central with avail := avail } h.lists.counters
      h.segments_nodup hb hpool hle h.segments_bound rfl rfl ?_ rfl rfl k c
    rw [← hcount]
    rfl
  have hcache := h.lists.cache
  have hzero : (unlinkFree s b pg).seg.freeCount b = rest.length := by
    simp only [unlinkFree, Function.update_self, hfree]
  have hcol : (unlinkFree s b pg).seg.freeCount =
      Function.update s.seg.freeCount b rest.length := by
    simp only [unlinkFree, hfree]
  by_cases hrest : rest = []
  · have heq : takeFree s b pg = availRemove (unlinkFree s b pg) b := by
      rw [takeFree]
      exact if_pos (by rw [hzero, hrest]; rfl)
    rw [heq]
    have hghost : (G.take b pg rest k c).avail = as := by
      simp [Ghost.take, hrest, hav]
    refine ⟨⟨hplaces, ?_, (hcounters _).1, (hcounters none).2.trans hcache⟩, rfl, rfl⟩
    refine ChainsOk.take (availRemove (unlinkFree s b pg) b).seg
      (availRemove (unlinkFree s b pg) b).central h.lists.chains h.lists.places hpool rfl hcol
      rfl rfl rfl rfl k c ?_ ?_
    · rw [hghost]
      have hd := h.lists.chains.avail
      rw [hav] at hd
      exact availRemove_avail (s := unlinkFree s b pg) (l := []) hd
    · intro x hx
      rw [hghost]
      change Function.update s.seg.inAvail b false x = true ↔ _
      have hin := h.lists.chains.inAvail x hx
      rw [hav] at hin hnod
      by_cases hxb : x = b
      · subst hxb
        simp [(List.nodup_cons.mp hnod).1]
      · rw [Function.update_of_ne hxb, hin]
        simp [hxb]
  · have heq : takeFree s b pg = unlinkFree s b pg := by
      rw [takeFree]
      refine if_neg ?_
      rw [hzero]
      simpa using hrest
    rw [heq]
    have hghost : (G.take b pg rest k c).avail = G.avail := by
      simp [Ghost.take, hrest]
    refine ⟨⟨hplaces, ?_, (hcounters _).1, (hcounters none).2.trans hcache⟩, rfl, rfl⟩
    refine ChainsOk.take (unlinkFree s b pg).seg (unlinkFree s b pg).central h.lists.chains
      h.lists.places hpool rfl hcol rfl rfl rfl rfl k c ?_ ?_
    · rw [hghost]
      exact h.lists.chains.avail
    · intro x hx
      rw [hghost]
      exact h.lists.chains.inAvail x hx

end Inv

/-- What moving page `pg` may change: the central heap's data, `pg` itself, the
links of abandoned pages, and bytes that no client holds. -/
structure MoveStep (G : Ghost) (pg : PageId) (s s' : Store) : Prop where
  rest : s' = { s with
    os := { s.os with mem := s'.os.mem }, page := s'.page, seg := s'.seg, central := s'.central }
  mtx : s'.central.mtx = s.central.mtx
  links : ∀ q, q ≠ pg → (G.page q).loc ≠ .abandoned →
    s'.page.next q = s.page.next q ∧ s'.page.prev q = s.page.prev q ∧
      s'.page.used q = s.page.used q
  row : ∀ q, q ≠ pg → s'.page.row q = s.page.row q
  bytes : ∀ p g, s.grants p = some g → ∀ x, p ≤ x → x < p + g.usable →
    s'.os.mem x = s.os.mem x

theorem PageStep.toMove {pg : PageId} {s s' : Store} (h : PageStep pg s s') (G : Ghost) :
    MoveStep G pg s s' where
  rest := by
    rw [h.rest]
  mtx := by rw [h.rest]
  links := fun q hq _ =>
    ⟨congrFun h.next q, congrFun h.prev q, congrArg PageState.used (h.row q hq)⟩
  row := h.row
  bytes := h.bytes

theorem MoveStep.grants {G : Ghost} {pg : PageId} {s s' : Store} (h : MoveStep G pg s s') :
    s'.grants = s.grants := by rw [h.rest]

theorem MoveStep.regions {G : Ghost} {pg : PageId} {s s' : Store} (h : MoveStep G pg s s') :
    s'.os.regions = s.os.regions := by rw [h.rest]

theorem MoveStep.trans {G G' : Ghost} {pg : PageId} {s s' s'' : Store} (h : MoveStep G pg s s')
    (h' : MoveStep G' pg s' s'')
    (hloc : ∀ q, q ≠ pg → (G.page q).loc ≠ .abandoned → (G'.page q).loc ≠ .abandoned) :
    MoveStep G pg s s'' where
  rest := by
    have hrest := h'.rest
    rw [h.rest] at hrest
    exact hrest
  mtx := h'.mtx.trans h.mtx
  links := fun q hq hl => by
    obtain ⟨h1, h2, h3⟩ := h.links q hq hl
    obtain ⟨h1', h2', h3'⟩ := h'.links q hq (hloc q hq hl)
    exact ⟨h1'.trans h1, h2'.trans h2, h3'.trans h3⟩
  row := fun q hq => (h'.row q hq).trans (h.row q hq)
  bytes := fun p g hg x hlo hhi =>
    (h'.bytes p g (by rw [h.grants]; exact hg) x hlo hhi).trans (h.bytes p g hg x hlo hhi)

/-- A page as `central_acquire_page` hands it out. -/
structure FreshPage (s : Store) (pg : PageId) (owner cls blockSize : Nat) : Prop where
  free : s.page.free pg = 0
  threadFree : s.page.threadFree pg = 0
  used : s.page.used pg = 0
  reserved : s.page.reserved pg = 0
  capacity : s.page.capacity pg = pageSize / blockSize
  blockSize : s.page.blockSize pg = blockSize
  sizeClass : s.page.sizeClass pg = cls
  owner : s.page.owner pg = .heap owner
  inUse : s.page.inUse pg = true
  next : s.page.next pg = none
  prev : s.page.prev pg = none

theorem setUpPage_fresh (s : Store) (pg : PageId) (owner cls blockSize : Nat) :
    FreshPage (setUpPage s pg owner cls blockSize) pg owner cls blockSize := by
  constructor <;> exact Function.update_self _ _ _

namespace Inv

variable {ps : PageSize} {s : Store} {G : Ghost}

/-- `central_acquire_page` with a segment available: the first page of a pool
moves to class `c` of heap `k`. -/
theorem take (h : Inv ps s G) (hav : s.central.avail ≠ none) {c : Nat}
    (hc : c < numSizeClasses) (k : Nat) :
    ∃ pg rest s', takePage s k c (classToSize c) = some (pg, s') ∧
      (G.page pg).loc = .pool ∧ IsPage (IsSegment s.os.regions) pg ∧
      G.pool pg.seg = pg :: rest ∧ FreshPage s' pg k c (classToSize c) ∧
      Inv ps s' (G.take pg.seg pg rest k c) ∧ MoveStep G pg s s' := by
  obtain ⟨b, as, hlist⟩ : ∃ b as, G.avail = b :: as := by
    cases hl : G.avail with
    | nil =>
        have hd := h.lists.chains.avail
        rw [hl] at hd
        exact absurd (dlist_nil.mp hd) hav
    | cons b as => exact ⟨b, as, rfl⟩
  have hhead : s.central.avail = some b := by
    have hd := h.lists.chains.avail
    rw [hlist] at hd
    exact hd.1
  obtain ⟨hb, hne⟩ := (h.lists.places.avail b).mp (by simp [hlist])
  obtain ⟨pg, rest, hpool⟩ := List.exists_cons_of_ne_nil hne
  obtain ⟨hpg, hseg, hloc⟩ := (h.lists.places.pool b pg).mp (by simp [hpool])
  subst hseg
  have hfl : s.seg.freeList pg.seg = some pg := by
    have hchain := h.lists.chains.pool pg.seg (h.isSegment_of_mem hb)
    rw [hpool] at hchain
    exact hchain.1
  obtain ⟨hlists, hmtx, heq⟩ := h.takeFree_lists hlist hpool k c
  have hvac : Vacant (s.page.row pg) (G.page pg) := by
    have hl := (h.pages pg hpg).loc
    rw [LocOk, hloc] at hl
    exact hl.2.2
  refine ⟨pg, rest, _, by simp [takePage, hhead, hfl]; rfl, hloc, hpg, hpool,
    setUpPage_fresh _ _ _ _ _, ?_, ?_⟩
  · rw [heq]
    refine h.movePage hpg _ _ _ ?_ ?_ ?_ ?_ ?_ hlists
    · intro q hq
      simp [Pages.row, Function.update_of_ne hq]
    · refine ⟨(h.pages pg hpg).area, ?_⟩
      simp only [Ghost.take, Function.update_self, LocOk]
      refine ⟨by simp [Pages.row], by simp [Pages.row], ?_⟩
      apply inService_fresh hc <;> simp [Pages.row]
    · intro q hq
      simp [Ghost.take, Function.update_of_ne hq]
    · simp [Ghost.take, hvac.out]
    · intro hout
      exact absurd hvac.out hout
  · rw [heq]
    refine ⟨rfl, hmtx, ?_, ?_, fun _ _ _ _ _ _ => rfl⟩
    · intro q hq _
      simp [setUpPage, Function.update_of_ne hq]
    · intro q hq
      simp [Pages.row, setUpPage, Function.update_of_ne hq]

end Inv

end HMalloc
