import HMalloc.PageOps

/-!
The page operations on the store. Each keeps the invariant for a ghost state
that differs in the blocks of one page, and is a `PageStep`: apart from that
page's row and from bytes that no client holds, the store is the same.
-/

namespace HMalloc

open Bytes Linked

/-- The blocks of one page change. -/
def Ghost.setPage (G : Ghost) (pg : PageId) (g : PageGhost) : Ghost :=
  { G with page := Function.update G.page pg g }

@[simp] theorem Ghost.setPage_self (G : Ghost) (pg : PageId) (g : PageGhost) :
    (G.setPage pg g).page pg = g := Function.update_self ..

theorem Ghost.setPage_of_ne (G : Ghost) {pg q : PageId} (g : PageGhost) (h : q ≠ pg) :
    (G.setPage pg g).page q = G.page q := Function.update_of_ne h ..

theorem Ghost.setPage_loc (G : Ghost) {pg : PageId} {g : PageGhost}
    (h : g.loc = (G.page pg).loc) (q : PageId) :
    ((G.setPage pg g).page q).loc = (G.page q).loc := by
  by_cases hq : q = pg
  · subst hq
    rw [Ghost.setPage_self, h]
  · rw [Ghost.setPage_of_ne G g hq]

@[simp] theorem Ghost.setPage_setPage (G : Ghost) (pg : PageId) (g g' : PageGhost) :
    (G.setPage pg g).setPage pg g' = G.setPage pg g' := by
  simp [Ghost.setPage]

theorem Ghost.setPage_same (G : Ghost) (pg : PageId) : G.setPage pg (G.page pg) = G := by
  simp [Ghost.setPage]

/-- What an operation on page `pg` may change. -/
structure PageStep (pg : PageId) (s s' : Store) : Prop where
  rest : s' = { s with os := { s.os with mem := s'.os.mem }, page := s'.page }
  next : s'.page.next = s.page.next
  prev : s'.page.prev = s.page.prev
  row : ∀ q, q ≠ pg → s'.page.row q = s.page.row q
  bytes : ∀ p g, s.grants p = some g → ∀ x, p ≤ x → x < p + g.usable →
    s'.os.mem x = s.os.mem x

theorem PageStep.refl (pg : PageId) (s : Store) : PageStep pg s s :=
  ⟨rfl, rfl, rfl, fun _ _ => rfl, fun _ _ _ _ _ _ => rfl⟩

theorem PageStep.grants {pg : PageId} {s s' : Store} (h : PageStep pg s s') :
    s'.grants = s.grants := by rw [h.rest]

theorem PageStep.regions {pg : PageId} {s s' : Store} (h : PageStep pg s s') :
    s'.os.regions = s.os.regions := by rw [h.rest]

theorem PageStep.trans {pg : PageId} {s s' s'' : Store} (h : PageStep pg s s')
    (h' : PageStep pg s' s'') : PageStep pg s s'' where
  rest := by
    have hrest := h'.rest
    rw [h.rest] at hrest
    exact hrest
  next := h'.next.trans h.next
  prev := h'.prev.trans h.prev
  row := fun q hq => (h'.row q hq).trans (h.row q hq)
  bytes := fun p g hg x hlo hhi =>
    (h'.bytes p g (by rw [h.grants]; exact hg) x hlo hhi).trans (h.bytes p g hg x hlo hhi)

theorem PlacesOk.setPage {S : Nat → Prop} {G : Ghost} (h : PlacesOk S G) {pg : PageId}
    {g : PageGhost} (hloc : g.loc = (G.page pg).loc) : PlacesOk S (G.setPage pg g) where
  pool := fun b q => by rw [Ghost.setPage_loc G hloc]; exact h.pool b q
  abandoned := fun q => by rw [Ghost.setPage_loc G hloc]; exact h.abandoned q
  cls := fun hp c q => by rw [Ghost.setPage_loc G hloc]; exact h.cls hp c q
  limbo := fun q => by rw [Ghost.setPage_loc G hloc]; exact h.limbo q
  segments := h.segments
  avail := h.avail
  dying := h.dying

theorem ListsOk.setPage {S : Nat → Prop} {next : PageId → Option PageId} {seg : Segments}
    {central : Central} {G : Ghost} (h : ListsOk S next seg central G) {pg : PageId}
    {g : PageGhost} (hloc : g.loc = (G.page pg).loc) :
    ListsOk S next seg central (G.setPage pg g) where
  places := h.places.setPage hloc
  chains := { h.chains with }
  counters := { h.counters with }
  cache := h.cache

namespace Inv

variable {ps : PageSize} {s : Store} {G : Ghost} {pg : PageId}

theorem area_range (h : Inv ps s G) (hpg : IsPage (IsSegment s.os.regions) pg) :
    0 < (s.page.row pg).area ∧ (s.page.row pg).area + pageSize ≤ 2 ^ 64 := by
  have harea : (s.page.row pg).area = pg.start := (h.pages pg hpg).area
  have hseg := h.regions.segment hpg.1
  have hb := hpg.area_bounds
  rw [harea]
  omega

/-- One page changes: its row, the bytes of its area and the blocks handed out
from it. -/
theorem setPage (h : Inv ps s G) (hpg : IsPage (IsSegment s.os.regions) pg) (mem : Mem)
    {page : Pages} {g : PageGhost} {grants : Nat → Option Grant}
    (hmem : ∀ x, x < pg.start ∨ pg.start + pageSize ≤ x → mem x = s.os.mem x)
    (hrow : ∀ q, q ≠ pg → page.row q = s.page.row q) (hnext : page.next = s.page.next)
    (harea : page.area = s.page.area) (hsize : page.blockSize = s.page.blockSize)
    (hok : PageOk mem (page.row pg) g pg) (hloc : g.loc = (G.page pg).loc)
    (hgrants : GrantsOk s.os.regions s.page.area s.page.blockSize
      (fun q => ((G.setPage pg g).page q).out) grants) :
    Inv ps { s with os := { s.os with mem := mem }, page := page, grants := grants }
      (G.setPage pg g) where
  regions := h.regions
  tags := by
    apply h.tags.congr
    intro b r hb hp x hlo hhi
    have hd := h.regions.page_header_disjoint hpg hb hp
    exact hmem x (by omega)
  pages := by
    intro q hq
    by_cases hqp : q = pg
    · subst hqp
      simpa using hok
    · rw [Ghost.setPage_of_ne G g hqp]
      change PageOk mem (page.row q) (G.page q) q
      rw [hrow q hqp]
      apply (h.pages q hq).congr_outside
      intro x hlo hhi
      have hd := h.regions.pages_disjoint hpg hq (fun heq => hqp heq.symm)
      exact hmem x (by omega)
  lists := by
    change ListsOk _ page.next _ _ _
    rw [hnext]
    exact h.lists.setPage hloc
  grants := by
    change GrantsOk _ page.area page.blockSize _ _
    rw [harea, hsize]
    exact hgrants
  table := h.table
  sentinel := by
    have hne : emptyPage ≠ pg := fun heq => hpg.ne_emptyPage h.regions heq.symm
    exact (congrArg PageState.free (hrow emptyPage hne)).trans h.sentinel

/-- The grants when the blocks out of a page do not change. -/
theorem grants_setPage (h : Inv ps s G) {g : PageGhost} (hout : g.out = (G.page pg).out) :
    GrantsOk s.os.regions s.page.area s.page.blockSize
      (fun q => ((G.setPage pg g).page q).out) s.grants := by
  have hsame : (fun q => ((G.setPage pg g).page q).out) = fun q => (G.page q).out := by
    funext q
    by_cases hq : q = pg
    · subst hq
      simpa using hout
    · rw [Ghost.setPage_of_ne G g hq]
  rw [hsame]
  exact h.grants

end Inv

section GrantsOk

variable {regions : Nat → Option Region} {area blockSize : PageId → Nat}
  {out out' : PageId → List Nat} {grants : Nat → Option Grant}

/-- A block is handed out. -/
theorem GrantsOk.insert (h : GrantsOk regions area blockSize out grants) {pg : PageId} {b i : Nat}
    {gr : Grant} (hpg : IsPage (IsSegment regions) pg)
    (hout : ∀ q p, p ∈ out' q ↔ p ∈ out q ∨ (q = pg ∧ p = b)) (horigin : gr.origin = .small pg i)
    (hblock : b = area pg + i * blockSize pg) (husable : gr.usable = blockSize pg)
    (hsize : gr.size ≤ gr.usable) (hfresh : ∀ q, IsPage (IsSegment regions) q → b ∉ out q) :
    GrantsOk regions area blockSize out' (Function.update grants b (some gr)) where
  small := by
    intro p g pg' j hg ho
    rcases PartialMap.insert_eq_some.mp hg with ⟨rfl, rfl⟩ | ⟨_, hg⟩
    · rw [horigin] at ho
      cases ho
      exact ⟨hpg, (hout pg p).mpr (Or.inr ⟨rfl, rfl⟩), hblock, husable, hsize⟩
    · obtain ⟨hpg', hmem, hrest⟩ := h.small p g pg' j hg ho
      exact ⟨hpg', (hout pg' p).mpr (Or.inl hmem), hrest⟩
  large := by
    intro p g b' hg ho
    rcases PartialMap.insert_eq_some.mp hg with ⟨_, rfl⟩ | ⟨_, hg⟩
    · rw [horigin] at ho
      cases ho
    · exact h.large p g b' hg ho
  out := by
    intro q p hq hmem
    by_cases hp : p = b
    · subst hp
      rcases (hout q p).mp hmem with hold | ⟨rfl, _⟩
      · exact absurd hold (hfresh q hq)
      · exact ⟨gr, i, Function.update_self .., horigin⟩
    · rw [Function.update_of_ne hp]
      rcases (hout q p).mp hmem with hold | ⟨_, hpb⟩
      · exact h.out q p hq hold
      · exact absurd hpb hp

/-- A block is taken back. -/
theorem GrantsOk.remove (h : GrantsOk regions area blockSize out grants) {p : Nat}
    (hout : ∀ q x, IsPage (IsSegment regions) q → (x ∈ out' q ↔ x ∈ out q ∧ x ≠ p)) :
    GrantsOk regions area blockSize out' (Function.update grants p none) where
  small := by
    intro x g pg i hg ho
    obtain ⟨hx, hg⟩ := PartialMap.erase_eq_some.mp hg
    obtain ⟨hpg, hmem, hrest⟩ := h.small x g pg i hg ho
    exact ⟨hpg, (hout pg x hpg).mpr ⟨hmem, hx⟩, hrest⟩
  large := fun x g b hg ho => h.large x g b (PartialMap.erase_eq_some.mp hg).2 ho
  out := by
    intro q x hq hmem
    obtain ⟨hold, hx⟩ := (hout q x hq).mp hmem
    rw [Function.update_of_ne hx]
    exact h.out q x hq hold

end GrantsOk

namespace Inv

variable {ps : PageSize} {s : Store} {G : Ghost} {pg : PageId}

/-- A page in service stays where it is when its blocks change. -/
theorem pageOk_of_inService (h : Inv ps s G) (hpg : IsPage (IsSegment s.os.regions) pg)
    (hserv : (G.page pg).loc ≠ .pool ∧ (G.page pg).loc ≠ .limbo) {mem : Mem} {v : PageState}
    {g : PageGhost} (hin : InService mem v g) (hloc : g.loc = (G.page pg).loc)
    (harea : v.area = s.page.area pg) (howner : v.owner = s.page.owner pg)
    (hcls : v.sizeClass = s.page.sizeClass pg) : PageOk mem v g pg := by
  have hp := h.pages pg hpg
  refine ⟨harea.trans hp.area, ?_⟩
  have hl := hp.loc
  unfold LocOk at hl ⊢
  rw [hloc]
  split at hl
  · exact absurd ‹_› hserv.1
  · exact ⟨howner.trans hl.1, hcls.trans hl.2.1, hin⟩
  · exact ⟨howner.trans hl.1, hin⟩
  · exact absurd ‹_› hserv.2

end Inv

theorem extendBatch_le (blockSize remaining : Nat) :
    extendBatch blockSize remaining ≤ remaining := by
  unfold extendBatch
  generalize 8192 / blockSize = batch
  dsimp only
  split <;> split <;> omega

theorem extendBatch_pos (blockSize : Nat) {remaining : Nat} (h : remaining ≠ 0) :
    0 < extendBatch blockSize remaining := by
  unfold extendBatch
  generalize 8192 / blockSize = batch
  dsimp only
  split <;> split <;> omega

theorem pageExtend_full {s : Store} {pg : PageId}
    (h : Word.sub 32 (s.page.capacity pg) (s.page.reserved pg) = 0) : pageExtend s pg = s := by
  rw [pageExtend]
  exact if_pos h

theorem pageExtend_room {s : Store} {pg : PageId} {remaining : Nat} (mem : Mem) (head : Nat)
    (hrem : Word.sub 32 (s.page.capacity pg) (s.page.reserved pg) = remaining)
    (h : remaining ≠ 0)
    (hloop : extendLoop (s.page.area pg + s.page.reserved pg * s.page.blockSize pg)
      (s.page.blockSize pg) (extendBatch (s.page.blockSize pg) remaining) s.os.mem
      (s.page.free pg) = (mem, head)) :
    pageExtend s pg = { s with
      os := { s.os with mem := mem }
      page := { s.page with
        free := Function.update s.page.free pg head
        reserved := Function.update s.page.reserved pg (Word.add 32 (s.page.reserved pg)
          (extendBatch (s.page.blockSize pg) remaining)) } } := by
  rw [pageExtend, hrem]
  refine (if_neg h).trans ?_
  dsimp only
  rw [hloop]

/-- The blocks after `page_collect`. -/
def PageGhost.collected (g : PageGhost) : PageGhost :=
  { g with free := g.remote ++ g.free, remote := [] }

namespace Inv

variable {ps : PageSize} {s : Store} {G : Ghost} {pg : PageId}

/-- `page_collect` and `collect_locked`. -/
theorem collect (h : Inv ps s G) (hpg : IsPage (IsSegment s.os.regions) pg)
    (hserv : (G.page pg).loc ≠ .pool ∧ (G.page pg).loc ≠ .limbo) :
    ∃ s', pageCollect s pg = some s' ∧ Inv ps s' (G.setPage pg (G.page pg).collected) ∧
      PageStep pg s s' := by
  have hin := (h.pages pg hpg).inService hserv
  obtain ⟨hpos, hlt⟩ := h.area_range hpg
  have harea : (s.page.row pg).area = pg.start := (h.pages pg hpg).area
  rcases List.eq_nil_or_concat (G.page pg).remote with hnil | ⟨rs, t, hremote⟩
  · -- Nothing to collect: the exchange stores the null that is there.
    have hzero : s.page.threadFree pg = 0 := by
      have := hin.remote
      rw [hnil] at this
      exact ptr_eq_none.mp (chain_nil.mp this)
    have hsame : Function.update s.page.threadFree pg 0 = s.page.threadFree := by
      rw [← hzero, Function.update_eq_self]
    refine ⟨s, ?_, ?_, PageStep.refl pg s⟩
    · simp only [pageCollect, hzero, if_true, hsame]
    · have hghost : (G.page pg).collected = G.page pg := by
        rw [PageGhost.collected, hnil, List.nil_append, ← hnil]
      rw [hghost, Ghost.setPage_same]
      exact h
  · rw [List.concat_eq_append] at hremote
    obtain ⟨hwalk, hin'⟩ := hin.collect hlt hremote
    have ht : t ∈ (G.page pg).remote := by simp [hremote]
    obtain ⟨i, hi, hti⟩ := hin.exists_slot (Or.inr (Or.inl ht))
    have hslot := hin.slot_bounds hi
    have hbs := hin.block_size.2.1
    have hne : s.page.threadFree pg ≠ 0 := by
      intro hzero
      have hhead := hin.remote.head_eq
      rw [show (s.page.row pg).threadFree = 0 from hzero, hremote, ptr_zero] at hhead
      cases rs <;> simp at hhead
    have heq : pageCollect s pg = some { s with
        os := { s.os with mem := writeWord s.os.mem t (s.page.free pg) }
        page := { s.page with
          threadFree := Function.update s.page.threadFree pg 0
          free := Function.update s.page.free pg (s.page.threadFree pg)
          used := Function.update s.page.used pg
            (Word.sub 32 (s.page.used pg) (G.page pg).remote.length) } } := by
      change walkTail s.os.mem (s.page.capacity pg) (s.page.threadFree pg) 1 = _ at hwalk
      simp only [pageCollect, if_neg hne, hwalk, Option.bind_eq_bind, Option.bind_some]
      rfl
    refine ⟨_, heq, ?_, ?_⟩
    · refine h.setPage hpg _ ?_ ?_ rfl rfl rfl ?_ rfl (h.grants_setPage rfl)
      · intro x hx
        exact writeWord_outside _ _ _ _ (by omega)
      · intro q hq
        simp [Pages.row, Function.update_of_ne hq]
      · refine h.pageOk_of_inService hpg hserv ?_ rfl rfl rfl rfl
        simpa [Pages.row, PageGhost.collected] using hin'
    · refine ⟨rfl, rfl, rfl, ?_, ?_⟩
      · intro q hq
        simp [Pages.row, Function.update_of_ne hq]
      · intro p g hg x hlo hhi
        have hd := h.free_grant_disjoint hpg (Or.inr ht) hg
        exact writeWord_outside _ _ _ _ (by omega)

/-- What is handed out ends where the page's fresh blocks start, or is outside
the page. -/
theorem grant_fresh_disjoint (h : Inv ps s G) (hpg : IsPage (IsSegment s.os.regions) pg)
    {p : Nat} {g : Grant} (hg : s.grants p = some g) :
    p + g.usable ≤ (s.page.row pg).block (s.page.reserved pg) ∨ p + g.usable ≤ pg.start ∨
      pg.start + pageSize ≤ p := by
  cases ho : g.origin with
  | small pg' j =>
      have hs := h.smallGrant hg ho
      have hb := hs.bounds
      by_cases hpp : pg' = pg
      · subst hpp
        left
        obtain ⟨i, hi, heq⟩ := hs.inService.mem_blocks.mp (Or.inr (Or.inr hs.out))
        have hu : g.usable = (s.page.row pg').blockSize := hs.usable
        have hmul : (i + 1) * (s.page.row pg').blockSize ≤
            (s.page.row pg').reserved * (s.page.row pg').blockSize := Nat.mul_le_mul_right _ hi
        rw [Nat.add_mul] at hmul
        change _ ≤ (s.page.row pg').block (s.page.row pg').reserved
        simp only [PageState.block] at heq ⊢
        omega
      · have hd := h.regions.pages_disjoint hs.page hpg hpp
        omega
  | large b =>
      obtain ⟨size, offset, hreg, rfl, husable, _⟩ := h.grants.large p g b hg ho
      have hl := h.regions.large b size offset hreg
      have hd := h.regions.page_region_disjoint hpg hreg (by simp)
      simp only at hd
      omega

/-- `page_extend`. -/
theorem extend (h : Inv ps s G) (hpg : IsPage (IsSegment s.os.regions) pg)
    (hserv : (G.page pg).loc ≠ .pool ∧ (G.page pg).loc ≠ .limbo) :
    ∃ fresh, Inv ps (pageExtend s pg)
        (G.setPage pg { G.page pg with free := fresh ++ (G.page pg).free }) ∧
      PageStep pg s (pageExtend s pg) ∧ (pageExtend s pg).page.used = s.page.used ∧
      (s.page.reserved pg < s.page.capacity pg → fresh ≠ []) := by
  have hin := (h.pages pg hpg).inService hserv
  obtain ⟨hpos, hlt⟩ := h.area_range hpg
  have harea : (s.page.row pg).area = pg.start := (h.pages pg hpg).area
  have hres : s.page.reserved pg ≤ s.page.capacity pg := hin.reserved
  have hcap : s.page.capacity pg ≤ 4096 := hin.capacity_le
  have hrem : Word.sub 32 (s.page.capacity pg) (s.page.reserved pg) =
      s.page.capacity pg - s.page.reserved pg := Word.sub_eq (by omega) hres
  by_cases hfull : s.page.capacity pg - s.page.reserved pg = 0
  · refine ⟨[], ?_⟩
    rw [pageExtend_full (hrem.trans hfull), List.nil_append, Ghost.setPage_same]
    exact ⟨h, PageStep.refl pg s, rfl, fun hroom => by omega⟩
  · have hsome := extendBatch_pos (s.page.blockSize pg) hfull
    have hbatch := extendBatch_le (s.page.blockSize pg) (s.page.capacity pg - s.page.reserved pg)
    have heq := fun mem head => pageExtend_room mem head hrem hfull
    generalize extendBatch (s.page.blockSize pg) (s.page.capacity pg - s.page.reserved pg) = n
      at hsome hbatch heq
    obtain ⟨mem', head, hloop, hin', hsame⟩ := hin.extend hpos hlt (n := n)
      (show s.page.reserved pg + n ≤ s.page.capacity pg by omega)
    have hadd : Word.add 32 (s.page.reserved pg) n = s.page.reserved pg + n :=
      Word.add_eq (by omega)
    have hmul : (s.page.reserved pg + n) * s.page.blockSize pg ≤
        s.page.capacity pg * s.page.blockSize pg := Nat.mul_le_mul_right _ (by omega)
    have hfit : s.page.capacity pg * s.page.blockSize pg ≤ pageSize := by
      rw [show s.page.capacity pg = pageSize / s.page.blockSize pg from hin.capacity]
      exact Nat.div_mul_le_self _ _
    rw [Nat.add_mul] at hmul
    -- The fresh blocks lie in the page, from the first block not yet carved on.
    have hend : (s.page.row pg).block (s.page.row pg).reserved + n * (s.page.row pg).blockSize ≤
        pg.start + pageSize := by
      rw [PageState.block, harea]
      change pg.start + s.page.reserved pg * s.page.blockSize pg + n * s.page.blockSize pg ≤ _
      omega
    have hstart : pg.start ≤ (s.page.row pg).block (s.page.row pg).reserved := by
      rw [PageState.block, harea]
      omega
    rw [heq mem' head hloop, hadd]
    refine ⟨(List.range n).map
        (fun i => (s.page.row pg).block ((s.page.row pg).reserved + i)),
      h.setPage hpg _ ?_ ?_ rfl rfl rfl ?_ rfl (h.grants_setPage rfl), ⟨rfl, rfl, rfl, ?_, ?_⟩,
      rfl, ?_⟩
    · intro x hx
      exact hsame x (by omega)
    · intro q hq
      simp [Pages.row, Function.update_of_ne hq]
    · refine h.pageOk_of_inService hpg hserv ?_ rfl rfl rfl rfl
      simpa [Pages.row] using hin'
    · intro q hq
      simp [Pages.row, Function.update_of_ne hq]
    · intro p g hg x hlo hhi
      have hd := h.grant_fresh_disjoint hpg hg
      change _ ≤ (s.page.row pg).block (s.page.row pg).reserved ∨ _ at hd
      exact hsame x (by omega)
    · intro _ hnil
      have hlen := congrArg List.length hnil
      simp only [List.length_map, List.length_range, List.length_nil] at hlen
      omega

/-- `used` counts the blocks that are out once the remote list is empty. -/
theorem used_of_collected (h : Inv ps s G) (hpg : IsPage (IsSegment s.os.regions) pg)
    (hserv : (G.page pg).loc ≠ .pool ∧ (G.page pg).loc ≠ .limbo) {s₁ : Store}
    (hinv₁ : Inv ps s₁ (G.setPage pg (G.page pg).collected)) (hstep₁ : PageStep pg s s₁) :
    InService s₁.os.mem (s₁.page.row pg) (G.page pg).collected ∧
      s₁.page.used pg = (G.page pg).out.length ∧
      s.page.used pg = (G.page pg).out.length + (G.page pg).remote.length := by
  have hpg₁ : IsPage (IsSegment s₁.os.regions) pg := by
    rw [hstep₁.regions]
    exact hpg
  have hin₁ := (hinv₁.pages pg hpg₁).inService (by rw [Ghost.setPage_self]; exact hserv)
  rw [Ghost.setPage_self] at hin₁
  exact ⟨hin₁, hin₁.used, ((h.pages pg hpg).inService hserv).used⟩

theorem free_ne_zero {mem : Mem} {v : PageState} {g : PageGhost} (h : InService mem v g)
    (hne : g.free ≠ []) : v.free ≠ 0 := by
  intro hzero
  have hchain := h.free
  rw [hzero, ptr_zero] at hchain
  exact hne hchain.nil_of_none

/-- `page_make_available`: a page it declares available has a free block, and
one that it does not has all its blocks in use. -/
theorem makeAvailable (h : Inv ps s G) (hpg : IsPage (IsSegment s.os.regions) pg)
    (hserv : (G.page pg).loc ≠ .pool ∧ (G.page pg).loc ≠ .limbo) :
    ∃ available s' g, pageMakeAvailable s pg = some (available, s') ∧
      Inv ps s' (G.setPage pg g) ∧ PageStep pg s s' ∧ g.loc = (G.page pg).loc ∧
      (available = true → s'.page.free pg ≠ 0) ∧ s'.page.used pg ≤ s.page.used pg ∧
      (available = false → s'.page.used pg = s.page.used pg ∧
        s'.page.used pg = s'.page.capacity pg) := by
  unfold pageMakeAvailable
  by_cases hfree : s.page.free pg ≠ 0
  · refine ⟨true, s, G.page pg, by rw [if_pos hfree], ?_, PageStep.refl pg s, rfl,
      fun _ => hfree, Nat.le_refl _, fun hav => by cases hav⟩
    rw [Ghost.setPage_same]
    exact h
  · rw [if_neg hfree]
    obtain ⟨s₁, heq₁, hinv₁, hstep₁⟩ := h.collect hpg hserv
    obtain ⟨hin₁, hused₁, hused⟩ := h.used_of_collected hpg hserv hinv₁ hstep₁
    simp only [heq₁, Option.bind_eq_bind, Option.bind_some, Option.pure_def]
    by_cases hfree₁ : s₁.page.free pg ≠ 0
    · exact ⟨true, s₁, (G.page pg).collected, by rw [if_pos hfree₁], hinv₁, hstep₁, rfl,
        fun _ => hfree₁, by omega, fun hav => by cases hav⟩
    · rw [if_neg hfree₁]
      have hpg₁ : IsPage (IsSegment s₁.os.regions) pg := by
        rw [hstep₁.regions]
        exact hpg
      -- Nothing was collected, or it would be on the local list now.
      have hnil : (G.page pg).collected.free = [] := by
        by_contra hne
        exact hfree₁ (free_ne_zero hin₁ hne)
      by_cases hroom : s₁.page.reserved pg < s₁.page.capacity pg
      · rw [if_pos hroom]
        obtain ⟨fresh, hinv₂, hstep₂, hsame, hfresh⟩ := hinv₁.extend hpg₁
          (by rw [Ghost.setPage_self]; exact hserv)
        rw [Ghost.setPage_setPage] at hinv₂
        have hpg₂ : IsPage (IsSegment (pageExtend s₁ pg).os.regions) pg := by
          rw [hstep₂.regions]
          exact hpg₁
        have hin₂ := (hinv₂.pages pg hpg₂).inService
          (by simp only [Ghost.setPage_self]; exact hserv)
        have hfree₂ : (pageExtend s₁ pg).page.free pg ≠ 0 :=
          free_ne_zero hin₂ (by simp only [Ghost.setPage_self]; simp [hfresh hroom])
        refine ⟨_, _, _, rfl, hinv₂, hstep₁.trans hstep₂, ?_, fun _ => hfree₂, ?_, ?_⟩
        · rw [Ghost.setPage_self]
          rfl
        · rw [hsame]
          omega
        · exact fun hav => absurd hfree₂ (of_decide_eq_false hav)
      · rw [if_neg hroom]
        refine ⟨false, s₁, (G.page pg).collected, rfl, hinv₁, hstep₁, rfl,
          (fun hav => by cases hav), by omega, fun _ => ⟨?_, ?_⟩⟩
        · have hremote : (G.page pg).remote = [] := (List.append_eq_nil_iff.mp hnil).1
          rw [hremote, List.length_nil] at hused
          omega
        · have hsum := hin₁.used_le
          have hle := hin₁.reserved
          rw [hnil, List.length_nil] at hsum
          change s₁.page.used pg + 0 = s₁.page.reserved pg at hsum
          change s₁.page.reserved pg ≤ s₁.page.capacity pg at hle
          omega

/-- `page_pop`, with the block handed out. -/
theorem pop (h : Inv ps s G) (hpg : IsPage (IsSegment s.os.regions) pg)
    (hserv : (G.page pg).loc ≠ .pool ∧ (G.page pg).loc ≠ .limbo) (hfree : s.page.free pg ≠ 0) :
    ∃ b s' g, pagePop s pg = some (b, s') ∧ PageStep pg s s' ∧ s'.os.mem = s.os.mem ∧
      s'.page.blockSize = s.page.blockSize ∧ s'.page.area = s.page.area ∧
      s'.page.used pg = s.page.used pg + 1 ∧ b ∈ (G.page pg).free ∧ g.loc = (G.page pg).loc ∧
      ∀ gr : Grant,
        gr.origin = .small pg ((b - s.page.area pg) / s.page.blockSize pg) →
        gr.usable = s.page.blockSize pg → gr.size ≤ gr.usable →
        Inv ps { s' with grants := Function.update s.grants b (some gr) } (G.setPage pg g) := by
  have hin := (h.pages pg hpg).inService hserv
  obtain ⟨b, fs, hb⟩ : ∃ b fs, (G.page pg).free = b :: fs := by
    cases hlist : (G.page pg).free with
    | nil =>
        have hchain := hin.free
        rw [hlist] at hchain
        exact absurd (ptr_eq_none.mp (chain_nil.mp hchain)) hfree
    | cons b fs => exact ⟨b, fs, rfl⟩
  have hhead : s.page.free pg = b := by
    have hchain := hin.free
    rw [hb] at hchain
    exact (ptr_eq_some.mp hchain.1).1
  have hmem : b ∈ (G.page pg).free := by simp [hb]
  have heq : pagePop s pg = some (b, { s with
      page := { s.page with
        free := Function.update s.page.free pg (readWord s.os.mem b)
        used := Function.update s.page.used pg (Word.add 32 (s.page.used pg) 1) } }) := by
    simp only [pagePop, hhead]
    rw [if_neg (by rw [← hhead]; exact hfree)]
  refine ⟨b, _, { G.page pg with free := fs, out := b :: (G.page pg).out }, heq, ?_, rfl, rfl, rfl,
    ?_, hmem, rfl, ?_⟩
  · refine ⟨rfl, rfl, rfl, ?_, fun _ _ _ _ _ _ => rfl⟩
    intro q hq
    simp [Pages.row, Function.update_of_ne hq]
  · have hlt : s.page.used pg ≤ 4096 := hin.used_lt
    change Function.update s.page.used pg (Word.add 32 (s.page.used pg) 1) pg = _
    rw [Function.update_self, Word.add_eq (by omega)]
  · intro gr horigin husable hsize
    obtain ⟨i, hi, hbi⟩ := hin.exists_slot (Or.inl hmem)
    have hpos : 16 ≤ s.page.blockSize pg := hin.block_size.2.1
    have hindex : b = s.page.area pg + (b - s.page.area pg) / s.page.blockSize pg *
        s.page.blockSize pg := by
      have hval : b = s.page.area pg + i * s.page.blockSize pg := hbi
      rw [hval, Nat.add_sub_cancel_left, Nat.mul_div_cancel _ (Nat.lt_of_lt_of_le (by decide) hpos)]
    refine h.setPage hpg s.os.mem (fun _ _ => rfl) ?_ rfl rfl rfl ?_ rfl ?_
    · intro q hq
      simp [Pages.row, Function.update_of_ne hq]
    · refine h.pageOk_of_inService hpg hserv ?_ rfl rfl rfl rfl
      simpa [Pages.row] using hin.pop hb
    · refine h.grants.insert hpg ?_ horigin hindex husable hsize ?_
      · intro q p
        by_cases hq : q = pg
        · subst hq
          simp [or_comm]
        · simp [Ghost.setPage_of_ne G _ hq, hq]
      · intro q hq hout
        obtain ⟨g', i', hg, _⟩ := h.grants.out q b hq hout
        exact h.free_ne_grant hpg (Or.inl hmem) hg rfl

/-- The blocks after a block has left the client's hands. -/
theorem grants_erase (h : Inv ps s G) {p : Nat} {g : Grant} {i : Nat}
    (hg : s.grants p = some g) (ho : g.origin = .small pg i) {g' : PageGhost}
    (hout : g'.out = (G.page pg).out.erase p) :
    GrantsOk s.os.regions s.page.area s.page.blockSize
      (fun q => ((G.setPage pg g').page q).out) (Function.update s.grants p none) := by
  have hs := h.smallGrant hg ho
  apply h.grants.remove
  intro q x hq
  by_cases hqp : q = pg
  · subst hqp
    have hnod : (G.page q).out.Nodup := (List.nodup_append.mp hs.inService.nodup).2.1
    rw [Ghost.setPage_self, hout, hnod.mem_erase_iff, and_comm]
  · rw [Ghost.setPage_of_ne G _ hqp]
    constructor
    · intro hx
      refine ⟨hx, ?_⟩
      rintro rfl
      obtain ⟨g₂, j, hg₂, ho₂⟩ := h.grants.out q x hq hx
      rw [hg] at hg₂
      cases hg₂
      rw [ho] at ho₂
      cases ho₂
      exact hqp rfl
    · exact fun hx => hx.1

/-- A local `heap_free` up to the check for an empty page. -/
theorem push (h : Inv ps s G) {p : Nat} {g : Grant} {i : Nat}
    (hg : s.grants p = some g) (ho : g.origin = .small pg i) :
    Inv ps { pushLocal s pg p with grants := Function.update s.grants p none }
      (G.setPage pg
        { G.page pg with free := p :: (G.page pg).free, out := (G.page pg).out.erase p }) := by
  have hs := h.smallGrant hg ho
  obtain ⟨hpos, hlt⟩ := h.area_range hs.page
  have hb := hs.bounds
  have hbs := hs.inService.block_size.2.1
  have hu : g.usable = (s.page.row pg).blockSize := hs.usable
  refine h.setPage hs.page _ ?_ ?_ rfl rfl rfl ?_ rfl (h.grants_erase hg ho rfl)
  · intro x hx
    exact writeWord_outside _ _ _ _ (by omega)
  · intro q hq
    simp [pushLocal, Pages.row, Function.update_of_ne hq]
  · refine h.pageOk_of_inService hs.page ((h.pages pg hs.page).loc_of_mem (Or.inr (Or.inr hs.out)))
      ?_ rfl rfl rfl rfl
    simpa [pushLocal, Pages.row] using hs.inService.push hpos hlt hs.out

/-- Storing a link in a block that is being freed. -/
theorem writeLink (h : Inv ps s G) {p : Nat} {g : Grant} {pg : PageId} {i : Nat}
    (hg : s.grants p = some g) (ho : g.origin = .small pg i) (v : Nat) :
    Inv ps { s with os := { s.os with mem := writeWord s.os.mem p v } } G := by
  have hsize := (h.smallGrant hg ho).two_words
  apply h.write_grant hg
  intro x hx
  exact writeWord_outside _ _ _ _ (by omega)

/-- The head of a page's `thread_free` list is a word. -/
theorem threadFree_lt (h : Inv ps s G) {p : Nat} {g : Grant} {i : Nat}
    (hg : s.grants p = some g) (ho : g.origin = .small pg i) : s.page.threadFree pg < 2 ^ 64 := by
  have hs := h.smallGrant hg ho
  obtain ⟨_, hlt⟩ := h.area_range hs.page
  exact chain_head_lt hs.inService.remote
    (fun a ha => hs.inService.block_lt hlt (Or.inr (Or.inl ha)))

/-- The successful exchange of `heap_free_remote`. -/
theorem remotePush (h : Inv ps s G) {p : Nat} {g : Grant} {i : Nat}
    (hg : s.grants p = some g) (ho : g.origin = .small pg i)
    (hlink : readWord s.os.mem p = s.page.threadFree pg) :
    Inv ps { s with
        page := { s.page with threadFree := Function.update s.page.threadFree pg p }
        grants := Function.update s.grants p none }
      (G.setPage pg
        { G.page pg with remote := p :: (G.page pg).remote, out := (G.page pg).out.erase p }) := by
  have hs := h.smallGrant hg ho
  obtain ⟨hpos, _⟩ := h.area_range hs.page
  refine h.setPage hs.page s.os.mem (fun _ _ => rfl) ?_ rfl rfl rfl ?_ rfl
    (h.grants_erase hg ho rfl)
  · intro q hq
    simp [Pages.row, Function.update_of_ne hq]
  · refine h.pageOk_of_inService hs.page ((h.pages pg hs.page).loc_of_mem (Or.inr (Or.inr hs.out)))
      ?_ rfl rfl rfl rfl
    simpa [Pages.row] using hs.inService.remotePush hpos hs.out hlink

end Inv

end HMalloc
