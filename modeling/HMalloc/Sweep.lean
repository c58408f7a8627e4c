import HMalloc.CentralCalls
import HMalloc.RegistryGrowth
import HMalloc.SegmentMap

/-!
`sweep_abandoned` is a filter. Each abandoned page is visited once, in order;
a page that still has blocks out when its remote frees have been collected
stays, and every other goes to its segment's pool. The cursor only ever stands
on a page that stayed, so unmapping an idle segment never takes it away.
-/

namespace HMalloc

open Bytes Linked

/-- What remote frees change: link words of the freed blocks, `thread_free`,
and the blocks that are out. No list of pages is touched. -/
structure Freed (s : Store) (G : Ghost) (s' : Store) (G' : Ghost) : Prop where
  store : s' = { s with
    os := { s.os with mem := s'.os.mem }
    page := { s.page with threadFree := s'.page.threadFree }
    grants := s'.grants }
  ghost : G' = { G with page := G'.page }
  loc : ∀ pg, (G'.page pg).loc = (G.page pg).loc
  out : ∀ pg, (G.page pg).out = [] → (G'.page pg).out = []

theorem Freed.refl (s : Store) (G : Ghost) : Freed s G s G :=
  ⟨rfl, rfl, fun _ => rfl, fun _ h => h⟩

theorem Freed.trans {s s' s'' : Store} {G G' G'' : Ghost} (h : Freed s G s' G')
    (h' : Freed s' G' s'' G'') : Freed s G s'' G'' where
  store := by
    have hstore := h'.store
    rw [h.store] at hstore
    exact hstore
  ghost := by
    have hghost := h'.ghost
    rw [h.ghost] at hghost
    exact hghost
  loc := fun pg => (h'.loc pg).trans (h.loc pg)
  out := fun pg hnil => h'.out pg (h.out pg hnil)

section Frees

variable {ps : PageSize} {s : Store} {G : Ghost}

theorem Inv.remoteFree (h : Inv ps s G) (p : Nat) :
    ∃ G', Inv ps (remoteFree s p) G' ∧ Freed s G (remoteFree s p) G' := by
  unfold HMalloc.remoteFree
  split
  · rename_i size usable holder pg i hg
    have ho : (⟨size, usable, holder, .small pg i⟩ : Grant).origin = .small pg i := rfl
    have hpage : pageOf p = pg := (h.decode_small hg ho).2.2
    rw [hpage]
    have hlt := h.threadFree_lt hg ho
    have hlink := readWord_writeWord s.os.mem p (s.page.threadFree pg) hlt
    refine ⟨_, (h.writeLink hg ho (s.page.threadFree pg)).remotePush hg ho hlink, rfl, rfl, ?_, ?_⟩
    · intro q
      by_cases hq : q = pg
      · subst hq
        rw [Ghost.setPage_self]
      · rw [Ghost.setPage_of_ne G _ hq]
    · intro q hnil
      by_cases hq : q = pg
      · subst hq
        simp [Ghost.setPage_self, hnil]
      · rw [Ghost.setPage_of_ne G _ hq]
        exact hnil
  · exact ⟨G, h, Freed.refl s G⟩

theorem Inv.remoteFrees (h : Inv ps s G) (frees : List Nat) :
    ∃ G', Inv ps (remoteFrees s frees) G' ∧ Freed s G (remoteFrees s frees) G' := by
  induction frees generalizing s G with
  | nil => exact ⟨G, h, Freed.refl s G⟩
  | cons p frees ih =>
      obtain ⟨G₁, hinv₁, hfreed₁⟩ := h.remoteFree p
      obtain ⟨G₂, hinv₂, hfreed₂⟩ := ih hinv₁
      exact ⟨G₂, hinv₂, hfreed₁.trans hfreed₂⟩

end Frees

/-- A page that is in its pool, unless its segment is gone. -/
def InPool (s : Store) (G : Ghost) (pg : PageId) : Prop :=
  IsPage (IsSegment s.os.regions) pg → (G.page pg).loc = .pool

/-- What a call that takes or returns no page leaves alone: the lists and
counters of the central heap, the regions and the registry. -/
structure SameCentral (s s' : Store) : Prop where
  central : s'.central = s.central
  seg : s'.seg = s.seg
  next : s'.page.next = s.page.next
  regions : s'.os.regions = s.os.regions
  registry : s'.registry = s.registry

theorem SameCentral.refl (s : Store) : SameCentral s s := ⟨rfl, rfl, rfl, rfl, rfl⟩

theorem SameCentral.trans {s s' s'' : Store} (h : SameCentral s s') (h' : SameCentral s' s'') :
    SameCentral s s'' :=
  ⟨h'.central.trans h.central, h'.seg.trans h.seg, h'.next.trans h.next,
    h'.regions.trans h.regions, h'.registry.trans h.registry⟩

theorem Freed.sameCentral {s s' : Store} {G G' : Ghost} (h : Freed s G s' G') :
    SameCentral s s' := by
  rw [h.store]
  exact ⟨rfl, rfl, rfl, rfl, rfl⟩

theorem PageStep.sameCentral {pg : PageId} {s s' : Store} (h : PageStep pg s s') :
    SameCentral s s' := by
  have hnext := h.next
  rw [h.rest] at hnext ⊢
  exact ⟨rfl, rfl, hnext, rfl, rfl⟩

/-- A page's fields other than `thread_free`, which any thread may write. -/
def Pages.localRow (page : Pages) (pg : PageId) : PageState :=
  { page.row pg with threadFree := 0 }

theorem Freed.localRow {s s' : Store} {G G' : Ghost} (h : Freed s G s' G') (q : PageId) :
    s'.page.localRow q = s.page.localRow q := by
  rw [h.store]
  rfl

theorem PageStep.localRow {pg : PageId} {s s' : Store} (h : PageStep pg s s') {q : PageId}
    (hq : q ≠ pg) : s'.page.localRow q = s.page.localRow q := by
  unfold Pages.localRow
  rw [h.row q hq]

namespace Inv

variable {ps : PageSize} {s : Store} {G : Ghost} {pg : PageId}

/-- When the cache holds an idle segment, some segment is idle. -/
theorem exists_idle (h : Inv ps s G) (hpos : 0 < s.central.freeSegments) :
    ∃ b ∈ G.segments, (G.pool b).length = usablePagesPerSegment := by
  rw [h.lists.counters.freeSegments, Ghost.idleSegments, List.countP_pos_iff] at hpos
  obtain ⟨b, hb, hfull⟩ := hpos
  exact ⟨b, hb, by simpa using hfull⟩

/-- `unregister` and `unmap` of an idle segment that has left the lists. -/
theorem unmapDead (h : Inv ps s G) {b : Nat} (hdying : G.dying = some b) {s' : Store}
    (hrun : HMalloc.unmapDead s (some b) = some s') :
    Inv ps s' (G.unmapped b) ∧ s'.central = s.central ∧
      ∀ b', IsSegment s'.os.regions b' ↔ b' ≠ b ∧ IsSegment s.os.regions b' := by
  simp only [HMalloc.unmapDead, Option.bind_eq_bind, Option.bind_eq_some_iff, Option.pure_def,
    Option.some.injEq] at hrun
  obtain ⟨r, hunreg, rfl⟩ := hrun
  have hinv := (h.unregister hunreg).unmapSegment hdying
  refine ⟨hinv, rfl, ?_⟩
  obtain ⟨hb, _⟩ := h.lists.places.dying b hdying
  have hsize : s.seg.mmapSize b = segmentSize := h.lists.chains.mmapSize b hb
  intro b'
  change IsSegment (osFree s.os b (s.seg.mmapSize b)).regions b' ↔ _
  rw [hsize]
  obtain ⟨_, hregions, _⟩ := osFree_region h.regions hb
  simp only at hregions
  unfold IsSegment
  rw [hregions]
  by_cases hbb : b' = b
  · simp [hbb]
  · simp [hbb]

/-- A page that goes back to its pool leaves a segment with free pages: its own,
or the one in the cache when its own has to go. -/
theorem SweepRound.avail_ne {s' : Store} {G' : Ghost} {cur : Option PageId} {next : SweepNext}
    (hround : SweepRound G cur pg next G') (hout : (G.page pg).out = []) (h : Inv ps s G)
    (hp : IsPage (IsSegment s.os.regions) pg) (hloc : (G.page pg).loc = .abandoned)
    (hinv : Inv ps s' G') (hregions : s'.os.regions = s.os.regions) (hdying : G'.dying = next.unmap)
    (hidle : next.unmap ≠ none → 0 < s.central.freeSegments) : G'.avail ≠ [] := by
  cases hround with
  | kept hne => exact absurd hout hne
  | returned =>
      have hseg : IsSegment s'.os.regions pg.seg := by
        rw [hregions]
        exact hp.1
      have hav := (hinv.lists.places.avail pg.seg).mpr
        ⟨(hinv.lists.places.segments pg.seg).mpr ⟨hseg, by rw [hdying]; simp⟩, by simp [Ghost.put]⟩
      exact List.ne_nil_of_mem hav
  | dropped =>
      obtain ⟨b, hb, hfull⟩ := h.exists_idle (hidle (by simp))
      have hbseg := h.isSegment_of_mem hb
      -- The idle segment in the cache is another one: `pg` is not in its pool.
      have hne : b ≠ pg.seg := by
        rintro rfl
        have hpgpool := h.lists.places.mem_full_pool hbseg (h.pool_nodup hbseg) hfull hp rfl
        have := ((h.lists.places.pool _ pg).mp hpgpool).2.2
        rw [hloc] at this
        cases this
      have hsegs : b ∈ G.segments.erase pg.seg := (List.mem_erase_of_ne hne).mpr hb
      have hpoolb : G.pool b ≠ [] := by
        intro hnil
        rw [hnil] at hfull
        exact absurd hfull (by decide)
      have hav := (hinv.lists.places.avail b).mpr ⟨hsegs, by
        simpa [Ghost.drop, Ghost.put, Ghost.reclaim, Ghost.setPage,
          Function.update_of_ne hne] using hpoolb⟩
      exact List.ne_nil_of_mem hav

/-- A page with blocks out is collected and stays. -/
theorem sweepVisit_kept (h : Inv ps s G) (hp : IsPage (IsSegment s.os.regions) pg)
    (hloc : (G.page pg).loc = .abandoned) (hout : (G.page pg).out ≠ []) {cur : Option PageId}
    {s₁ s' : Store} {next : SweepNext} (hcollect : collectLocked s pg = some s₁)
    (hused : s₁.page.used pg = (G.page pg).out.length)
    (hvisit : HMalloc.sweepVisit s cur pg = some (s', next)) :
    s' = s₁ ∧ next = ⟨some pg, none⟩ ∧ PageStep pg s s' := by
  have hne : s₁.page.used pg ≠ 0 := by
    rw [hused]
    exact fun hzero => hout (List.eq_nil_of_length_eq_zero hzero)
  simp only [HMalloc.sweepVisit, hcollect, Option.bind_eq_bind, Option.bind_some,
    if_neg hne, Option.pure_def, Option.some.injEq, Prod.mk.injEq] at hvisit
  obtain ⟨s₂, hcollect₂, _, hstep⟩ := h.collect hp (by simp [hloc])
  have heq : some s₁ = some s₂ := hcollect.symm.trans hcollect₂
  refine ⟨hvisit.1.symm, hvisit.2.symm, ?_⟩
  rw [← hvisit.1, Option.some.inj heq]
  exact hstep

/-- One round of the sweep, unmapping included. -/
theorem sweepRound (h : Inv ps s G) (hlimbo : G.limbo = none) (hdying : G.dying = none)
    {cur : Option PageId} {done todo : List PageId} (hab : G.abandoned = done ++ pg :: todo)
    (hcur : done.getLast? = cur) (hread : cursorRead s cur = some pg) :
    ∃ s₁ s' next, collectLocked s pg = some s₁ ∧ s₁.page.used pg = (G.page pg).out.length ∧
      HMalloc.sweepVisit s cur pg = some (s', next) ∧ s'.registry = s.registry ∧
      (∀ b, next.unmap = some b → segmentSize ∣ b) ∧
      ∀ s'', HMalloc.unmapDead s' next.unmap = some s'' →
        ∃ G'', Inv ps s'' G'' ∧ G''.limbo = none ∧ G''.dying = none ∧ G''.cls = G.cls ∧
          (∀ q, InPool s G q → InPool s'' G'' q) ∧
          (((G.page pg).out ≠ [] ∧ next.cursor = some pg ∧ G''.abandoned = G.abandoned ∧
              G''.avail = G.avail ∧ SameCentral s s'' ∧
              ∀ q, q ≠ pg → s''.page.localRow q = s.page.localRow q) ∨
            ((G.page pg).out = [] ∧ next.cursor = cur ∧ G''.abandoned = done ++ todo ∧
              G''.avail ≠ [] ∧ InPool s'' G'' pg)) := by
  have hmemcur : ∀ q, cur = some q → q ∈ G.abandoned := by
    intro q hq
    rw [hab]
    exact List.mem_append_left _ (List.mem_of_getLast? (hcur.trans hq))
  have hmem : pg ∈ G.abandoned := by simp [hab]
  obtain ⟨hp, hloc⟩ := (h.lists.places.abandoned pg).mp hmem
  have hnod := h.lists.chains.abandoned.nodup
  rw [hab] at hnod
  have hfilter : G.abandoned.filter (· ≠ pg) = done ++ todo := by
    rw [hab]
    exact filter_ne_middle hnod
  rw [List.nodup_middle, List.nodup_cons] at hnod
  obtain ⟨s₁, s', next, G', hcollect, hused, hvisit, hinv, hmove, hround, hidle⟩ :=
    h.sweepVisit hlimbo hdying hmemcur hread
  obtain ⟨hcls, hlimbo', hdying', _⟩ := hround.next_ok h hlimbo hdying hmemcur hread
  refine ⟨s₁, s', next, hcollect, hused, hvisit, by rw [hmove.rest], ?_, ?_⟩
  · intro b hb
    have hseg := (hinv.lists.places.dying b (hdying'.trans hb)).1
    exact (hinv.regions.segment hseg).2.1
  intro s'' hunmap
  -- In all cases, a page other than `pg` keeps its place.
  have hpool : ∀ (s₂ : Store) (G₂ : Ghost),
      (∀ b, IsSegment s₂.os.regions b → IsSegment s.os.regions b) →
      (∀ q, q ≠ pg → G₂.page q = G.page q) → ∀ q, InPool s G q → InPool s₂ G₂ q := by
    intro s₂ G₂ hsub hpage q hq hq₂
    have hold := hq ⟨hsub _ hq₂.1, hq₂.2⟩
    have hne : q ≠ pg := by
      rintro rfl
      rw [hloc] at hold
      cases hold
    rw [hpage q hne]
    exact hold
  have havail := fun hout => hround.avail_ne hout h hp hloc hinv hmove.regions hdying' hidle
  cases hround with
  | kept hout =>
      cases hunmap
      obtain ⟨_, _, hstep₁⟩ := h.sweepVisit_kept hp hloc hout hcollect hused hvisit
      refine ⟨_, hinv, hlimbo', hdying', hcls, hpool _ _ ?_ ?_, Or.inl ⟨hout, rfl, rfl, rfl,
        hstep₁.sameCentral, fun q hq => hstep₁.localRow hq⟩⟩
      · intro b hb
        rwa [hmove.regions] at hb
      · exact fun q hq => Ghost.setPage_of_ne G _ hq
  | returned hout =>
      cases hunmap
      refine ⟨_, hinv, hlimbo', hdying', hcls, hpool _ _ ?_ ?_,
        Or.inr ⟨hout, rfl, hfilter, havail hout, ?_⟩⟩
      · intro b hb
        rwa [hmove.regions] at hb
      · intro q hq
        simp [Ghost.put, Ghost.reclaim, Ghost.setPage, Function.update_of_ne hq]
      · intro _
        simp [Ghost.put]
  | dropped hout =>
      obtain ⟨hinv₂, _, hregions⟩ := hinv.unmapDead hdying' hunmap
      refine ⟨_, hinv₂, hlimbo', rfl, hcls, hpool _ _ ?_ ?_,
        Or.inr ⟨hout, rfl, hfilter, havail hout, ?_⟩⟩
      · intro b' hb'
        have := ((hregions b').mp hb').2
        rwa [hmove.regions] at this
      · intro q hq
        simp [Ghost.unmapped, Ghost.drop, Ghost.put, Ghost.reclaim, Ghost.setPage,
          Function.update_of_ne hq]
      · intro hpg
        exact absurd rfl ((hregions _).mp hpg.1).1

/-- Where the cursor of the sweep leads. -/
theorem cursor_read (h : Inv ps s G) {cur : Option PageId} {done todo : List PageId}
    (hab : G.abandoned = done ++ todo) (hcur : done.getLast? = cur) :
    cursorRead s cur = todo.head? := by
  have hchain := h.lists.chains.abandoned
  rw [hab] at hchain
  rcases List.eq_nil_or_concat done with rfl | ⟨front, q, rfl⟩
  · cases hcur
    exact hchain.head_eq
  · rw [List.concat_eq_append] at hcur hchain
    rw [List.getLast?_append] at hcur
    cases hcur
    rw [List.append_assoc] at hchain
    exact hchain.at_mem.head_eq

end Inv

/-- `used` of a visited page after its remote frees have been collected. -/
def SweepEntry.remaining (e : SweepEntry) : Option Nat :=
  (collectLocked e.before e.page).map (fun s => s.page.used e.page)

/-- The page of the round stays abandoned. -/
def SweepEntry.kept (e : SweepEntry) : Bool := e.remaining != some 0

/-- What holds when a round of the sweep starts: the page and the one the
cursor stands on lie in mapped segments, the blocks on its `thread_free` list
are subtracted from `used`, and what is left counts the blocks still out. -/
structure SweepEntry.Ok (e : SweepEntry) : Prop where
  page : IsPage (IsSegment e.before.os.regions) e.page
  cursor : ∀ q, e.cursor = some q → IsPage (IsSegment e.before.os.regions) q
  collected : ∃ remote,
    Chain (link e.before.os.mem) (ptr (e.before.page.threadFree e.page)) remote ∧
    remote.length ≤ e.before.page.used e.page ∧
    e.remaining = some (e.before.page.used e.page - remote.length)
  freed : (∀ p g i, e.before.grants p = some g → g.origin ≠ .small e.page i) →
    e.remaining = some 0

theorem Inv.sweepEntry_ok {ps : PageSize} {s s₁ : Store} {G : Ghost} (h : Inv ps s G)
    {cur : Option PageId} {done todo : List PageId} {pg : PageId}
    (hab : G.abandoned = done ++ pg :: todo) (hcur : done.getLast? = cur)
    (hcollect : collectLocked s pg = some s₁) (hused : s₁.page.used pg = (G.page pg).out.length) :
    (⟨cur, pg, s⟩ : SweepEntry).remaining = some (G.page pg).out.length ∧
      (⟨cur, pg, s⟩ : SweepEntry).Ok := by
  have hplace : ∀ q ∈ G.abandoned,
      IsPage (IsSegment s.os.regions) q ∧ (G.page q).loc = .abandoned :=
    fun q hq => (h.lists.places.abandoned q).mp hq
  obtain ⟨hp, hloc⟩ := hplace pg (by simp [hab])
  have hin := (h.pages pg hp).inService (by simp [hloc])
  have hremaining : (⟨cur, pg, s⟩ : SweepEntry).remaining = some (G.page pg).out.length := by
    simp only [SweepEntry.remaining, hcollect, Option.map_some, hused]
  have hcount : s.page.used pg = (G.page pg).out.length + (G.page pg).remote.length := hin.used
  refine ⟨hremaining, hp, ?_, ?_, ?_⟩
  · intro q hq
    refine (hplace q ?_).1
    rw [hab]
    exact List.mem_append_left _ (List.mem_of_getLast? (hcur.trans hq))
  · refine ⟨(G.page pg).remote, hin.remote, by simp only; omega, ?_⟩
    rw [hremaining]
    simp only [Option.some.injEq]
    omega
  · intro hfreed
    have hnil : (G.page pg).out = [] := by
      by_contra hne
      obtain ⟨p, hpout⟩ := List.exists_mem_of_ne_nil _ hne
      obtain ⟨g, i, hg, ho⟩ := h.grants.out pg p hp hpout
      exact hfreed p g i hg ho
    rw [hremaining, hnil]
    rfl

/-- A round of the sweep starts from a consistent store, on an abandoned page. -/
def SweepEntry.Sound (ps : PageSize) (e : SweepEntry) : Prop :=
  ∃ G, Inv ps e.before G ∧ G.limbo = none ∧ G.dying = none ∧ e.page ∈ G.abandoned

/-- Unmapping ends as long as the registry has an empty slot. -/
theorem unmapDead_ends {s : Store} (hspare : s.registry.Spare) {dead : Option Nat}
    (hdvd : ∀ b, dead = some b → segmentSize ∣ b) :
    ∃ s', unmapDead s dead = some s' ∧ s'.registry.Spare := by
  cases dead with
  | none => exact ⟨s, rfl, hspare⟩
  | some b =>
      obtain ⟨_, r, hrun, hspare'⟩ := hspare.search (hdvd b rfl)
      exact ⟨_, by simp [unmapDead, hrun]; rfl, hspare'⟩

/-- The result of the rounds of a sweep from a cursor on. -/
structure SweepResult (ps : PageSize) (s : Store) (G : Ghost) (done todo : List PageId)
    (s' : Store) (log : List SweepEntry) (G' : Ghost) : Prop where
  inv : Inv ps s' G'
  limbo : G'.limbo = none
  dying : G'.dying = none
  cls : G'.cls = G.cls
  visited : log.map SweepEntry.page = todo
  abandoned : G'.abandoned = done ++ (log.filter SweepEntry.kept).map SweepEntry.page
  entries : ∀ e ∈ log, e.Ok
  pool : ∀ q, InPool s G q → InPool s' G' q
  returned : ∀ e ∈ log, e.kept = false → InPool s' G' e.page
  same : (∀ e ∈ log, e.kept = true) → G'.avail = G.avail ∧ SameCentral s s' ∧
    ∀ q, q ∉ todo → s'.page.localRow q = s.page.localRow q
  avail : (∃ e ∈ log, e.kept = false) → G'.avail ≠ []
  sound : ∀ e ∈ log, e.Sound ps

section Rounds

variable {ps : PageSize} {s s₁ s' : Store} {G G₁ G' : Ghost} {done todo : List PageId}
  {log : List SweepEntry} {e : SweepEntry}

/-- Remote frees before the rounds take no part in what the rounds do. -/
theorem SweepResult.of_freed (hres : SweepResult ps s₁ G₁ done todo s' log G')
    (hfreed : Freed s G s₁ G₁) : SweepResult ps s G done todo s' log G' where
  inv := hres.inv
  limbo := hres.limbo
  dying := hres.dying
  cls := by rw [hres.cls, hfreed.ghost]
  visited := hres.visited
  abandoned := hres.abandoned
  entries := hres.entries
  pool := by
    intro q hq
    refine hres.pool q (fun hq₁ => ?_)
    rw [hfreed.sameCentral.regions] at hq₁
    rw [hfreed.loc]
    exact hq hq₁
  returned := hres.returned
  same := by
    intro hall
    obtain ⟨hav, hsame, hlocal⟩ := hres.same hall
    refine ⟨by rw [hav, hfreed.ghost], hfreed.sameCentral.trans hsame, fun q hq => ?_⟩
    rw [hlocal q hq, hfreed.localRow q]
  avail := hres.avail
  sound := hres.sound

/-- A round that leaves its page abandoned, before the others. -/
theorem SweepResult.cons_kept (hres : SweepResult ps s₁ G₁ (done ++ [e.page]) todo s' log G')
    (hkept : e.kept = true) (hok : e.Ok) (hsound : e.Sound ps) (hcls : G₁.cls = G.cls)
    (hpool : ∀ q, InPool s G q → InPool s₁ G₁ q) (havail : G₁.avail = G.avail)
    (hsame : SameCentral s s₁)
    (hlocal : ∀ q, q ≠ e.page → s₁.page.localRow q = s.page.localRow q) :
    SweepResult ps s G done (e.page :: todo) s' (e :: log) G' where
  inv := hres.inv
  limbo := hres.limbo
  dying := hres.dying
  cls := hres.cls.trans hcls
  visited := by rw [List.map_cons, hres.visited]
  abandoned := by
    rw [hres.abandoned, List.filter_cons_of_pos hkept]
    simp
  entries := List.forall_mem_cons.mpr ⟨hok, hres.entries⟩
  pool := fun q hq => hres.pool q (hpool q hq)
  returned := by
    refine List.forall_mem_cons.mpr ⟨fun hnot => ?_, hres.returned⟩
    rw [hkept] at hnot
    cases hnot
  same := by
    intro hall
    obtain ⟨hav, hsame', hlocal'⟩ := hres.same (fun e' he' => hall e' (List.mem_cons_of_mem _ he'))
    refine ⟨hav.trans havail, hsame.trans hsame', fun q hq => ?_⟩
    rw [List.mem_cons, not_or] at hq
    rw [hlocal' q hq.2, hlocal q hq.1]
  avail := by
    rintro ⟨e', he', hnot⟩
    rcases List.mem_cons.mp he' with rfl | he'
    · rw [hkept] at hnot
      cases hnot
    · exact hres.avail ⟨e', he', hnot⟩
  sound := List.forall_mem_cons.mpr ⟨hsound, hres.sound⟩

/-- A round that gives its page back to the pool, before the others. -/
theorem SweepResult.cons_returned (hres : SweepResult ps s₁ G₁ done todo s' log G')
    (hkept : e.kept = false) (hok : e.Ok) (hsound : e.Sound ps) (hcls : G₁.cls = G.cls)
    (hpool : ∀ q, InPool s G q → InPool s₁ G₁ q) (havail : G₁.avail ≠ [])
    (hin : InPool s₁ G₁ e.page) :
    SweepResult ps s G done (e.page :: todo) s' (e :: log) G' where
  inv := hres.inv
  limbo := hres.limbo
  dying := hres.dying
  cls := hres.cls.trans hcls
  visited := by rw [List.map_cons, hres.visited]
  abandoned := by rw [hres.abandoned, List.filter_cons_of_neg (by rw [hkept]; simp)]
  entries := List.forall_mem_cons.mpr ⟨hok, hres.entries⟩
  pool := fun q hq => hres.pool q (hpool q hq)
  returned := List.forall_mem_cons.mpr ⟨fun _ => hres.pool e.page hin, hres.returned⟩
  same := by
    intro hall
    have := hall e List.mem_cons_self
    rw [hkept] at this
    cases this
  avail := by
    intro _
    by_cases hall : ∀ e' ∈ log, e'.kept = true
    · rw [(hres.same hall).1]
      exact havail
    · push Not at hall
      obtain ⟨e', he', hnot⟩ := hall
      exact hres.avail ⟨e', he', by simpa using hnot⟩
  sound := List.forall_mem_cons.mpr ⟨hsound, hres.sound⟩

/-- No page is left to visit. -/
theorem SweepResult.nil (h : Inv ps s G) (hlimbo : G.limbo = none) (hdying : G.dying = none)
    (hab : G.abandoned = done ++ []) : SweepResult ps s G done [] s [] G where
  inv := h
  limbo := hlimbo
  dying := hdying
  cls := rfl
  visited := rfl
  abandoned := hab
  entries := by simp
  pool := fun _ hq => hq
  returned := by simp
  same := fun _ => ⟨rfl, SameCentral.refl s, fun _ _ => rfl⟩
  avail := by simp
  sound := by simp

end Rounds

/-- The loop of `sweep_abandoned`: by induction on the pages that are still to
be visited. -/
theorem sweepLoop_spec {ps : PageSize} (frees : Nat → List Nat) {fuel k : Nat} {s : Store}
    {G : Ghost} {cur : Option PageId} {done todo : List PageId} (h : Inv ps s G)
    (hlimbo : G.limbo = none) (hdying : G.dying = none) (hab : G.abandoned = done ++ todo)
    (hcur : done.getLast? = cur) (hfuel : todo.length < fuel) :
    (s.registry.Spare → (sweepLoop frees fuel k s cur).isSome) ∧
      ∀ s' log, sweepLoop frees fuel k s cur = some (s', log) →
        ∃ G', SweepResult ps s G done todo s' log G' := by
  induction todo generalizing fuel k s G cur done with
  | nil =>
      obtain ⟨fuel, rfl⟩ : ∃ n, fuel = n + 1 := ⟨fuel - 1, by simp at hfuel; omega⟩
      obtain ⟨G₀, hinv₀, hfreed⟩ := h.remoteFrees (frees k)
      have hghost := hfreed.ghost
      have hab₀ : G₀.abandoned = done ++ [] := by rw [hghost]; exact hab
      have hread := hinv₀.cursor_read hab₀ hcur
      have hloop : sweepLoop frees (fuel + 1) k s cur = some (remoteFrees s (frees k), []) := by
        simp only [sweepLoop, hread, List.head?_nil]
      rw [hloop]
      refine ⟨fun _ => rfl, ?_⟩
      rintro s' log ⟨⟩
      have hres := SweepResult.nil hinv₀ (by rw [hghost]; exact hlimbo)
        (by rw [hghost]; exact hdying) hab₀
      exact ⟨G₀, hres.of_freed hfreed⟩
  | cons pg todo ih =>
      obtain ⟨fuel, rfl⟩ : ∃ n, fuel = n + 1 := ⟨fuel - 1, by simp at hfuel; omega⟩
      rw [List.length_cons] at hfuel
      obtain ⟨G₀, hinv₀, hfreed⟩ := h.remoteFrees (frees k)
      have hghost := hfreed.ghost
      have hlimbo₀ : G₀.limbo = none := by rw [hghost]; exact hlimbo
      have hdying₀ : G₀.dying = none := by rw [hghost]; exact hdying
      have hab₀ : G₀.abandoned = done ++ pg :: todo := by rw [hghost]; exact hab
      have hread := hinv₀.cursor_read hab₀ hcur
      obtain ⟨s₁, s', next, hcollect, hused, hvisit, hreg, hdvd, hafter⟩ :=
        hinv₀.sweepRound hlimbo₀ hdying₀ hab₀ hcur hread
      obtain ⟨hremaining, hentry⟩ := hinv₀.sweepEntry_ok hab₀ hcur hcollect hused
      have hsound : (⟨cur, pg, remoteFrees s (frees k)⟩ : SweepEntry).Sound ps :=
        ⟨G₀, hinv₀, hlimbo₀, hdying₀, by simp [hab₀]⟩
      have hloop : sweepLoop frees (fuel + 1) k s cur =
          (unmapDead s' next.unmap).bind (fun s₂ =>
            (sweepLoop frees fuel (k + 1) s₂ next.cursor).bind (fun r =>
              some (r.1, ⟨cur, pg, remoteFrees s (frees k)⟩ :: r.2))) := by
        simp only [sweepLoop, hread, List.head?_cons, hvisit, Option.bind_eq_bind,
          Option.bind_some, Option.pure_def]
      rw [hloop]
      have hregistry : s'.registry = s.registry := hreg.trans hfreed.sameCentral.registry
      have hlen : todo.length < fuel := by omega
      generalize remoteFrees s (frees k) = s₀ at *
      have hrest : ∀ s₂, unmapDead s' next.unmap = some s₂ →
          (s₂.registry.Spare → (sweepLoop frees fuel (k + 1) s₂ next.cursor).isSome) ∧
          ∀ s₃ log, sweepLoop frees fuel (k + 1) s₂ next.cursor = some (s₃, log) →
            ∃ G', SweepResult ps s₀ G₀ done (pg :: todo) s₃ (⟨cur, pg, s₀⟩ :: log) G' := by
        intro s₂ hunmap
        obtain ⟨G₂, hinv₂, hlimbo₂, hdying₂, hcls₂, hpool₂, hcase⟩ := hafter s₂ hunmap
        rcases hcase with ⟨hout, hnext, hab₂, havail₂, hsame₂, hlocal₂⟩ |
          ⟨hout, hnext, hab₂, havail₂, hin₂⟩
        · have hkept : (⟨cur, pg, s₀⟩ : SweepEntry).kept = true := by
            have hne : (G₀.page pg).out.length ≠ 0 :=
              fun hzero => hout (List.eq_nil_of_length_eq_zero hzero)
            simp [SweepEntry.kept, hremaining, hne]
          have hab' : G₂.abandoned = (done ++ [pg]) ++ todo := by rw [hab₂, hab₀]; simp
          have hcur' : (done ++ [pg]).getLast? = next.cursor := by rw [hnext]; simp
          obtain ⟨hends, hresult⟩ := ih (k := k + 1) hinv₂ hlimbo₂ hdying₂ hab' hcur' hlen
          refine ⟨hends, fun s₃ log hrun => ?_⟩
          obtain ⟨G', hres⟩ := hresult s₃ log hrun
          exact ⟨G', hres.cons_kept (e := ⟨cur, pg, s₀⟩) hkept hentry hsound hcls₂ hpool₂ havail₂
            hsame₂ hlocal₂⟩
        · have hkept : (⟨cur, pg, s₀⟩ : SweepEntry).kept = false := by
            simp [SweepEntry.kept, hremaining, hout]
          have hcur' : done.getLast? = next.cursor := by rw [hnext]; exact hcur
          obtain ⟨hends, hresult⟩ := ih (k := k + 1) hinv₂ hlimbo₂ hdying₂ hab₂ hcur' hlen
          refine ⟨hends, fun s₃ log hrun => ?_⟩
          obtain ⟨G', hres⟩ := hresult s₃ log hrun
          exact ⟨G', hres.cons_returned (e := ⟨cur, pg, s₀⟩) hkept hentry hsound hcls₂ hpool₂
            havail₂ hin₂⟩
      constructor
      · intro hspare
        rw [← hregistry] at hspare
        obtain ⟨s₂, hunmap, hspare₂⟩ := unmapDead_ends hspare hdvd
        obtain ⟨r, hr⟩ := Option.isSome_iff_exists.mp ((hrest s₂ hunmap).1 hspare₂)
        simp [hunmap, hr]
      · intro s₃ log hrun
        simp only [Option.bind_eq_some_iff, Option.some.injEq, Prod.mk.injEq] at hrun
        obtain ⟨s₂, hunmap, ⟨s₄, log'⟩, hrec, rfl, rfl⟩ := hrun
        obtain ⟨G', hres⟩ := (hrest s₂ hunmap).2 s₄ log' hrec
        exact ⟨G', hres.of_freed hfreed⟩

/-- The store is consistent, and no call of the central heap is under way. -/
def Settled (ps : PageSize) (s : Store) : Prop :=
  ∃ G, Inv ps s G ∧ G.limbo = none ∧ G.dying = none

theorem sweepAbandoned_spec {ps : PageSize} (frees : Nat → List Nat) {s : Store} {G : Ghost}
    (h : Inv ps s G) (hlimbo : G.limbo = none) (hdying : G.dying = none) :
    (s.registry.Spare → (sweepAbandoned frees s).isSome) ∧
      ∀ s' log, sweepAbandoned frees s = some (s', log) →
        ∃ G', SweepResult ps s G [] G.abandoned s' log G' :=
  sweepLoop_spec frees h hlimbo hdying rfl rfl
    (by rw [h.lists.counters.abandonedCount]; exact Nat.lt_succ_self _)

/-- A page that the sweep has returned: its segment is gone, or it is in its
segment's free list exactly once, without an owner. -/
def Returned (s : Store) (pg : PageId) : Prop :=
  ¬ IsSegment s.os.regions pg.seg ∨
    ∃ pool, Chain s.page.next (s.seg.freeList pg.seg) pool ∧ pool.count pg = 1 ∧
      s.page.owner pg = .null ∧ s.page.inUse pg = false ∧ s.page.used pg = 0

theorem Inv.returned {ps : PageSize} {s : Store} {G : Ghost} (h : Inv ps s G) {pg : PageId}
    (hidx : firstUsablePage ≤ pg.idx ∧ pg.idx < pagesPerSegment) (hpool : InPool s G pg) :
    Returned s pg := by
  by_cases hseg : IsSegment s.os.regions pg.seg
  · have hp : IsPage (IsSegment s.os.regions) pg := ⟨hseg, hidx⟩
    have hloc := hpool hp
    have hchain := h.lists.chains.pool pg.seg hseg
    have hmem : pg ∈ G.pool pg.seg := (h.lists.places.pool pg.seg pg).mpr ⟨hp, rfl, hloc⟩
    have hpage := (h.pages pg hp).loc
    unfold LocOk at hpage
    rw [hloc] at hpage
    exact Or.inr ⟨G.pool pg.seg, hchain, List.count_eq_one_of_mem hchain.nodup hmem,
      hpage.1, hpage.2.1, hpage.2.2.used⟩
  · exact Or.inl hseg

/-- `sweep_abandoned` is a filter. From every consistent store, with remote
frees arriving before every round: each abandoned page is visited exactly once,
in the order of the list; the list that is left is the old one restricted to
the pages whose `used`, less what was collected, is not zero; every other page
is back in its pool, once, and `abandoned_count` is lower by their number. At
each visit the page and the page under the cursor lie in mapped segments, and a
page without live blocks is reclaimed. The sweep ends if the registry has an
empty slot, which is all its unmapping needs. -/
theorem sweep_is_filter {ps : PageSize} {s : Store} (hs : Settled ps s)
    {abandoned : List PageId} (hlist : Chain s.page.next s.central.abandoned abandoned)
    (frees : Nat → List Nat) :
    (s.registry.Spare → (sweepAbandoned frees s).isSome) ∧
    ∀ s' log, sweepAbandoned frees s = some (s', log) →
      Settled ps s' ∧ log.map SweepEntry.page = abandoned ∧
      Chain s'.page.next s'.central.abandoned
        ((log.filter SweepEntry.kept).map SweepEntry.page) ∧
      (∀ e ∈ log, e.kept = false → Returned s' e.page) ∧
      s'.central.abandonedCount + log.countP (fun e => !e.kept) = s.central.abandonedCount ∧
      ∀ e ∈ log, e.Ok := by
  obtain ⟨G, h, hlimbo, hdying⟩ := hs
  have hG : abandoned = G.abandoned := hlist.unique h.lists.chains.abandoned
  obtain ⟨hends, hresult⟩ := sweepAbandoned_spec frees h hlimbo hdying
  refine ⟨hends, ?_⟩
  intro s' log hrun
  obtain ⟨G', hres⟩ := hresult s' log hrun
  have hab := hres.abandoned
  rw [List.nil_append] at hab
  refine ⟨⟨G', hres.inv, hres.limbo, hres.dying⟩, hres.visited.trans hG.symm, ?_, ?_, ?_,
    hres.entries⟩
  · rw [← hab]
    exact hres.inv.lists.chains.abandoned
  · intro e he hnot
    exact hres.inv.returned (hres.entries e he).page.2 (hres.returned e he hnot)
  · have hsplit := List.length_eq_countP_add_countP SweepEntry.kept (l := log)
    have hlen := congrArg List.length hres.visited
    rw [List.length_map] at hlen
    rw [hres.inv.lists.counters.abandonedCount, h.lists.counters.abandonedCount, hab,
      List.length_map, ← List.countP_eq_length_filter, ← hlen, hsplit]
    simp

theorem Settled.init (ps : PageSize) : Settled ps Store.init :=
  ⟨Ghost.init, Inv.init ps, rfl, rfl⟩

theorem spare_init : Registry.init.Spare :=
  ⟨Registry.inv_init, fun hok => absurd rfl hok.slots_ne⟩

/-- When one segment has free pages, they can be taken until none is left. -/
theorem Inv.drain {ps : PageSize} {k c b : Nat} (hc : c < numSizeClasses) (pool : List PageId)
    {s : Store} {G : Ghost} (h : Inv ps s G) (hdying : G.dying = none) (hav : G.avail = [b])
    (hpool : G.pool b = pool) :
    ∃ s' G' pg, Inv ps s' G' ∧ G'.limbo = G.limbo ∧ G'.dying = none ∧
      G'.abandoned = G.abandoned ∧ s'.central.avail = none ∧ s'.registry = s.registry ∧
      pg ∈ G'.cls k c := by
  induction pool generalizing s G with
  | nil =>
      have hb := ((h.lists.places.avail b).mp (by simp [hav])).2
      exact absurd hpool hb
  | cons first rest ih =>
      have havail : s.central.avail ≠ none := by
        intro hnone
        rw [h.avail_nil hnone] at hav
        cases hav
      obtain ⟨pg, rest', s', _, _, hpg, hpool', _, hinv, hmove⟩ := h.take havail hc k
      have hseg : pg.seg = b := by
        have hmem : pg.seg ∈ G.avail := by
          refine (h.lists.places.avail pg.seg).mpr ⟨?_, by rw [hpool']; simp⟩
          exact (h.lists.places.segments pg.seg).mpr ⟨hpg.1, by rw [hdying]; simp⟩
        simpa [hav] using hmem
      rw [hseg] at hpool' hinv
      rw [hpool] at hpool'
      cases hpool'
      have hregistry : s'.registry = s.registry := by rw [hmove.rest]
      by_cases hrest : rest = []
      · refine ⟨s', _, first, hinv, rfl, hdying, rfl, ?_, hregistry, by simp [Ghost.take]⟩
        have hchain := hinv.lists.chains.avail
        simp only [Ghost.take, hrest, if_true, hav, List.erase_cons_head] at hchain
        exact dlist_nil.mp hchain
      · obtain ⟨s₂, G₂, pg₂, hinv₂, hlimbo₂, hdying₂, hab₂, hav₂, hreg₂, hmem₂⟩ :=
          ih hinv hdying (by simp [Ghost.take, hrest, hav]) (Function.update_self ..)
        exact ⟨s₂, G₂, pg₂, hinv₂, hlimbo₂, hdying₂, hab₂, hav₂, hreg₂.trans hregistry, hmem₂⟩

/-- A first segment is mapped, its pages are taken and one of them is abandoned. -/
theorem exists_abandoned : ∃ s pg, Settled page4k s ∧ s.registry = Registry.init ∧
    s.central.avail = none ∧ Chain s.page.next s.central.abandoned [pg] := by
  have hkernel : KernelOk page4k (some segmentSize) Os.init segmentSize segmentSize := by
    rintro base ⟨⟩ len hlen
    have hlength : mmapLength page4k.bytes segmentSize segmentSize = some (2 * segmentSize) := by
      decide +kernel
    cases hlength.symm.trans hlen
    exact ⟨by decide, by decide, by decide, fun _ _ _ => rfl⟩
  have hsize : segmentSize < 2 ^ 64 := by decide
  rcases osAllocAligned_spec page4k .small hkernel hsize hsize with hnone | ⟨b, os, _, hm, hdvd⟩
  · exact absurd (congrArg Prod.fst hnone) (by decide +kernel)
  · have h₁ := (Inv.init page4k).mapSegment (s := Store.init) hm hdvd rfl
    have hinit := initSegment_spec (s := { Store.init with os := os }) b rfl
    obtain ⟨s₂, G₂, pg, h₂, hlimbo, hdying, hab, hav, hregistry, hpg⟩ :=
      h₁.drain (k := segmentSize) (c := 0) (by decide) _ rfl rfl rfl
    obtain ⟨h₃, _⟩ := h₂.abandonPage hlimbo hdying hpg
    refine ⟨_, pg, ⟨_, h₃, hlimbo, hdying⟩, ?_, hav, ?_⟩
    · change s₂.registry = _
      rw [hregistry, hinit.rest]
      rfl
    · have hchain := h₃.lists.chains.abandoned
      rwa [Ghost.abandon, hab] at hchain

/-- The sweep gives back a page that was abandoned. -/
theorem sweep_reclaims_abandoned : ∃ s pg s' log, Settled page4k s ∧
    Chain s.page.next s.central.abandoned [pg] ∧
    sweepAbandoned (fun _ => []) s = some (s', log) ∧ Settled page4k s' ∧
    log.map SweepEntry.page = [pg] := by
  obtain ⟨s, pg, hs, hreg, _, hchain⟩ := exists_abandoned
  obtain ⟨hends, hfilter⟩ := sweep_is_filter hs hchain (fun _ => [])
  obtain ⟨⟨s', log⟩, hrun⟩ := Option.isSome_iff_exists.mp (hends (hreg ▸ spare_init))
  obtain ⟨hs', hlog, _⟩ := hfilter s' log hrun
  exact ⟨s, pg, s', log, hs, hchain, hrun, hs', hlog⟩

end HMalloc
