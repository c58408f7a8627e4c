import HMalloc.AllocRuns

/-!
What an allocation call returns. From its first part to its return a call is in
one of four states (`Progress`): it asks for its block, it has it and frees the
block it has moved, it has failed, or it is done. In the first two the contents
that `hm_realloc` carries over, and the zeroes of a fresh region, are safe from
the other threads.
-/

namespace HMalloc

open Bytes Linked

/-- The block of grant `g` at `p` is what the call was after. -/
def Goal.Fits (goal : Goal) (p : Nat) (g : Grant) : Prop :=
  match goal with
  | .small q c => g.size = q.size ∧ g.usable = classToSize c ∧ ∃ pg i, g.origin = .small pg i
  | .large q offset mmapSize =>
      g.size = q.size ∧ g.usable = mmapSize - offset ∧ ∃ b, g.origin = .large b ∧ p = b + offset

/-- What the block at `p` contains when the call returns it: zeroes, where it was
cleared or comes from a fresh region, or what the old block contained in
`mem₀`. -/
structure Contents (goal : Goal) (mem₀ mem : Mem) (p : Nat) : Prop where
  clear : goal.request.clear = true → goal.request.old = none →
    ∀ i < goal.request.size, mem (p + i) = 0
  fresh : ∀ q offset mmapSize, goal = .large q offset mmapSize → q.old = none →
    ∀ i < q.size, mem (p + i) = 0
  moved : ∀ old u, goal.request.old = some (old, u) →
    ∀ i < goal.request.size, i < u → mem (p + i) = mem₀ (old + i)

/-- The call has its block `p`. -/
structure Obtained (goal : Goal) (mem₀ : Mem) (s : Store) (p : Nat) (holder : Holder) : Prop where
  grant : ∃ g, s.grants p = some g ∧ g.holder = holder ∧ goal.Fits p g
  contents : Contents goal mem₀ s.os.mem p

/-- The contents of the block that is to be moved are as they were in `mem₀`. -/
def OldKept (goal : Goal) (mem₀ : Mem) (s : Store) : Prop :=
  ∀ old u, goal.request.old = some (old, u) → ∀ i < u, s.os.mem (old + i) = mem₀ (old + i)

/-- How far an allocation call has got. `free` are the addresses that were not
handed out at some time of the call. -/
inductive Progress (free : Nat → Prop) (goal : Goal) (mem₀ : Mem) (t : Nat) (s : Store)
    (th : Thread) : Prop where
  | asking (hgoal : th.pc.goal = some goal) (hold : OldKept goal mem₀ s)
      (hnew : ∀ q offset mmapSize b, th.pc = .registerLarge q offset mmapSize b →
        free (b + offset) ∧ ∀ x, b + offset ≤ x → x < b + mmapSize → s.os.mem x = 0)
  | freeing {old u : Nat} (hmove : goal.request.old = some (old, u)) (hfree : th.pc.isFree = true)
      (h : Obtained goal mem₀ s th.pc.returns (.fresh t)) (hfresh : free th.pc.returns)
      (hne : th.pc.returns ≠ old) (hfreed : th.pc.freeing = some old ∨ free old)
  | failed (hidle : th.pc = .idle) (hnull : th.result = 0) (hold : OldKept goal mem₀ s)
      (hlive : ∀ old u, goal.request.old = some (old, u) →
        ∃ g, s.grants old = some g ∧ g.holder = .client ∧ g.usable = u)
  | done (hidle : th.pc = .idle) (h : Obtained goal mem₀ s th.result .client)
      (hfresh : free th.result)
      (hfreed : ∀ old u, goal.request.old = some (old, u) → th.result ≠ old ∧ free old)

theorem Progress.mono {free free' : Nat → Prop} {goal : Goal} {mem₀ : Mem} {t : Nat} {s : Store}
    {th : Thread} (h : Progress free goal mem₀ t s th) (hle : ∀ x, free x → free' x) :
    Progress free' goal mem₀ t s th := by
  cases h with
  | asking hgoal hold hnew =>
      refine .asking hgoal hold fun q offset mmapSize b hpc => ?_
      exact ⟨hle _ (hnew q offset mmapSize b hpc).1, (hnew q offset mmapSize b hpc).2⟩
  | freeing hmove hfree h hfresh hne hfreed =>
      exact .freeing hmove hfree h (hle _ hfresh) hne (hfreed.imp_right (hle _))
  | failed hidle hnull hold hlive => exact .failed hidle hnull hold hlive
  | done hidle h hfresh hfreed =>
      exact .done hidle h (hle _ hfresh) fun old u hold =>
        ⟨(hfreed old u hold).1, hle _ (hfreed old u hold).2⟩

section Steps

variable {ps : PageSize} {free : Nat → Prop} {goal : Goal} {mem₀ : Mem} {t : Nat} {s s' : Store}
  {G G' : Ghost} {th th' : Thread}

/-- The block that is to be moved. -/
theorem ThreadOk.old_grant (h : ThreadOk ps s G t th) (hgoal : th.pc.goal = some goal) {old u : Nat}
    (hold : goal.request.old = some (old, u)) :
    ∃ g, s.grants old = some g ∧ g.holder = .moving t ∧ g.usable = u := by
  have hrequest := Pc.request_of_goal hgoal
  obtain ⟨g, hg, hh⟩ := (h.holders old (.moving t) rfl).mpr ⟨goal.request, u, hrequest, hold⟩
  exact ⟨g, hg, hh, h.moved goal.request old u g hrequest hold hg⟩

/-- A step of the call keeps its contents. -/
theorem OldKept.own (hk : OldKept goal mem₀ s) (h : ThreadOk ps s G t th)
    (hgoal : th.pc.goal = some goal) (hf : StepFrame t s G s' G') : OldKept goal mem₀ s' := by
  intro old u hold i hi
  obtain ⟨g, hg, hh, hu⟩ := h.old_grant hgoal hold
  rw [← hk old u hold i hi]
  exact hf.bytes old g hg (by simp [hh]) (by simp [hh]) (old + i) (by omega) (by omega)

/-- A block that has been delivered. -/
theorem deliver_obtained {s₁ : Store} {q : Request} {b usable : Nat} {origin : Origin}
    (hrun : deliver s₁ t th q b usable origin = (s', th')) (h : ThreadOk ps s G t th)
    (hgoal : th.pc.goal = some goal) (hq : goal.request = q) (hk : OldKept goal mem₀ s')
    (hout : Outcome ps t s G s' G' th') (hne : ∀ old u, q.old = some (old, u) → old ≠ b)
    (hsize : q.size ≤ usable)
    (hfits : ∀ holder, goal.Fits b ⟨q.size, usable, holder, origin⟩)
    (hzero : ∀ q' offset mmapSize, goal = .large q' offset mmapSize → q'.old = none →
      ∀ i < q'.size, s₁.os.mem (b + i) = 0) :
    Obtained goal mem₀ s' b (if q.old = none then .client else .fresh t) := by
  have hgrant := deliver_grant s₁ t th q b usable origin hne
  rw [hrun] at hgrant
  refine ⟨⟨_, hgrant, rfl, hfits _⟩, ?_, ?_, ?_⟩
  · intro hclear hnew i hi
    rw [hq] at hclear hnew hi
    rw [deliver_of_new _ _ _ _ _ _ _ hnew, if_pos hclear] at hrun
    cases hrun
    exact fill_inside _ _ _ _ _ hi
  · intro q' offset mmapSize hlarge hnew i hi
    obtain rfl : q' = q := by
      rw [← hq, hlarge]
      rfl
    rw [deliver_of_new _ _ _ _ _ _ _ hnew] at hrun
    cases hrun
    change (if q'.clear then fill s₁.os.mem b q'.size 0 else s₁.os.mem) (b + i) = 0
    split
    · exact fill_inside _ _ _ _ _ hi
    · exact hzero q' offset mmapSize hlarge hnew i hi
  · intro old u hold i hi hiu
    rw [hq] at hi
    have hold' : q.old = some (old, u) := hq ▸ hold
    -- What was copied is still in the old block, which the new one does not meet.
    rw [← hk old u hold i hiu]
    obtain ⟨g, hg, hh, hu⟩ := h.old_grant hgoal hold
    obtain ⟨g', hg'⟩ := hout.frame.kept old g hg (by simp [hh])
    have husable := (hout.frame.same old g g' hg hg').2
    have hd := hout.data.inv.grants_disjoint hg' hgrant (hne old u hold')
    simp only at hd
    rw [deliver_of_old _ _ _ _ _ _ _ hold'] at hrun
    cases hrun
    change copy _ b old _ (b + i) = copy _ b old _ (old + i)
    have hn : (if q.size < u then q.size else u) ≤ usable := by
      split <;> omega
    rw [copy_inside _ _ _ _ _ (by split <;> omega), copy_outside _ _ _ _ (old + i) (by omega)]

/-- The call goes on after it has its block. -/
theorem Obtained.progress {s₁ : Store} {q : Request} {b usable : Nat} {origin : Origin}
    (hrun : deliver s₁ t th q b usable origin = (s', th')) (hq : goal.request = q)
    (h : Obtained goal mem₀ s' b (if q.old = none then .client else .fresh t)) (hfresh : free b)
    (hne : ∀ old u, q.old = some (old, u) → old ≠ b) : Progress free goal mem₀ t s' th' := by
  cases hold : q.old with
  | none =>
      rw [hold, if_pos rfl] at h
      rw [deliver_of_new _ _ _ _ _ _ _ hold] at hrun
      obtain rfl : th.ret b = th' := congrArg Prod.snd hrun
      refine .done rfl h hfresh (fun old u ho => ?_)
      rw [hq, hold] at ho
      cases ho
  | some r =>
      obtain ⟨old, u⟩ := r
      rw [hold, if_neg (by simp)] at h
      rw [deliver_of_old _ _ _ _ _ _ _ hold] at hrun
      obtain rfl : ({ th with pc := .free old b } : Thread) = th' := congrArg Prod.snd hrun
      exact .freeing (by rw [hq]; exact hold) rfl h hfresh (fun heq => hne old u hold heq.symm)
        (Or.inl rfl)

/-- The lists of a thread that has delivered its block. -/
theorem deliver_serving {s₁ : Store} {q : Request} {b usable k : Nat} {origin : Origin}
    (hrun : deliver s₁ t th q b usable origin = (s', th')) (hheap : th.heap = some k)
    (hout : Outcome ps t s G s' G' th') : Serving s' G' k none := by
  cases hold : q.old with
  | none =>
      rw [deliver_of_new _ _ _ _ _ _ _ hold] at hrun
      obtain rfl : th.ret b = th' := congrArg Prod.snd hrun
      exact hout.thread.lists k hheap
  | some r =>
      obtain ⟨old, u⟩ := r
      rw [deliver_of_old _ _ _ _ _ _ _ hold] at hrun
      obtain rfl : ({ th with pc := .free old b } : Thread) = th' := congrArg Prod.snd hrun
      exact hout.thread.lists k hheap

/-- The page at the head of a class list is in the list, and serves blocks of
its class. -/
theorem Serving.head_mem {k : Nat} {drained : Option PageId} (h : Serving s G k drained) {c : Nat}
    (hne : s.slot k c ≠ emptyPage) :
    s.slot k c ∈ G.cls k c := by
  have hhead := (DList.toChain (h.lists c)).head_eq
  rw [Store.classHead_eq hne rfl] at hhead
  exact List.mem_of_head? hhead.symm

/-- A step of the call while it asks for its block. -/
theorem Progress.ask (hc : Consistent ps s G) (h : ThreadOk ps s G t th) {o : Oracle}
    (hok : StepOk ps o s th) (hrun : stepThread ps o s t th = some (s', th'))
    (hout : Outcome ps t s G s' G' th') (hwas : ∀ x, s.grants x = none → free x)
    (hgoal : th.pc.goal = some goal) (hold : OldKept goal mem₀ s)
    (hnew : ∀ q offset mmapSize b, th.pc = .registerLarge q offset mmapSize b →
      free (b + offset) ∧ ∀ x, b + offset ≤ x → x < b + mmapSize → s.os.mem x = 0) :
    Progress free goal mem₀ t s' th' := by
  have hold' : OldKept goal mem₀ s' := hold.own h hgoal hout.frame
  have hargs := h.args
  cases stepThread_alloc hc h hok hgoal hrun hout with
  | @goes _ pc _ _ hgoal' hplain hgrants =>
      refine .asking hgoal' hold' ?_
      intro q offset mmapSize b hpc
      change pc = _ at hpc
      subst hpc
      rcases hplain with hreg | ⟨q', c, rfl⟩
      · cases hreg
      · cases hgoal'
  | @maps q offset mmapSize b os _ hpc hmap hmem hgrants =>
      rw [hpc] at hgoal hargs
      refine .asking hgoal hold' ?_
      rintro q' offset' mmapSize' b' ⟨⟩
      have hk : KernelOk ps o.mapping s.os mmapSize segmentSize := by
        unfold StepOk at hok
        rwa [hpc] at hok
      have hfits := hargs.fits
      have hpos := hargs.pos
      have hlow := hargs.low
      have hm := osAllocAligned_mapped hk hargs.bound (by decide) hmap
      refine ⟨hwas _ (hc.inv.fresh_not_granted hm (by omega) (by omega)), ?_⟩
      intro x hlo hhi
      rw [hmem, largeHeader_outside _ _ _ _ _ (by omega)]
      exact hm.mem_zero x (by omega) hhi
  | @fails s₁ hgrants =>
      cases ho : goal.request.old with
      | none =>
          have hfail : failAlloc s₁ th goal.request = (s₁, th.ret 0) := by
            unfold failAlloc
            rw [ho]
          rw [hfail] at hold' ⊢
          refine .failed rfl rfl hold' (fun old u hu => ?_)
          rw [ho] at hu
          cases hu
      | some r =>
          obtain ⟨old, u⟩ := r
          have hfail : failAlloc s₁ th goal.request =
              ({ s₁ with grants := setHolder s₁.grants old .client }, th.ret 0) := by
            unfold failAlloc
            rw [ho]
          rw [hfail] at hold' ⊢
          refine .failed rfl rfl hold' (fun old' u' hu => ?_)
          rw [ho] at hu
          cases hu
          obtain ⟨g, hg, _, hu⟩ := h.old_grant hgoal ho
          refine ⟨{ g with holder := .client }, ?_, rfl, hu⟩
          change setHolder s₁.grants old .client old = _
          rw [setHolder_self, hgrants, hg]
          rfl
  | @serves q c k b pg s₁ hgoal' hheap hgrants hslot hnone =>
      subst hgoal'
      have hdel : deliver s₁ t th q b (s₁.page.blockSize pg)
          (.small pg ((b - s₁.page.area pg) / s₁.page.blockSize pg)) =
        ((deliverBlock s₁ t th q pg b).1, (deliverBlock s₁ t th q pg b).2) := rfl
      have hne : ∀ old u, q.old = some (old, u) → old ≠ b := by
        rintro old u ho rfl
        obtain ⟨g, hg, _⟩ := h.old_grant hgoal ho
        rw [hnone] at hg
        cases hg
      have hgrant := deliver_grant s₁ t th q b (s₁.page.blockSize pg)
        (.small pg ((b - s₁.page.area pg) / s₁.page.blockSize pg)) hne
      have hrest := deliver_rest s₁ t th q b (s₁.page.blockSize pg)
        (.small pg ((b - s₁.page.area pg) / s₁.page.blockSize pg))
      rw [hdel] at hgrant hrest
      simp only at hgrant hrest
      have hserve := deliver_serving hdel hheap hout
      generalize (deliverBlock s₁ t th q pg b).1 = s' at *
      generalize (deliverBlock s₁ t th q pg b).2 = th' at *
      have hsmall := hout.data.inv.smallGrant hgrant rfl
      have hslot' : s'.slot k c = pg := by
        rw [hrest]
        exact hslot
      have hmem : pg ∈ G'.cls k c := by
        rw [← hslot']
        exact hserve.head_mem (by rw [hslot']; exact hsmall.page.ne_emptyPage hout.data.inv.regions)
      have hbs : s₁.page.blockSize pg = classToSize c := by
        have := (hout.data.inv.own_page hmem).2.2.2.1
        rwa [hrest] at this
      have hobt := deliver_obtained hdel h hgoal rfl hold' hout hne hsmall.size
        (fun holder => ⟨rfl, hbs, _, _, rfl⟩) (fun q' offset mmapSize hl => by cases hl)
      exact hobt.progress hdel rfl (hwas b hnone) hne
  | @registers q offset mmapSize b w r hpc hreg =>
      rw [hpc] at hargs
      obtain ⟨hfree, hzero⟩ := hnew q offset mmapSize b hpc
      have hgoal' : goal = .large q offset mmapSize := by
        rw [hpc] at hgoal
        exact (Option.some.inj hgoal).symm
      subst hgoal'
      have hk : ∀ w r, storeRegister ps o s b = some (w, r) → w.ok := by
        unfold StepOk at hok
        rwa [hpc] at hok
      obtain ⟨_, htables⟩ := hc.inv.register hreg (hk w r hreg)
      obtain ⟨g₀, hg₀, hfresh, _, husable⟩ := h.large_grant hc.inv hpc
      have hfits := hargs.fits
      generalize hdel : deliver { s with os := w.os, registry := r } t th q (b + offset)
        (mmapSize - offset) (.large b) = result at *
      obtain ⟨s', th'⟩ := result
      have hne : ∀ old u, q.old = some (old, u) → old ≠ b + offset := by
        rintro old u ho rfl
        obtain ⟨g, hg, hh, _⟩ := h.old_grant hgoal ho
        rw [hg₀] at hg
        cases hg
        rw [hh] at hfresh
        cases hfresh
      have hobt := deliver_obtained hdel h hgoal rfl hold' hout hne (by omega)
        (fun holder => ⟨rfl, rfl, b, rfl, rfl⟩) (by
          rintro q' offset' mmapSize' ⟨⟩ _ i hi
          change w.os.mem (b + offset + i) = 0
          rw [htables.bytes hc.inv hg₀ (by omega) (by omega)]
          exact hzero _ (by omega) (by omega))
      exact hobt.progress hdel rfl hfree hne

/-- The block whose link a free writes is a small one. -/
theorem Links.small {p : Nat} (hl : Links s th p) (hinv : Inv ps s G) (h : ThreadOk ps s G t th) :
    ∃ g, s.grants p = some g ∧ g.holder = .freeing t ∧ 16 ≤ g.usable := by
  have hfreeing : th.pc.freeing = some p := by
    rcases hl with ⟨r, hpc, _⟩ | ⟨head, r, hpc⟩ <;> rw [hpc] <;> rfl
  obtain ⟨g, hg, hh⟩ := (h.holders p (.freeing t) rfl).mpr hfreeing
  have hsmall : ∃ pg i, g.origin = .small pg i := by
    cases ho : g.origin with
    | small pg i => exact ⟨pg, i, rfl⟩
    | large b =>
        exfalso
        rcases hl with ⟨r, _, hnot⟩ | ⟨head, r, hpc⟩
        · rw [(hinv.decode_large hg ho).2] at hnot
          cases hnot
        · have hpointers := h.pointers_at hpc
          obtain ⟨_, g', pg, i, hg', ho'⟩ := hpointers
          rw [hg] at hg'
          cases hg'
          rw [ho] at ho'
          cases ho'
  obtain ⟨pg, i, ho⟩ := hsmall
  exact ⟨g, hg, hh, (hinv.smallGrant hg ho).two_words⟩

/-- A free leaves the bytes of every other pointer alone. -/
theorem FreeStep.bytes (hf : FreeStep s th s' th') (hinv : Inv ps s G) (h : ThreadOk ps s G t th)
    {x : Nat} {g : Grant} (hg : s.grants x = some g) (hh : g.holder ≠ .freeing t) {y : Nat}
    (hlo : x ≤ y) (hhi : y < x + g.usable) : s'.os.mem y = s.os.mem y := by
  refine hf.mem y (fun p hl => ?_)
  obtain ⟨gp, hgp, hhp, husable⟩ := hl.small hinv h
  have hne : x ≠ p := by
    rintro rfl
    rw [hg] at hgp
    cases hgp
    exact hh hhp
  have hd := hinv.grants_disjoint hg hgp hne
  omega

/-- A block keeps its contents as long as its bytes stay. -/
theorem Contents.congr {mem mem' : Mem} {p : Nat} (h : Contents goal mem₀ mem p)
    (hsame : ∀ i < goal.request.size, mem' (p + i) = mem (p + i)) :
    Contents goal mem₀ mem' p where
  clear := fun hclear hold i hi => (hsame i hi).trans (h.clear hclear hold i hi)
  fresh := by
    intro q offset mmapSize hgoal hold i hi
    rw [hsame i (by rw [hgoal]; exact hi)]
    exact h.fresh q offset mmapSize hgoal hold i hi
  moved := fun old u hold i hi hiu => (hsame i hi).trans (h.moved old u hold i hi hiu)

theorem Goal.Fits.size {p : Nat} {g : Grant} (h : goal.Fits p g) : g.size = goal.request.size := by
  cases goal <;> exact h.1

theorem Goal.Fits.setHolder {p : Nat} {g : Grant} (h : goal.Fits p g) (holder : Holder) :
    goal.Fits p { g with holder := holder } := by
  cases goal <;> exact h

/-- The bytes a call has asked for are in its block. -/
theorem Inv.fits_usable (hinv : Inv ps s G) {p : Nat} {g : Grant} (hg : s.grants p = some g)
    (h : goal.Fits p g) : goal.request.size ≤ g.usable := by
  rw [← h.size]
  cases ho : g.origin with
  | small pg i => exact (hinv.smallGrant hg ho).size
  | large b =>
      obtain ⟨_, _, _, _, _, hle⟩ := hinv.grants.large p g b hg ho
      exact hle

/-- A step of the call while it frees the block it has moved. -/
theorem Progress.release (hc : Consistent ps s G) (h : ThreadOk ps s G t th) {o : Oracle}
    (hrun : stepThread ps o s t th = some (s', th')) (hwas : ∀ x, s'.grants x = none → free x)
    {old u : Nat} (hmove : goal.request.old = some (old, u)) (hfree : th.pc.isFree = true)
    (hobt : Obtained goal mem₀ s th.pc.returns (.fresh t)) (hfresh : free th.pc.returns)
    (hdiff : th.pc.returns ≠ old) (hfreed : th.pc.freeing = some old ∨ free old) :
    Progress free goal mem₀ t s' th' := by
  have hf := stepThread_free hfree hrun
  obtain ⟨⟨g, hg, hh, hfits⟩, hcontents⟩ := hobt
  have hne : th.pc.freeing ≠ some th.pc.returns := by
    intro heq
    obtain ⟨g', hg', hh'⟩ := (h.holders th.pc.returns (.freeing t) rfl).mpr heq
    rw [hg] at hg'
    cases hg'
    rw [hh] at hh'
    cases hh'
  have hcontents' : Contents goal mem₀ s'.os.mem th.pc.returns := by
    refine hcontents.congr (fun i hi => ?_)
    have husable := hc.inv.fits_usable hg hfits
    exact hf.bytes hc.inv h hg (by simp [hh]) (by omega) (by omega)
  have hfreed' : th'.pc.freeing = some old ∨ free old := by
    rcases hfreed with hold | hold
    · rcases hf.freed with hsame | hgone
      · exact Or.inl (hsame.trans hold)
      · refine Or.inr (hwas old (hgone old hold ?_))
        rintro rfl
        exact hne hold
    · exact Or.inr hold
  rcases hf.goes with ⟨hfree', hreturns, hgrants⟩ | ⟨hidle, hresult, hgrants⟩
  · refine .freeing hmove hfree' ?_ (by rw [hreturns]; exact hfresh)
      (by rw [hreturns]; exact hdiff) hfreed'
    rw [hreturns]
    exact ⟨⟨g, (hgrants _ hne).trans hg, hh, hfits⟩, hcontents'⟩
  · refine .done hidle ?_ (by rw [hresult]; exact hfresh) ?_
    · rw [hresult]
      refine ⟨⟨{ g with holder := .client }, ?_, rfl, hfits.setHolder _⟩, hcontents'⟩
      rw [hgrants _ hne, if_pos ⟨rfl, hc.inv.grant_ne_zero hg⟩, hg]
      rfl
    · intro old' u' hold'
      rw [hmove] at hold'
      cases hold'
      refine ⟨by rw [hresult]; exact hdiff, hfreed'.resolve_left ?_⟩
      rw [hidle]
      simp [Pc.freeing]

end Steps

section Run

variable {ps : PageSize} {free : Nat → Prop} {goal : Goal} {mem₀ : Mem} {t : Nat}
  {sys₀ sys sys' : System} {G G' : Ghost} {call : Call}

/-- The other threads do not hinder a call. -/
theorem Progress.other (hp : Progress free goal mem₀ t sys.store (sys.threads t))
    (hinv : SysInv ps sys G) (hbusy : (sys.threads t).pc ≠ .idle)
    (hby : Bystander ps t sys G sys' G') :
    Progress free goal mem₀ t sys'.store (sys'.threads t) := by
  have hok := hinv.threads t
  cases hp with
  | asking hgoal hold hnew =>
      refine .asking (by rw [hby.pc]; exact hgoal) ?_ ?_
      · intro old u ho i hi
        obtain ⟨g, hg, hh, hu⟩ := hok.old_grant hgoal ho
        rw [← hold old u ho i hi]
        exact hby.bytes old g hg (by rw [hh]; rfl) _ (by omega) (by omega)
      · intro q offset mmapSize b hpc
        rw [hby.pc] at hpc
        obtain ⟨hfree, hzero⟩ := hnew q offset mmapSize b hpc
        refine ⟨hfree, fun x hlo hhi => ?_⟩
        obtain ⟨g, hg, hh, _, hu⟩ := hok.large_grant hinv.data.inv hpc
        rw [hby.bytes (b + offset) g hg (by rw [hh]; rfl) x hlo (by omega)]
        exact hzero x hlo hhi
  | freeing hmove hfree h hfresh hne hfreed =>
      rw [← hby.pc] at hfree hfresh hne hfreed
      refine .freeing hmove hfree ?_ hfresh hne hfreed
      obtain ⟨⟨g, hg, hh, hfits⟩, hcontents⟩ := h
      rw [hby.pc]
      refine ⟨⟨g, (hby.held _ g (by rw [hh]; rfl)).mpr hg, hh, hfits⟩, ?_⟩
      refine hcontents.congr (fun i hi => ?_)
      have husable := hinv.data.inv.fits_usable hg hfits
      exact hby.bytes _ g hg (by rw [hh]; rfl) _ (by omega) (by omega)
  | failed hidle => exact absurd hidle hbusy
  | done hidle => exact absurd hidle hbusy

/-- The addresses that were not handed out in some of the states. -/
def FreeIn (states : List System) (x : Nat) : Prop :=
  ∃ mid ∈ states, mid.store.grants x = none

theorem FreeIn.later {states : List System} {x : Nat} (h : FreeIn states x) (sys : System) :
    FreeIn (sys :: states) x := by
  obtain ⟨mid, hmid, hnone⟩ := h
  exact ⟨mid, List.mem_cons_of_mem _ hmid, hnone⟩

/-- Every run of an allocation call that is not refused at once. -/
theorem CallRun.progress {pc : Pc} {passed : List System}
    (h : CallRun ps t call sys₀ sys passed) (hr : Reachable ps sys₀)
    (hentry : enter ps sys₀.store call = .goto pc) (hgoal : pc.goal = some goal) :
    Progress (FreeIn (sys :: passed)) goal sys₀.store.os.mem t sys.store (sys.threads t) := by
  refine h.induct
    (R := fun sys passed => Progress (FreeIn (sys :: passed)) goal sys₀.store.os.mem t sys.store
      (sys.threads t)) hr ?_ ?_ ?_
  · rintro sys ⟨_, hrun⟩
    rw [exec_call, hentry] at hrun
    cases hrun
    refine .asking ?_ (fun _ _ _ _ _ => rfl) ?_
    · simp only [System.setThread, Function.update_self]
      exact hgoal
    · intro q offset mmapSize b hpc
      simp only [System.setThread, Function.update_self] at hpc
      change pc = _ at hpc
      subst hpc
      have hstarts := enter_starts ps sys₀.store call
      rw [hentry] at hstarts
      rcases hstarts with ⟨_, _, heq⟩ | ⟨_, _, _, heq⟩ | ⟨_, heq⟩ <;> cases heq
  · intro sys passed G o s' th' G' _ _ hinv hp hown
    have hlater := hp.mono fun _ hx => hx.later (sys.setThread t s' th')
    simp only [System.setThread, Function.update_self] at hlater ⊢
    cases hlater with
    | asking hgoal hold hnew =>
        exact .ask hinv.data (hinv.threads t) hown.ok hown.run hown.outcome
          (fun x hx => ⟨sys, by simp, hx⟩) hgoal hold hnew
    | freeing hmove hfree h hfresh hne hfreed =>
        exact .release hinv.data (hinv.threads t) hown.run
          (fun x hx => ⟨_, List.mem_cons_self .., hx⟩) hmove hfree h hfresh hne hfreed
    | failed hidle => exact absurd hidle hown.busy
    | done hidle => exact absurd hidle hown.busy
  · intro sys passed G sys' G' _ hinv hbusy hp hby
    exact (hp.mono fun _ hx => hx.later sys').other hinv hbusy hby

/-- Every state of such a call. -/
theorem During.progress {pc : Pc} (h : During ps t call sys₀ sys) (hr : Reachable ps sys₀)
    (hentry : enter ps sys₀.store call = .goto pc) (hgoal : pc.goal = some goal) :
    Progress (fun _ => True) goal sys₀.store.os.mem t sys.store (sys.threads t) := by
  obtain ⟨passed, hrun⟩ := h.run
  exact (hrun.progress hr hentry hgoal).mono fun _ _ => trivial

/-- A call that is refused or answered at once has returned. -/
theorem During.immediate {result : Nat} (h : During ps t call sys₀ sys)
    (hentry : enter ps sys₀.store call = .ret result) :
    sys = sys₀.setThread t
      { sys₀.store with grants := enterGrants sys₀.store t call (.ret result) }
      ({ sys₀.threads t with call := some call }.ret result) := by
  induction h with
  | start hstep =>
      obtain ⟨_, hrun⟩ := hstep
      rw [exec_call, hentry] at hrun
      exact (Option.some.inj hrun).symm
  | step _ hbusy _ ih =>
      exfalso
      apply hbusy
      rw [ih]
      simp only [System.setThread, Function.update_self]
      rfl

end Run

end HMalloc
