import HMalloc.CallRuns

/-!
What the steps of an allocation call do (`AllocStep`) and what the steps of a
free do (`FreeStep`), as far as the client can see it: which pointers are
handed out and given up, and from which page or region a block comes. An
allocation call keeps its goal, a block of a size class or a large region, from
its first part to its return.
-/

namespace HMalloc

open Bytes Linked

/-- What an allocation call is after. -/
inductive Goal where
  | small (q : Request) (c : Nat)
  | large (q : Request) (offset mmapSize : Nat)
  deriving DecidableEq

def Goal.request : Goal → Request
  | .small q _ | .large q _ _ => q

def After.goal : After → Option Goal
  | .sweeping q c _ => some (.small q c)
  | _ => none

/-- The goal of the allocation call a thread is in. -/
def Pc.goal : Pc → Option Goal
  | .small q c | .linkHeap q c _ | .walk q c _ | .acquire q c | .sweep q c _
  | .mapSegment q c | .registerSegment q c _ => some (.small q c)
  | .unregisterSegment _ after | .unmapSegment _ after => after.goal
  | .large q offset mmapSize | .registerLarge q offset mmapSize _ =>
      some (.large q offset mmapSize)
  | _ => none

theorem Pc.request_of_goal {pc : Pc} {goal : Goal} (h : pc.goal = some goal) :
    pc.request = some goal.request := by
  cases pc with
  | small | linkHeap | walk | acquire | sweep | mapSegment | registerSegment | large
  | registerLarge => cases h; rfl
  | unregisterSegment b after | unmapSegment b after =>
      cases after with
      | sweeping => cases h; rfl
      | freed | destroying => cases h
  | idle | free | remote | release | unmapLarge | destroy | hand | unlinkHeap | unmapHeap => cases h

section Deliver

variable (s : Store) (t : Nat) (th : Thread) (q : Request) (b usable : Nat) (origin : Origin)

/-- The grant of a block that has been delivered. -/
theorem deliver_grant (hold : ∀ old u, q.old = some (old, u) → old ≠ b) :
    (deliver s t th q b usable origin).1.grants b =
      some ⟨q.size, usable, if q.old = none then .client else .fresh t, origin⟩ := by
  cases ho : q.old with
  | none =>
      rw [deliver_of_new _ _ _ _ _ _ _ ho]
      exact Function.update_self ..
  | some r =>
      obtain ⟨old, u⟩ := r
      have hne : b ≠ old := fun heq => hold old u ho heq.symm
      rw [deliver_of_old _ _ _ _ _ _ _ ho]
      exact (setHolder_of_ne _ _ hne).trans (Function.update_self ..)

theorem deliver_origin :
    ∃ g, (deliver s t th q b usable origin).1.grants b = some g ∧ g.origin = origin := by
  by_cases hold : ∃ old u, q.old = some (old, u) ∧ old = b
  · obtain ⟨old, u, ho, rfl⟩ := hold
    rw [deliver_of_old _ _ _ _ _ _ _ ho]
    refine ⟨⟨q.size, usable, .freeing t, origin⟩, (setHolder_self _ _ _).trans ?_, rfl⟩
    rw [Function.update_self]
    rfl
  · exact ⟨_, deliver_grant s t th q b usable origin
      (fun old u ho heq => hold ⟨old, u, ho, heq⟩), rfl⟩

/-- The other pointers are as they were, but for the one that is moved. -/
theorem deliver_grants {x : Nat} (hx : x ≠ b) (hold : ∀ old u, q.old = some (old, u) → x ≠ old) :
    (deliver s t th q b usable origin).1.grants x = s.grants x := by
  cases ho : q.old with
  | none =>
      rw [deliver_of_new _ _ _ _ _ _ _ ho]
      exact Function.update_of_ne hx ..
  | some r =>
      obtain ⟨old, u⟩ := r
      rw [deliver_of_old _ _ _ _ _ _ _ ho]
      exact (setHolder_of_ne _ _ (hold old u ho)).trans (Function.update_of_ne hx ..)

end Deliver

/-- What a step of thread `t` does that is in an allocation call: it goes on, it
maps the region it asks for, it fails, or it has its block and delivers it. -/
inductive AllocStep (ps : PageSize) (o : Oracle) (s : Store) (t : Nat) (th : Thread) (goal : Goal) :
    Store → Thread → Prop where
  | goes {s' : Store} {pc : Pc} {heap : Option Nat} {made : Bool} (hgoal : pc.goal = some goal)
      (hplain : pc.registers = none ∨ ∃ q c, goal = .small q c) (hgrants : s'.grants = s.grants) :
      AllocStep ps o s t th goal s' { th with pc := pc, heap := heap, guardMade := made }
  | maps {q : Request} {offset mmapSize b : Nat} {os : Os} {s' : Store}
      (hpc : th.pc = .large q offset mmapSize)
      (hmap : osAllocAligned ps o.mapping s.os mmapSize segmentSize (.large offset) = (some b, os))
      (hmem : s'.os.mem = largeHeader os.mem b mmapSize offset q.size)
      (hgrants : s'.grants = Function.update s.grants (b + offset)
        (some ⟨q.size, mmapSize - offset, .fresh t, .large b⟩)) :
      AllocStep ps o s t th goal s' { th with pc := .registerLarge q offset mmapSize b }
  | fails {s₁ : Store} (hgrants : s₁.grants = s.grants) :
      AllocStep ps o s t th goal (failAlloc s₁ th goal.request).1 (failAlloc s₁ th goal.request).2
  | serves {q : Request} {c k b : Nat} {pg : PageId} {s₁ : Store} (hgoal : goal = .small q c)
      (heap : th.heap = some k) (hgrants : s₁.grants = s.grants) (hslot : s₁.slot k c = pg)
      (hnone : s.grants b = none) :
      AllocStep ps o s t th goal (deliverBlock s₁ t th q pg b).1 (deliverBlock s₁ t th q pg b).2
  | registers {q : Request} {offset mmapSize b : Nat} {w : TableWorld} {r : Registry}
      (hpc : th.pc = .registerLarge q offset mmapSize b)
      (hreg : storeRegister ps o s b = some (w, r)) :
      AllocStep ps o s t th goal
        (deliver { s with os := w.os, registry := r } t th q (b + offset) (mmapSize - offset)
          (.large b)).1
        (deliver { s with os := w.os, registry := r } t th q (b + offset) (mmapSize - offset)
          (.large b)).2

section Inversion

variable {ps : PageSize} {o : Oracle} {s s' : Store} {G : Ghost} {t : Nat} {th th' : Thread}

/-- The first free block of a page is not handed out. -/
theorem Inv.free_head_none (h : Inv ps s G) {k c : Nat} {pg : PageId} (hpg : pg ∈ G.cls k c)
    (hne : s.page.free pg ≠ 0) : s.grants (s.page.free pg) = none := by
  obtain ⟨hp, hloc, _⟩ := h.own_page hpg
  have hchain := ((h.pages pg hp).inService (by simp [hloc])).free
  have hhead := hchain.head_eq
  rw [show (s.page.row pg).free = s.page.free pg from rfl, ptr_of_ne hne] at hhead
  have hmem : s.page.free pg ∈ (G.page pg).free := List.mem_of_head? hhead.symm
  cases hg : s.grants (s.page.free pg) with
  | none => rfl
  | some g => exact absurd rfl (h.free_ne_grant hp (Or.inl hmem) hg)

/-- A fresh page serves a block that was not handed out: it had none out. -/
theorem AcquireEnd.alloc {q : Request} {c : Nat} {s₀ : Store} (hinv : Inv ps s G)
    (hargs : c < numSizeClasses) (hgrants : s.grants = s₀.grants)
    (hsame : ∀ p g g', s₀.grants p = some g → s'.grants p = some g' → g'.origin = g.origin)
    (h : AcquireEnd s t th q c s' th') : AllocStep ps o s₀ t th (.small q c) s' th' := by
  cases h with
  | @served k b np s₁ s₂ s₃ hheap htake hmake hpop =>
      have hg₂ : s₂.grants = s₀.grants :=
        (pageMakeAvailable_inner hmake).grants.trans ((takePage_inner htake).grants.trans hgrants)
      have hg₃ : s₃.grants = s₀.grants := (pagePop_inner hpop).grants.trans hg₂
      have hslot : s₃.slot k c = np := by
        obtain ⟨_, _, rfl⟩ := pagePop_shape hpop
        obtain ⟨mem, free, used, reserved, threadFree, rfl⟩ := pageMakeAvailable_shape hmake
        simp [linkFresh]
      have hav : s.central.avail ≠ none := by
        intro hnone
        simp [takePage, hnone] at htake
      obtain ⟨pg, rest, s₁', htake', hloc, _⟩ := hinv.take hav hargs k
      obtain ⟨rfl, rfl⟩ : np = pg ∧ s₁ = s₁' := by
        rw [htake] at htake'
        cases htake'
        exact ⟨rfl, rfl⟩
      refine .serves rfl hheap hg₃ hslot ?_
      cases hg : s₀.grants b with
      | none => rfl
      | some g =>
          -- After the step the block is one of the page; before it, none was.
          obtain ⟨g', hg', ho⟩ := deliver_origin s₃ t th q b (s₃.page.blockSize np)
            (.small np ((b - s₃.page.area np) / s₃.page.blockSize np))
          have horigin := (hsame b g g' hg hg').symm.trans ho
          have hsmall := hinv.smallGrant (hgrants ▸ hg) horigin
          exact absurd hloc ((hinv.pages np hsmall.page).loc_of_mem (Or.inr (Or.inr hsmall.out))).1
  | failed hheap htake hmake =>
      exact .fails
        ((pageMakeAvailable_inner hmake).grants.trans ((takePage_inner htake).grants.trans hgrants))

/-- The steps of an allocation call. -/
theorem stepThread_alloc {goal : Goal} {G' : Ghost} (hc : Consistent ps s G)
    (h : ThreadOk ps s G t th) (hok : StepOk ps o s th) (hgoal : th.pc.goal = some goal)
    (hrun : stepThread ps o s t th = some (s', th')) (hout : Outcome ps t s G s' G' th') :
    AllocStep ps o s t th goal s' th' := by
  have hsame : ∀ p g g', s.grants p = some g → s'.grants p = some g' → g'.origin = g.origin :=
    fun p g g' hg hg' => (hout.frame.same p g g' hg hg').1
  cases stepThread_cases hrun with
  | createHeap hpc | enterWalk hpc | enterAcquire hpc | linkHeap hpc | lock hpc | sweepMap hpc =>
      rw [hpc] at hgoal
      exact .goes hgoal (Or.inl rfl) rfl
  | @serve q c k b s₁ hpc hheap hfree hpop =>
      rw [hpc] at hgoal
      cases hgoal
      have hserve : Serving s G k none := h.lists_at hpc rfl hheap
      have hne : s.slot k c ≠ emptyPage := by
        intro heq
        rw [heq] at hfree
        exact hfree hc.inv.sentinel
      have hmem : s.slot k c ∈ G.cls k c := by
        have hhead := (DList.toChain (hserve.lists c)).head_eq
        rw [Store.classHead_eq hne rfl] at hhead
        exact List.mem_of_head? hhead.symm
      obtain ⟨rfl, _, hs₁⟩ := pagePop_shape hpop
      refine .serves rfl hheap (pagePop_inner hpop).grants ?_ (hc.inv.free_head_none hmem hfree)
      rw [hs₁]
  | @walkServe q c k b p s₁ s₂ hpc hheap hmake hpop =>
      rw [hpc] at hgoal
      cases hgoal
      obtain ⟨_, l, r, hsplit, _⟩ := h.lists_at hpc rfl hheap
      have hpg : p ∈ G.cls k c := by simp [hsplit]
      obtain ⟨hp, hloc, _⟩ := hc.inv.own_page hpg
      obtain ⟨available, s₁', g, hmake', hinv, _⟩ := hc.inv.makeAvailable hp (by simp [hloc])
      rw [hmake] at hmake'
      cases hmake'
      have hg₁ := (pageMakeAvailable_inner hmake).grants
      obtain ⟨next, prev, slot, hrotate, hfront⟩ := heapRotateToFront_shape s₁ k c p
      obtain ⟨hb, hne, hs₂⟩ := pagePop_shape hpop
      have hgrants : s₂.grants = s.grants :=
        ((heapRotateToFront_inner s₁ k c p).trans (pagePop_inner hpop)).grants.trans hg₁
      have hfree : b = s₁.page.free p := by
        rw [hb, hrotate]
      refine .serves rfl hheap hgrants ?_ ?_
      · rw [hs₂, hrotate]
        exact hfront
      · rw [← hg₁, hfree]
        exact hinv.free_head_none (G := G.setPage p g) hpg (by rw [← hfree]; exact hne)
  | walkNext hpc hmake | walkEnd hpc hmake =>
      rw [hpc] at hgoal
      exact .goes hgoal (Or.inl rfl) (pageMakeAvailable_inner hmake).grants
  | acquire hpc _ hend | sweepAcquire hpc _ _ hend =>
      rw [hpc] at hgoal
      cases hgoal
      exact hend.alloc hc.inv (h.args_at hpc).1 rfl hsame
  | sweepOn hpc _ hvisit | sweepDrop hpc _ hvisit =>
      rw [hpc] at hgoal
      exact .goes hgoal (Or.inl rfl) (sweepVisit_inner hvisit).grants
  | segmentRefused hpc =>
      rw [hpc] at hgoal
      cases hgoal
      exact .fails rfl
  | mapSegment hpc =>
      rw [hpc] at hgoal
      cases hgoal
      exact .goes rfl (Or.inr ⟨_, _, rfl⟩) (initSegment_inner _ _).grants
  | @registerSegment q c b w r _ _ hpc hreg hend =>
      rw [hpc] at hgoal
      cases hgoal
      have hk : ∀ w r, storeRegister ps o s b = some (w, r) → w.ok := by
        unfold StepOk at hok
        rwa [hpc] at hok
      obtain ⟨hinv, _⟩ := hc.inv.register hreg (hk w r hreg)
      exact hend.alloc hinv (h.args_at hpc).1 rfl hsame
  | unregisterSegment hpc =>
      rw [hpc] at hgoal
      exact .goes hgoal (Or.inl rfl) rfl
  | @unmapSegment b after _ _ hpc hafter =>
      rw [hpc] at hgoal
      cases after with
      | sweeping q c cur =>
          cases hafter
          exact .goes hgoal (Or.inl rfl) rfl
      | freed | destroying => cases hgoal
  | largeRefused hpc =>
      rw [hpc] at hgoal
      cases hgoal
      exact .fails rfl
  | mapLarge hpc hmap => exact .maps hpc hmap rfl rfl
  | registerLarge hpc hreg => exact .registers hpc hreg
  | idle hpc | dropLarge hpc | freeLocal hpc | freeDrained hpc | freeRemote hpc | exchange hpc
  | retry hpc | release hpc | unmapLarge hpc | destroy hpc | handRelease hpc | handAbandon hpc
  | unlinkHeap hpc | unmapHeap hpc =>
      rw [hpc] at hgoal
      cases hgoal

end Inversion

/-- A program counter of `hm_free`, or of the end of `hm_realloc`. -/
def Pc.isFree : Pc → Bool
  | .free .. | .remote .. | .release .. | .unmapLarge .. => true
  | .unregisterSegment _ after | .unmapSegment _ after =>
      match after with
      | .freed _ => true
      | _ => false
  | _ => false

/-- What the thread will return. -/
def Pc.returns : Pc → Nat
  | .free _ r | .remote _ _ r | .release _ r | .unmapLarge _ _ _ r => r
  | .unregisterSegment _ (.freed r) | .unmapSegment _ (.freed r) => r
  | _ => 0

/-- The thread may write the link of the block it is freeing. -/
def Links (s : Store) (th : Thread) (p : Nat) : Prop :=
  (∃ r, th.pc = .free p r ∧ isLarge s.os.mem p = false) ∨ ∃ head r, th.pc = .remote p head r

/-- What a step of a free does: it goes on, or it returns. The pointer it frees
is given up at some step, and only its first word is written. -/
structure FreeStep (s : Store) (th : Thread) (s' : Store) (th' : Thread) : Prop where
  goes : th'.pc.isFree = true ∧ th'.pc.returns = th.pc.returns ∧
      (∀ x, th.pc.freeing ≠ some x → s'.grants x = s.grants x) ∨
    th'.pc = .idle ∧ th'.result = th.pc.returns ∧
      ∀ x, th.pc.freeing ≠ some x → s'.grants x =
        if x = th.pc.returns ∧ x ≠ 0 then (s.grants x).map (fun g => { g with holder := .client })
        else s.grants x
  freed : th'.pc.freeing = th.pc.freeing ∨
    ∀ p, th.pc.freeing = some p → p ≠ th.pc.returns → s'.grants p = none
  mem : ∀ x, (∀ p, Links s th p → x < p ∨ p + 8 ≤ x) → s'.os.mem x = s.os.mem x

section Free

variable {ps : PageSize} {o : Oracle} {s s' : Store} {t : Nat} {th th' : Thread}

theorem finishFree_grants (s : Store) (th : Thread) (r x : Nat) :
    (finishFree s th r).1.grants x =
      if x = r ∧ x ≠ 0 then (s.grants x).map (fun g => { g with holder := .client })
      else s.grants x := by
  unfold finishFree
  dsimp only
  by_cases hr : r = 0
  · rw [if_pos hr, if_neg (by omega)]
  · rw [if_neg hr]
    by_cases hx : x = r
    · rw [if_pos ⟨hx, by omega⟩, hx, setHolder_self]
    · rw [if_neg (fun h => hx h.1), setHolder_of_ne _ _ hx]

theorem osFree_mem (os : Os) (b size : Nat) : (osFree os b size).mem = os.mem := by
  unfold osFree
  split <;> rfl

/-- A free that has given up its pointer, if it had one, returns. -/
theorem FreeStep.finish {r : Nat} {s₁ : Store} (hpc : th.pc.returns = r)
    (hgrants : ∀ x, th.pc.freeing ≠ some x → s₁.grants x = s.grants x)
    (hfreed : ∀ p, th.pc.freeing = some p → s₁.grants p = none)
    (hmem : ∀ x, (∀ p, Links s th p → x < p ∨ p + 8 ≤ x) → s₁.os.mem x = s.os.mem x) :
    FreeStep s th (finishFree s₁ th r).1 (finishFree s₁ th r).2 where
  goes := by
    refine Or.inr ⟨rfl, hpc.symm, fun x hx => ?_⟩
    rw [finishFree_grants, hpc, hgrants x hx]
  freed := by
    refine Or.inr fun p hp hne => ?_
    rw [finishFree_grants, if_neg (fun h => hne (h.1.trans hpc.symm))]
    exact hfreed p hp
  mem := hmem

/-- What follows the release of a page by a free. -/
theorem stepAfter_freed {r : Nat} {s₁ : Store} (hpc : th.pc.returns = r)
    (hnone : th.pc.freeing = none) (hgrants : s₁.grants = s.grants) (hmem : s₁.os.mem = s.os.mem)
    (h : stepAfter s₁ th (.freed r) = some (s', th')) : FreeStep s th s' th' := by
  have hfinish : FreeStep s th
      (finishFree { s₁ with central := { s₁.central with mtx := none } } th r).1
      (finishFree { s₁ with central := { s₁.central with mtx := none } } th r).2 := by
    refine .finish hpc (fun x _ => congrFun hgrants x) (fun p hp => ?_)
      (fun x _ => congrFun hmem x)
    cases hnone.symm.trans hp
  rw [Option.some.inj (show some (finishFree _ th r) = _ from h)] at hfinish
  exact hfinish

/-- The pointer that is freed has lost its grant; the others have theirs. -/
theorem freed_grants {p : Nat} (hfreeing : th.pc.freeing = some p) :
    (∀ x, th.pc.freeing ≠ some x → Function.update s.grants p none x = s.grants x) ∧
      ∀ x, th.pc.freeing = some x → Function.update s.grants p none x = none := by
  constructor
  · intro x hx
    refine Function.update_of_ne (fun heq => hx ?_) ..
    rw [hfreeing, heq]
  · intro x hx
    cases hfreeing.symm.trans hx
    exact Function.update_self ..

/-- The steps of a free. -/
theorem stepThread_free (hfree : th.pc.isFree = true)
    (hrun : stepThread ps o s t th = some (s', th')) : FreeStep s th s' th' := by
  cases stepThread_cases hrun with
  | @dropLarge p r _ hpc =>
      have hreturns : th.pc.returns = r := by rw [hpc]; rfl
      have hfreeing : th.pc.freeing = some p := by rw [hpc]; rfl
      exact ⟨Or.inl ⟨rfl, hreturns.symm, fun _ _ => rfl⟩, Or.inl hfreeing.symm, fun _ _ => rfl⟩
  | @freeLocal p r hpc hsmall =>
      obtain ⟨hkept, hgone⟩ := freed_grants (s := s) (show th.pc.freeing = some p by rw [hpc]; rfl)
      refine .finish (by rw [hpc]; rfl) hkept hgone (fun x hx => ?_)
      exact writeWord_outside _ _ _ _ (hx p (Or.inl ⟨r, hpc, hsmall⟩))
  | @freeDrained p r _ hpc hsmall =>
      have hreturns : th.pc.returns = r := by rw [hpc]; rfl
      obtain ⟨hkept, hgone⟩ := freed_grants (s := s) (show th.pc.freeing = some p by rw [hpc]; rfl)
      refine ⟨Or.inl ⟨rfl, hreturns.symm, hkept⟩, Or.inr fun x hx _ => hgone x hx, fun x hx => ?_⟩
      exact writeWord_outside _ _ _ _ (hx p (Or.inl ⟨r, hpc, hsmall⟩))
  | @freeRemote p r hpc hsmall =>
      have hreturns : th.pc.returns = r := by rw [hpc]; rfl
      have hfreeing : th.pc.freeing = some p := by rw [hpc]; rfl
      refine ⟨Or.inl ⟨rfl, hreturns.symm, fun _ _ => rfl⟩, Or.inl hfreeing.symm, fun x hx => ?_⟩
      exact writeWord_outside _ _ _ _ (hx p (Or.inl ⟨r, hpc, hsmall⟩))
  | @exchange p head r hpc =>
      obtain ⟨hkept, hgone⟩ := freed_grants (s := s) (show th.pc.freeing = some p by rw [hpc]; rfl)
      exact .finish (by rw [hpc]; rfl) hkept hgone (fun _ _ => rfl)
  | @retry p head r hpc =>
      have hreturns : th.pc.returns = r := by rw [hpc]; rfl
      have hfreeing : th.pc.freeing = some p := by rw [hpc]; rfl
      refine ⟨Or.inl ⟨rfl, hreturns.symm, fun _ _ => rfl⟩, Or.inl hfreeing.symm, fun x hx => ?_⟩
      exact writeWord_outside _ _ _ _ (hx p (Or.inr ⟨head, r, hpc⟩))
  | @release pg r dead s₁ s₂ _ _ hpc hunlink hpool hafter =>
      have hreturns : th.pc.returns = r := by rw [hpc]; rfl
      have hfreeing : th.pc.freeing = none := by rw [hpc]; rfl
      have hsame : s₂.grants = s.grants ∧ s₂.os.mem = s.os.mem := by
        obtain ⟨_, rfl⟩ := unlinkEmpty_shape hunlink
        obtain ⟨seg, central, rfl⟩ := poolReturn_shape (show poolReturn _ pg = _ from hpool)
        exact ⟨rfl, rfl⟩
      obtain ⟨hgrants, hmem⟩ := hsame
      cases dead with
      | none => exact stepAfter_freed hreturns hfreeing hgrants hmem hafter
      | some b =>
          cases hafter
          exact ⟨Or.inl ⟨rfl, hreturns.symm, fun x _ => congrFun hgrants x⟩, Or.inl hfreeing.symm,
            fun x _ => congrFun hmem x⟩
  | @unmapLarge p base size r hpc =>
      obtain ⟨hkept, hgone⟩ := freed_grants (s := s) (show th.pc.freeing = some p by rw [hpc]; rfl)
      exact .finish (by rw [hpc]; rfl) hkept hgone
        (fun x _ => congrFun (osFree_mem s.os base size) x)
  | @unregisterSegment b after _ hpc =>
      rw [hpc] at hfree
      cases after with
      | freed r =>
          exact ⟨Or.inl ⟨rfl, by rw [hpc]; rfl, fun _ _ => rfl⟩, Or.inl (by rw [hpc]; rfl),
            fun _ _ => rfl⟩
      | destroying | sweeping => cases hfree
  | @unmapSegment b after _ _ hpc hafter =>
      rw [hpc] at hfree
      cases after with
      | freed r =>
          refine stepAfter_freed ?_ ?_ ?_ ?_ hafter
          · rw [hpc]
            rfl
          · rw [hpc]
            rfl
          · rfl
          · exact osFree_mem ..
      | destroying | sweeping => cases hfree
  | idle hpc | createHeap hpc | serve hpc | enterWalk hpc | enterAcquire hpc | linkHeap hpc
  | walkServe hpc | walkNext hpc | walkEnd hpc | lock hpc | acquire hpc | sweepOn hpc
  | sweepDrop hpc | sweepMap hpc | sweepAcquire hpc | segmentRefused hpc | mapSegment hpc
  | registerSegment hpc | largeRefused hpc | mapLarge hpc | registerLarge hpc | destroy hpc
  | handRelease hpc | handAbandon hpc | unlinkHeap hpc | unmapHeap hpc =>
      rw [hpc] at hfree
      cases hfree

end Free

end HMalloc
