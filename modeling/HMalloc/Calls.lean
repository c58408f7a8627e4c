import HMalloc.ExitSteps

/-!
Where a public call goes first (`hmalloc.cpp`). An allocation call is refused
at once, or it goes on with a request whose arguments are in range (`Asks`);
`hm_free` and `hm_realloc` take the pointer they are given from the client.
-/

namespace HMalloc

open Bytes Linked

/-- What an allocation call for `q` does first. -/
inductive Asks (q : Request) : Entry → Prop where
  | refused : Asks q (.ret 0)
  | small {c : Nat} (h : SmallArgs q c) : Asks q (.goto (.small q c))
  | large {offset mmapSize : Nat} (h : LargeArgs q offset mmapSize) :
      Asks q (.goto (.large q offset mmapSize))

section Arithmetic

variable (ps : PageSize) {q : Request}

/-- The user offset of a large region. -/
theorem largeOffset_align {align : Nat}
    (halign : align ≤ allocAlign ∨ ∃ k, align = 2 ^ k ∧ align ≤ segmentSize / 2) {offset : Nat}
    (hoff : (if align > allocAlign then Word.roundUp largeOffset align else largeOffset) = offset) :
    largeOffset ≤ offset ∧ allocAlign ∣ offset ∧ offset < segmentSize := by
  have h32 : largeOffset = 32 := by decide
  have h16 : allocAlign = 16 := rfl
  have hseg : segmentSize = 4194304 := rfl
  by_cases hbig : align > allocAlign
  · rw [if_pos hbig] at hoff
    obtain hle | ⟨k, rfl, hhalf⟩ := halign
    · omega
    have hk : k ≤ 64 := by
      by_contra hgt
      have : 2 ^ 64 < 2 ^ k := Nat.pow_lt_pow_right (by decide) (by omega)
      omega
    have hk4 : 4 < k := by
      by_contra hle
      have : 2 ^ k ≤ 2 ^ 4 := Nat.pow_le_pow_right (by decide) (by omega)
      omega
    obtain ⟨hdvd, hlow, hhigh⟩ := Word.roundUp_spec (n := largeOffset) hk (by omega)
    rw [hoff] at hdvd hlow hhigh
    refine ⟨hlow, Nat.dvd_trans ?_ hdvd, by omega⟩
    rw [show allocAlign = 2 ^ 4 from rfl]
    exact Nat.pow_dvd_pow 2 (by omega)
  · rw [if_neg hbig] at hoff
    subst hoff
    exact ⟨Nat.le_refl _, by decide, by decide⟩

/-- The size of a large region: no sum wraps unnoticed. -/
theorem allocLarge_asks {align : Nat} (hpos : 0 < q.size) (hlt : q.size < 2 ^ 64)
    (halign : align ≤ allocAlign ∨ ∃ k, align = 2 ^ k ∧ align ≤ segmentSize / 2) :
    Asks q (allocLarge ps q align) := by
  unfold allocLarge
  generalize hoff : (if align > allocAlign then Word.roundUp largeOffset align
    else largeOffset) = offset
  obtain ⟨hlow, hdvd, hhigh⟩ := largeOffset_align halign hoff
  have hseg : segmentSize = 4194304 := rfl
  dsimp only
  by_cases hwrap : 2 ^ 64 ≤ offset + q.size
  · rw [Word.add_wrap (by omega) hlt hwrap, if_pos (by omega)]
    exact .refused
  rw [Word.add_eq (by omega), if_neg (by omega)]
  have hk : ps.shift.val ≤ 64 := by omega
  have hbytes : ps.bytes = 2 ^ ps.shift.val := rfl
  by_cases hround : 2 ^ 64 ≤ offset + q.size + (2 ^ ps.shift.val - 1)
  · rw [hbytes, Word.roundUp_wrap hk (by omega) hround, if_pos (by omega)]
    exact .refused
  · obtain ⟨_, hle, _⟩ := Word.roundUp_spec (n := offset + q.size) hk (by omega)
    rw [hbytes, if_neg (by omega)]
    refine .large ⟨hlow, hdvd, hhigh, hpos, hle, ?_⟩
    exact Nat.lt_of_le_of_lt Nat.and_le_left (Word.add_lt 64 _ _)

theorem hmMalloc_asks (hlt : q.size < 2 ^ 64) : Asks q (hmMalloc ps q) := by
  unfold hmMalloc
  by_cases hzero : q.size = 0
  · rw [if_pos hzero]
    exact .refused
  rw [if_neg hzero]
  by_cases hsmall : q.size ≤ smallSizeMax
  · rw [if_pos hsmall]
    exact .small ⟨sizeClass_lt (by omega) hsmall, le_classToSize (by omega) hsmall⟩
  · rw [if_neg hsmall]
    exact allocLarge_asks ps (by omega) hlt (Or.inl (Nat.le_refl _))

/-- `hm_calloc` asks for the exact product. -/
theorem hmCalloc_asks (nmemb size : Nat) :
    ∃ q, Asks q (hmCalloc ps nmemb size) ∧ q.old = none := by
  unfold hmCalloc
  by_cases hzero : nmemb = 0 ∨ size = 0
  · rw [if_pos hzero]
    exact ⟨⟨0, false, none⟩, .refused, rfl⟩
  rw [if_neg hzero]
  by_cases hover : nmemb > sizeMax / size
  · rw [if_pos hover]
    exact ⟨⟨0, false, none⟩, .refused, rfl⟩
  rw [if_neg hover]
  have hprod : nmemb * size < 2 ^ 64 := by
    have hle := (Nat.le_div_iff_mul_le (by omega)).mp (Nat.le_of_not_lt hover)
    have : sizeMax = 2 ^ 64 - 1 := rfl
    omega
  have hpos : 0 < nmemb * size := Nat.mul_pos (by omega) (by omega)
  simp only [Word.mul_eq hprod]
  by_cases hsmall : nmemb * size ≤ smallSizeMax
  · rw [if_pos hsmall]
    exact ⟨⟨nmemb * size, true, none⟩,
      .small ⟨sizeClass_lt hpos hsmall, le_classToSize hpos hsmall⟩, rfl⟩
  · rw [if_neg hsmall]
    exact ⟨⟨nmemb * size, false, none⟩,
      allocLarge_asks ps hpos hprod (Or.inl (Nat.le_refl _)), rfl⟩

/-- The class search only goes up. -/
theorem le_alignedClass (alignment n c : Nat) : c ≤ alignedClass alignment n c := by
  induction n generalizing c with
  | zero => exact Nat.le_refl c
  | succ n ih =>
      unfold alignedClass
      split
      · exact Nat.le_trans (Nat.le_succ c) (ih (c + 1))
      · exact Nat.le_refl c

theorem classToSize_mono {c c' : Nat} (h : c ≤ c') (hc : c' < numSizeClasses) :
    classToSize c ≤ classToSize c' := by
  rcases Nat.eq_or_lt_of_le h with rfl | hlt
  · exact Nat.le_refl _
  · exact Nat.le_of_lt (getD_lt_of_pairwise (buildSizeClasses_size (m := 14) (by omega)).1 hlt hc)

theorem hmAlignedAlloc_asks {alignment size : Nat} (hsize : size < 2 ^ 64) :
    Asks ⟨size, false, none⟩ (hmAlignedAlloc ps alignment size) := by
  unfold hmAlignedAlloc
  dsimp only
  by_cases hzero : size = 0
  · rw [if_pos hzero]
    exact .refused
  rw [if_neg hzero]
  by_cases hpow : alignment = 0 ∨ (alignment &&& (alignment - 1)) ≠ 0
  · rw [if_pos hpow]
    exact .refused
  rw [if_neg hpow]
  by_cases hfew : alignment ≤ allocAlign
  · rw [if_pos hfew]
    exact hmMalloc_asks ps hsize
  rw [if_neg hfew]
  generalize hneed : (if size > alignment then size else alignment) = need
  have hle : size ≤ need := by
    rw [← hneed]
    split <;> omega
  split
  · rename_i hsmall
    have hneed1 : 1 ≤ need := by omega
    rw [sizeClass_classToSize hsmall.2]
    refine .small ⟨hsmall.2, ?_⟩
    calc size ≤ need := hle
      _ ≤ classToSize (sizeClass need) := le_classToSize hneed1 hsmall.1
      _ ≤ _ := classToSize_mono (le_alignedClass alignment numSizeClasses _) hsmall.2
  · split
    · exact .refused
    · rename_i hhalf
      refine allocLarge_asks ps (by simp only; omega) hsize (Or.inr ?_)
      obtain ⟨k, hk⟩ := Word.isPow2_iff.mp
        (by simp only [Word.isPow2, Bool.and_eq_true, bne_iff_ne, beq_iff_eq]; tauto :
          Word.isPow2 alignment = true)
      exact ⟨k, hk, by omega⟩

end Arithmetic

section Enter

variable {ps : PageSize} {s : Store} {G : Ghost} {t : Nat} {th th' : Thread} {pc : Pc}
  {grants : Nat → Option Grant}

theorem ThreadOk.congr (h : ThreadOk ps s G t th) (hpc : th'.pc = th.pc)
    (hheap : th'.heap = th.heap) : ThreadOk ps s G t th' := by
  have hhome : th'.home = th.home := by
    unfold Thread.home
    rw [hpc, hheap]
  obtain ⟨args, home, needs, unlinked, lists, holders, moved, pointers, mtx, lock⟩ := h
  rw [← hpc] at args needs unlinked lists holders moved pointers mtx lock
  rw [← hheap] at needs unlinked
  rw [← hhome] at home lists
  exact ⟨args, home, needs, unlinked, lists, holders, moved, pointers, mtx, lock⟩

/-- The program counters a call starts or ends at. -/
structure StartPc (pc : Pc) : Prop where
  unlinked : pc.unlinked = none
  result : pc.result = none
  args : pc.Args
  needs : pc.needsHeap = false
  locked : pc.locked = false
  lists : ∀ s G a, Serving s G a none → HeapOk s G a pc
  pointers : ∀ s, PointersOk s pc
  lock : ∀ s G, LockOk s G pc

theorem StartPc.idle : StartPc .idle :=
  ⟨rfl, rfl, trivial, rfl, rfl, fun _ _ _ h => h, fun _ => trivial, fun _ _ => trivial⟩

theorem StartPc.free (p : Nat) : StartPc (.free p 0) :=
  ⟨rfl, rfl, trivial, rfl, rfl, fun _ _ _ h => h, fun _ => trivial, fun _ _ => trivial⟩

/-- The request of an allocation call starts at a program counter of its own. -/
theorem Asks.start {q : Request} (h : Asks q (.goto pc)) :
    StartPc pc ∧ pc.request = some q ∧ pc.freeing = none := by
  cases h with
  | small h =>
      exact ⟨⟨rfl, rfl, h, rfl, rfl, fun _ _ _ h => h, fun _ => trivial, fun _ _ => trivial⟩,
        rfl, rfl⟩
  | large h =>
      exact ⟨⟨rfl, rfl, h, rfl, rfl, fun _ _ _ h => h, fun _ => trivial, fun _ _ => trivial⟩,
        rfl, rfl⟩

/-- An idle thread enters a call, or leaves it at once. -/
theorem start_outcome (hc : Consistent ps s G) (h : ThreadOk ps s G t th) (hidle : th.pc = .idle)
    (hstart : StartPc pc) (hpc : th'.pc = pc) (hheap : th'.heap = th.heap)
    (hregrant : Regranted s.grants grants) (hframe : StepFrame t s G { s with grants := grants } G)
    (hholders : ∀ p holder, holder.thread = some t →
      ((∃ g, grants p = some g ∧ g.holder = holder) ↔ pc.Holds p holder))
    (hmoved : ∀ q p usable g, pc.request = some q → q.old = some (p, usable) →
      grants p = some g → g.usable = usable) :
    Outcome ps t s G { s with grants := grants } G th' := by
  refine ⟨⟨hc.inv.regrant hregrant, hc.limbo, hc.homes, hc.dying⟩, ?_, hframe, Growth.of_cls _ rfl⟩
  have hlink : th.pc.unlinked = none := by rw [hidle]; rfl
  have hhome : th'.home = th.home := by
    rw [Thread.home_of_linked hlink, Thread.home_of_linked (by rw [hpc]; exact hstart.unlinked),
      hheap]
  subst hpc
  refine ⟨hstart.args, ?_, ?_, ?_, ?_, hholders, hmoved, hstart.pointers _, ?_, hstart.lock _ _⟩
  · intro a size
    rw [hhome]
    exact h.home a size
  · intro hneeds
    rw [hstart.needs] at hneeds
    cases hneeds
  · exact fun hne => absurd hstart.unlinked hne
  · intro a ha
    rw [hhome] at ha
    have hserve := h.lists a ha
    rw [hidle] at hserve
    obtain ⟨hl, ho⟩ := hserve
    exact hstart.lists _ _ _ ⟨hl, ho⟩
  · exact h.mtx_iff (by rw [hidle]; rfl) hstart.locked

theorem Regranted.refl (grants : Nat → Option Grant) : Regranted grants grants :=
  ⟨fun _ g hg => ⟨g, hg, rfl, rfl, id⟩, fun _ g hg => ⟨g, hg, rfl, rfl⟩⟩

/-- An idle thread works on no pointer. -/
theorem ThreadOk.idle_holds (h : ThreadOk ps s G t th) (hidle : th.pc = .idle) {p : Nat}
    {g : Grant} (hg : s.grants p = some g) : g.holder.thread ≠ some t := by
  intro hh
  rcases h.held hg hh with ⟨_, q, u, hq, _⟩ | ⟨_, hf⟩ | ⟨_, hr⟩
  · rw [hidle] at hq
    cases hq
  · rw [hidle] at hf
    cases hf
  · rw [hidle] at hr
    cases hr

/-- A call that is given no pointer. -/
theorem start_plain (hc : Consistent ps s G) (h : ThreadOk ps s G t th) (hidle : th.pc = .idle)
    (hstart : StartPc pc) (hpc : th'.pc = pc) (hheap : th'.heap = th.heap)
    (hfreeing : pc.freeing = none) (hold : ∀ q, pc.request = some q → q.old = none) :
    Outcome ps t s G s G th' := by
  refine start_outcome hc h hidle hstart hpc hheap (Regranted.refl s.grants)
    (StepFrame.refl t s G) ?_ ?_
  · intro p holder hholder
    constructor
    · rintro ⟨g, hg, rfl⟩
      exact absurd hholder (h.idle_holds hidle hg)
    · intro hholds
      cases holder with
      | client => cases hholder
      | moving u =>
          obtain ⟨q, usable, hq, ho⟩ := hholds
          cases (hold q hq).symm.trans ho
      | freeing u => cases hfreeing.symm.trans hholds
      | fresh u => cases hstart.result.symm.trans hholds
  · intro q p usable g hq ho
    cases (hold q hq).symm.trans ho

/-- A grant that no other thread holds is changed. -/
theorem StepFrame.rehold {p : Nat} {g g' : Grant} (hg : s.grants p = some g)
    (horigin : g'.origin = g.origin) (husable : g'.usable = g.usable)
    (hh : ∀ u, u ≠ t → g.holder.thread ≠ some u) (hh' : ∀ u, u ≠ t → g'.holder.thread ≠ some u) :
    StepFrame t s G { s with grants := Function.update s.grants p (some g') } G := by
  refine ⟨fun _ _ _ _ => Iff.rfl, fun _ _ _ _ _ => .of_pages rfl rfl rfl rfl,
    ?_, ?_, ?_, fun _ _ _ _ _ _ _ _ => rfl, fun _ _ _ => ⟨rfl, rfl, rfl, fun _ => Iff.rfl⟩,
    fun _ _ hm => hm⟩
  · intro u hu x gx hgx
    change Function.update s.grants p (some g') x = some gx ↔ _
    by_cases hx : x = p
    · subst hx
      rw [Function.update_self, hg]
      refine ⟨fun heq => ?_, fun heq => ?_⟩
      · cases heq
        exact absurd hgx (hh' u hu)
      · cases heq
        exact absurd hgx (hh u hu)
    · rw [Function.update_of_ne hx]
  · intro x gx hgx _
    by_cases hx : x = p
    · exact ⟨g', by rw [hx]; exact Function.update_self ..⟩
    · exact ⟨gx, (Function.update_of_ne hx ..).trans hgx⟩
  · intro x gx gx' hgx hgx'
    change Function.update s.grants p (some g') x = some gx' at hgx'
    by_cases hx : x = p
    · subst hx
      rw [Function.update_self] at hgx'
      rw [hg] at hgx
      cases hgx
      cases hgx'
      exact ⟨horigin, husable⟩
    · rw [Function.update_of_ne hx, hgx] at hgx'
      cases hgx'
      exact ⟨rfl, rfl⟩

/-- A call takes a pointer from the client. -/
theorem start_take (hc : Consistent ps s G) (h : ThreadOk ps s G t th) (hidle : th.pc = .idle)
    (hstart : StartPc pc) (hpc : th'.pc = pc) (hheap : th'.heap = th.heap) {p : Nat} {g : Grant}
    (holder : Holder) (hg : s.grants p = some g) (hclient : g.holder = .client)
    (hthread : holder.thread = some t)
    (hholds : ∀ x holder', holder'.thread = some t →
      (pc.Holds x holder' ↔ x = p ∧ holder' = holder))
    (hmoved : ∀ q x usable, pc.request = some q → q.old = some (x, usable) →
      x = p ∧ usable = g.usable) :
    Outcome ps t s G { s with grants := setHolder s.grants p holder } G th' := by
  have hset : setHolder s.grants p holder =
      Function.update s.grants p (some { g with holder := holder }) := by
    unfold setHolder
    rw [hg]
    rfl
  have hself : setHolder s.grants p holder p = some { g with holder := holder } := by
    rw [hset, Function.update_self]
  refine start_outcome hc h hidle hstart hpc hheap (regranted_setHolder s.grants p holder) ?_ ?_ ?_
  · rw [hset]
    refine StepFrame.rehold hg rfl rfl ?_ ?_
    · intro u _
      rw [hclient]
      simp [Holder.thread]
    · intro u hu
      change holder.thread ≠ some u
      rw [hthread]
      exact fun heq => hu (Option.some.inj heq).symm
  · intro x holder' hholder'
    rw [hholds x holder' hholder']
    constructor
    · rintro ⟨gx, hgx, rfl⟩
      by_cases hx : x = p
      · rw [hx, hself] at hgx
        cases hgx
        exact ⟨hx, rfl⟩
      · rw [setHolder_of_ne _ _ hx] at hgx
        exact absurd hholder' (h.idle_holds hidle hgx)
    · rintro ⟨rfl, rfl⟩
      exact ⟨_, hself, rfl⟩
  · intro q x usable gx hq ho hgx
    obtain ⟨rfl, rfl⟩ := hmoved q x usable hq ho
    rw [hself] at hgx
    cases hgx
    rfl

/-- The thread after the first part of a call. -/
def enterThread (th : Thread) (call : Call) : Entry → Thread
  | .ret result => { th with call := some call }.ret result
  | .goto pc => { th with call := some call, pc := pc }

theorem asks_plain (hc : Consistent ps s G) (h : ThreadOk ps s G t th) (hidle : th.pc = .idle)
    {q : Request} {entry : Entry} (hask : Asks q entry) (hold : q.old = none) (call : Call) :
    Outcome ps t s G s G (enterThread th call entry) := by
  cases entry with
  | ret result =>
      exact start_plain hc h hidle .idle rfl rfl rfl (fun q hq => by cases hq)
  | goto pc =>
      obtain ⟨hstart, hrequest, hfreeing⟩ := hask.start
      refine start_plain hc h hidle hstart rfl rfl hfreeing (fun q' hq => ?_)
      cases hrequest.symm.trans hq
      exact hold

/-- `hm_free` of a live pointer, and `hm_realloc` of it to size zero. -/
theorem start_free (hc : Consistent ps s G) (h : ThreadOk ps s G t th) (hidle : th.pc = .idle)
    {p : Nat} {g : Grant} (hg : s.grants p = some g) (hclient : g.holder = .client) (call : Call) :
    Outcome ps t s G { s with grants := setHolder s.grants p (.freeing t) } G
      (enterThread th call (.goto (.free p 0))) := by
  have hpc : (enterThread th call (.goto (.free p 0))).pc = .free p 0 := rfl
  refine start_take hc h hidle (.free p) hpc rfl (.freeing t) hg hclient rfl ?_
    (fun q _ _ hq => by cases hq)
  intro x holder hholder
  cases holder with
  | client => cases hholder
  | moving u =>
      refine ⟨fun ⟨q, _, hq, _⟩ => (by cases hq), fun hx => (by cases hx.2)⟩
  | freeing u =>
      obtain rfl : u = t := Option.some.inj hholder
      exact ⟨fun hx => ⟨(Option.some.inj hx).symm, rfl⟩, fun hx => by rw [hx.1]; rfl⟩
  | fresh u =>
      exact ⟨fun hx => (by cases hx), fun hx => (by cases hx.2)⟩

/-- `hm_realloc` goes on to move a live block. -/
theorem start_move (hc : Consistent ps s G) (h : ThreadOk ps s G t th) (hidle : th.pc = .idle)
    {p : Nat} {g : Grant} (hg : s.grants p = some g) (hclient : g.holder = .client) {q : Request}
    (hask : Asks q (.goto pc)) (hold : q.old = some (p, g.usable)) (call : Call) :
    Outcome ps t s G { s with grants := setHolder s.grants p (.moving t) } G
      (enterThread th call (.goto pc)) := by
  obtain ⟨hstart, hrequest, hfreeing⟩ := hask.start
  have hpc : (enterThread th call (.goto pc)).pc = pc := rfl
  refine start_take hc h hidle hstart hpc rfl (.moving t) hg hclient rfl ?_ ?_
  · intro x holder hholder
    cases holder with
    | client => cases hholder
    | moving u =>
        obtain rfl : u = t := Option.some.inj hholder
        constructor
        · rintro ⟨q', usable, hq, ho⟩
          cases hrequest.symm.trans hq
          cases hold.symm.trans ho
          exact ⟨rfl, rfl⟩
        · rintro ⟨rfl, _⟩
          exact ⟨q, g.usable, hrequest, hold⟩
    | freeing u =>
        exact ⟨fun hx => (by cases hfreeing.symm.trans hx), fun hx => (by cases hx.2)⟩
    | fresh u =>
        exact ⟨fun hx => (by cases hstart.result.symm.trans hx), fun hx => (by cases hx.2)⟩
  · intro q' x usable hq ho
    cases hrequest.symm.trans hq
    cases hold.symm.trans ho
    exact ⟨rfl, rfl⟩

/-- `hm_realloc` keeps the block, which is from now on asked for with the new
size. -/
theorem start_keep (hc : Consistent ps s G) (h : ThreadOk ps s G t th) (hidle : th.pc = .idle)
    {p size : Nat} {g : Grant} (hg : s.grants p = some g) (hclient : g.holder = .client)
    (hsize : size ≤ g.usable) (call : Call) :
    Outcome ps t s G { s with
      grants := Function.update s.grants p
        ((s.grants p).map (fun g => { g with size := size })) } G
      (enterThread th call (.ret p)) := by
  have hmap : (s.grants p).map (fun g => { g with size := size }) =
      some { g with size := size } := by
    rw [hg]
    rfl
  rw [hmap]
  have hnew : ∀ x gx, Function.update s.grants p (some { g with size := size }) x = some gx →
      (x = p ∧ gx = { g with size := size }) ∨ (x ≠ p ∧ s.grants x = some gx) :=
    fun _ _ => PartialMap.insert_eq_some.mp
  refine start_outcome hc h hidle .idle rfl rfl ⟨?_, ?_⟩ (StepFrame.rehold hg rfl rfl ?_ ?_) ?_
    (fun q _ _ _ hq => by cases hq)
  · intro x gx hgx
    rcases hnew x gx hgx with ⟨rfl, rfl⟩ | ⟨_, hgx⟩
    · exact ⟨g, hg, rfl, rfl, fun _ => hsize⟩
    · exact ⟨gx, hgx, rfl, rfl, id⟩
  · intro x gx hgx
    by_cases hx : x = p
    · subst hx
      rw [hg] at hgx
      cases hgx
      exact ⟨_, Function.update_self .., rfl, rfl⟩
    · exact ⟨gx, (Function.update_of_ne hx ..).trans hgx, rfl, rfl⟩
  · intro u _
    rw [hclient]
    simp [Holder.thread]
  · intro u _
    change g.holder.thread ≠ some u
    rw [hclient]
    simp [Holder.thread]
  · intro x holder hholder
    constructor
    · rintro ⟨gx, hgx, rfl⟩
      rcases hnew x gx hgx with ⟨_, rfl⟩ | ⟨_, hgx⟩
      · change g.holder.thread = some t at hholder
        rw [hclient] at hholder
        cases hholder
      · exact absurd hholder (h.idle_holds hidle hgx)
    · intro hholds
      cases holder with
      | client => cases hholder
      | moving u =>
          obtain ⟨q, usable, hq, _⟩ := hholds
          cases hq
      | freeing u => cases hholds
      | fresh u => cases hholds

/-- The first part of `hm_realloc`. -/
theorem realloc_outcome (hc : Consistent ps s G) (h : ThreadOk ps s G t th) (hidle : th.pc = .idle)
    {ptr size : Nat} (hsize : size < 2 ^ 64)
    (hlive : ptr = 0 ∨ ∃ g, s.grants ptr = some g ∧ g.holder = .client) :
    Outcome ps t s G
      { s with grants := enterGrants s t (.realloc ptr size) (hmRealloc ps s ptr size) } G
      (enterThread th (.realloc ptr size) (hmRealloc ps s ptr size)) := by
  unfold hmRealloc
  by_cases hnull : ptr = 0
  · rw [if_pos hnull]
    have hask := hmMalloc_asks ps (q := ⟨size, false, none⟩) hsize
    have hplain := asks_plain hc h hidle hask rfl (.realloc ptr size)
    have hgrants : enterGrants s t (.realloc ptr size) (hmMalloc ps ⟨size, false, none⟩) =
        s.grants := by
      generalize hmMalloc ps ⟨size, false, none⟩ = entry at hask
      cases hask with
      | refused => rfl
      | small => exact if_pos hnull
      | large => exact if_pos hnull
    rw [hgrants]
    exact hplain
  rw [if_neg hnull]
  obtain ⟨g, hg, hclient⟩ := hlive.resolve_left hnull
  by_cases hzero : size = 0
  · rw [if_pos hzero]
    have hgrants : enterGrants s t (.realloc ptr size) (.goto (.free ptr 0)) =
        setHolder s.grants ptr (.freeing t) := by
      change (if ptr = 0 then s.grants else _) = _
      rw [if_neg hnull, if_pos hzero]
    rw [hgrants]
    exact start_free hc h hidle hg hclient _
  rw [if_neg hzero]
  have husable := hc.inv.usableSize_eq hg
  simp only [husable]
  by_cases hkeep : size ≤ g.usable ∧ (g.usable ≤ smallSizeMax ∨ size > g.usable / 2)
  · rw [if_pos hkeep]
    have hgrants : enterGrants s t (.realloc ptr size) (.ret ptr) =
        Function.update s.grants ptr ((s.grants ptr).map (fun g => { g with size := size })) :=
      if_neg hnull
    rw [hgrants]
    exact start_keep hc h hidle hg hclient hkeep.1 _
  · rw [if_neg hkeep]
    have hask := hmMalloc_asks ps (q := ⟨size, false, some (ptr, g.usable)⟩) hsize
    generalize hmMalloc ps ⟨size, false, some (ptr, g.usable)⟩ = entry at hask
    cases entry with
    | ret result =>
        cases hask
        have hgrants : enterGrants s t (.realloc ptr size) (.ret 0) = s.grants := rfl
        rw [hgrants]
        exact start_plain hc h hidle .idle rfl rfl rfl (fun q hq => by cases hq)
    | goto pc =>
        have hgrants : enterGrants s t (.realloc ptr size) (.goto pc) =
            setHolder s.grants ptr (.moving t) := by
          change (if ptr = 0 then s.grants else _) = _
          rw [if_neg hnull, if_neg hzero]
        rw [hgrants]
        exact start_move hc h hidle hg hclient hask rfl _

/-- The first part of a call. -/
theorem call_outcome (hc : Consistent ps s G) (h : ThreadOk ps s G t th) (hidle : th.pc = .idle)
    {call : Call} (hok : CallOk s call) :
    Outcome ps t s G { s with grants := enterGrants s t call (enter ps s call) } G
      (enterThread th call (enter ps s call)) := by
  cases call with
  | malloc size =>
      exact asks_plain hc h hidle (hmMalloc_asks ps (q := ⟨size, false, none⟩) hok) rfl _
  | calloc nmemb size =>
      obtain ⟨q, hask, hold⟩ := hmCalloc_asks ps nmemb size
      exact asks_plain hc h hidle hask hold _
  | alignedAlloc alignment size =>
      exact asks_plain hc h hidle (hmAlignedAlloc_asks ps hok.2) rfl _
  | realloc ptr size => exact realloc_outcome hc h hidle hok.1 hok.2
  | free ptr =>
      by_cases hnull : ptr = 0
      · have henter : enter ps s (.free ptr) = .ret 0 := if_pos hnull
        rw [henter]
        exact start_plain hc h hidle .idle rfl rfl rfl (fun q hq => by cases hq)
      · have henter : enter ps s (.free ptr) = .goto (.free ptr 0) := if_neg hnull
        rw [henter]
        obtain ⟨g, hg, hclient⟩ := hok.resolve_left hnull
        exact start_free hc h hidle hg hclient _

end Enter

end HMalloc
