import HMalloc.AllocCalls
import HMalloc.LargeRequest

/-!
What `hm_calloc` and `hm_aligned_alloc` answer. `hm_calloc` asks for the exact
product; its block is zero because it is cleared or because its region is
fresh. `hm_aligned_alloc` has three ways to align a block: every block is
16-aligned, the blocks of a class are aligned to every power of two that
divides their size, and the offset into a large region is rounded.
-/

namespace HMalloc

open Bytes Linked

section Results

variable {ps : PageSize} {t : Nat} {call : Call} {sys₀ sys : System} {p : Nat}

/-- A call that is refused at once has returned null and changed nothing. -/
theorem During.refused (h : During ps t call sys₀ sys)
    (hentry : enter ps sys₀.store call = .ret 0) :
    Returns ps t call sys₀ sys 0 ∧ sys.store = sys₀.store := by
  have hsys := h.immediate hentry
  have hgrants : enterGrants sys₀.store t call (.ret 0) = sys₀.store.grants := by
    cases call <;> rfl
  rw [hgrants] at hsys
  refine ⟨⟨h, ?_, ?_⟩, ?_⟩ <;> rw [hsys]
  · simp [System.setThread, Thread.ret]
  · simp [System.setThread, Thread.ret]
  · rfl

/-- A run of a call that returns a block has got what it was after, at an address
that was free on the way, and has given up the block it moved. -/
theorem CallRun.obtained {passed : List System} (h : CallRun ps t call sys₀ sys passed)
    (hr : Reachable ps sys₀) (hidle : (sys.threads t).pc = .idle)
    (hresult : (sys.threads t).result = p) (hp : p ≠ 0) {pc : Pc} {goal : Goal}
    (hentry : enter ps sys₀.store call = .goto pc) (hgoal : pc.goal = some goal) :
    Obtained goal sys₀.store.os.mem sys.store p .client ∧ FreeIn (sys :: passed) p ∧
      ∀ old u, goal.request.old = some (old, u) → p ≠ old ∧ FreeIn (sys :: passed) old := by
  cases h.progress hr hentry hgoal with
  | asking hgoal =>
      rw [hidle] at hgoal
      cases hgoal
  | freeing _ hfree =>
      rw [hidle] at hfree
      cases hfree
  | failed _ hnull => exact absurd (hresult.symm.trans hnull) hp
  | done _ hobt hfresh hfreed =>
      rw [hresult] at hobt hfresh hfreed
      exact ⟨hobt, hfresh, hfreed⟩

theorem Returns.obtained (h : Returns ps t call sys₀ sys p) (hr : Reachable ps sys₀) (hp : p ≠ 0)
    {pc : Pc} {goal : Goal} (hentry : enter ps sys₀.store call = .goto pc)
    (hgoal : pc.goal = some goal) : Obtained goal sys₀.store.os.mem sys.store p .client := by
  obtain ⟨passed, hrun⟩ := h.during.run
  exact (hrun.obtained hr h.idle h.result hp hentry hgoal).1

/-- A call to `alloc_large` that returns a block got as far as its mapping. -/
theorem Returns.large (h : Returns ps t call sys₀ sys p) (hp : p ≠ 0) {q : Request} {align : Nat}
    (hentry : enter ps sys₀.store call = allocLarge ps q align) (halign : LargeAlign align)
    (hpos : 0 < q.size) (hsize : q.size < 2 ^ 64) :
    enter ps sys₀.store call = .goto (.large q (ceilTo largeOffset align)
      (ceilTo (ceilTo largeOffset align + q.size) ps.bytes)) := by
  rw [allocLarge_eq halign hpos hsize] at hentry
  split at hentry
  · exact hentry
  · have hzero := (h.during.refused hentry).1.result
    exact absurd (h.result.symm.trans hzero) hp

/-- A call to `hm_malloc` that returns a block asked for a block of the class of
its size, or for a region of its own. -/
theorem Returns.malloc (h : Returns ps t call sys₀ sys p) (hp : p ≠ 0) {q : Request}
    (hentry : enter ps sys₀.store call = hmMalloc ps q) (hsize : q.size < 2 ^ 64) :
    (q.size ≠ 0 ∧ q.size ≤ smallSizeMax ∧
      enter ps sys₀.store call = .goto (.small q (sizeClass q.size))) ∨
    (smallSizeMax < q.size ∧ enter ps sys₀.store call =
      .goto (.large q largeOffset (ceilTo (largeOffset + q.size) ps.bytes))) := by
  unfold hmMalloc at hentry
  split at hentry
  · have hzero := (h.during.refused hentry).1.result
    exact absurd (h.result.symm.trans hzero) hp
  rename_i hzero
  split at hentry
  · rename_i hsmall
    exact Or.inl ⟨hzero, hsmall, hentry⟩
  · rename_i hbig
    refine Or.inr ⟨Nat.lt_of_not_le hbig, ?_⟩
    exact h.large hp hentry .least (by omega) hsize

/-- The usable size of what a call returns. -/
theorem Obtained.usable {goal : Goal} {mem₀ : Mem} {holder : Holder} {s : Store} {G : Ghost}
    (h : Obtained goal mem₀ s p holder) (hinv : Inv ps s G) :
    goal.request.size ≤ usableSize s p := by
  obtain ⟨g, hg, _, hfits⟩ := h.grant
  rw [hinv.usableSize_eq hg]
  exact hinv.fits_usable hg hfits

end Results

section Calloc

/-- The overflow test of `hm_calloc` is exact. -/
theorem calloc_overflow {nmemb size : Nat} (hsize : size ≠ 0) :
    nmemb > sizeMax / size ↔ sizeMax < nmemb * size :=
  Nat.div_lt_iff_lt_mul (Nat.pos_of_ne_zero hsize)

theorem hmCalloc_refused (ps : PageSize) {nmemb size : Nat}
    (h : nmemb = 0 ∨ size = 0 ∨ sizeMax < nmemb * size) : hmCalloc ps nmemb size = .ret 0 := by
  unfold hmCalloc
  by_cases hzero : nmemb = 0 ∨ size = 0
  · rw [if_pos hzero]
  · rw [if_neg hzero]
    have hover : sizeMax < nmemb * size := by tauto
    rw [if_pos ((calloc_overflow (by tauto)).mpr hover)]

/-- `hm_calloc` asks for the product, and for a cleared block where it asks a
page. -/
theorem hmCalloc_exact (ps : PageSize) {nmemb size : Nat}
    (h : ¬ (nmemb = 0 ∨ size = 0 ∨ sizeMax < nmemb * size)) :
    hmCalloc ps nmemb size =
      if nmemb * size ≤ smallSizeMax then
        .goto (.small ⟨nmemb * size, true, none⟩ (sizeClass (nmemb * size)))
      else allocLarge ps ⟨nmemb * size, false, none⟩ allocAlign := by
  have hsize : size ≠ 0 := by tauto
  have hle : nmemb * size ≤ sizeMax := by
    by_contra hgt
    exact h (Or.inr (Or.inr (by omega)))
  have hmax : sizeMax = 2 ^ 64 - 1 := rfl
  unfold hmCalloc
  rw [if_neg (by tauto), if_neg (fun hgt => by
    have := (calloc_overflow hsize).mp hgt
    omega), Word.mul_eq (by omega)]

/-- `hm_calloc` returns zeroed memory of the exact product, or null. From every
reachable state and for all words: without a product to allocate it returns
null at once and nothing has changed; otherwise a block it returns is usable
for the product, and all these bytes are zero. -/
theorem calloc_zeroed (ps : PageSize) {sys₀ : System} (hr : Reachable ps sys₀)
    (t nmemb size : Nat) :
    (nmemb = 0 ∨ size = 0 ∨ sizeMax < nmemb * size →
      ∀ sys, During ps t (.calloc nmemb size) sys₀ sys →
        Returns ps t (.calloc nmemb size) sys₀ sys 0 ∧ sys.store = sys₀.store) ∧
    (¬ (nmemb = 0 ∨ size = 0 ∨ sizeMax < nmemb * size) →
      ∀ sys p, Returns ps t (.calloc nmemb size) sys₀ sys p → p ≠ 0 →
        nmemb * size ≤ usableSize sys.store p ∧
          ∀ i < nmemb * size, sys.store.os.mem (p + i) = 0) := by
  refine ⟨fun h sys hd => hd.refused (hmCalloc_refused ps h), fun h sys p hret hp => ?_⟩
  obtain ⟨G, hinv⟩ := (hret.during.reachable hr).inv
  have hentry : enter ps sys₀.store (.calloc nmemb size) = _ := hmCalloc_exact ps h
  split at hentry
  · have hobt := hret.obtained hr hp hentry rfl
    exact ⟨hobt.usable hinv.data.inv, hobt.contents.clear rfl rfl⟩
  · rename_i hbig
    have hle : nmemb * size ≤ sizeMax := by
      by_contra hgt
      exact h (Or.inr (Or.inr (by omega)))
    have hmax : sizeMax = 2 ^ 64 - 1 := rfl
    have hgoto := hret.large hp hentry .least (by simp only; omega)
      (by simp only; omega)
    have hobt := hret.obtained hr hp hgoto rfl
    exact ⟨hobt.usable hinv.data.inv, hobt.contents.fresh _ _ _ rfl rfl⟩

/-- A second `hm_calloc` of 16 bytes, which gets the block next to the first
one. -/
theorem calloc_zeroed_second : ∃ sys₀ sys p, Reachable page4k sys₀ ∧
    Returns page4k 0 (.calloc 4 4) sys₀ sys p ∧ p ≠ 0 ∧ 16 ≤ usableSize sys.store p ∧
      ∀ i < 16, sys.store.os.mem (p + i) = 0 := by
  have hrun : callSchedule page4k 0 (.calloc 4 4) (firstMalloc 0 16) [.step 0 false] (fun _ sys =>
    (sys.threads 0).pc == .idle && (sys.threads 0).result != 0) = true := by decide +kernel
  obtain ⟨sys₀, sys, hr, hd, hcheck⟩ := callSchedule_during hrun
  simp only [Bool.and_eq_true, beq_iff_eq, bne_iff_ne] at hcheck
  have hret : Returns page4k 0 (.calloc 4 4) sys₀ sys (sys.threads 0).result := ⟨hd, hcheck.1, rfl⟩
  obtain ⟨husable, hzero⟩ :=
    (calloc_zeroed page4k hr 0 4 4).2 (by decide) sys _ hret hcheck.2
  exact ⟨sys₀, sys, _, hr, hret, hcheck.2, husable, hzero⟩

end Calloc

section AlignedAlloc

/-- The class search stops at a class whose size the alignment divides, at the
latest at the last one. -/
theorem alignedClass_dvd {alignment : Nat} (hlast : alignment ∣ classToSize (numSizeClasses - 1))
    {n c : Nat} (hc : c < numSizeClasses) (hfuel : numSizeClasses ≤ c + n) :
    alignedClass alignment n c < numSizeClasses ∧
      alignment ∣ classToSize (alignedClass alignment n c) := by
  induction n generalizing c with
  | zero => omega
  | succ n ih =>
      unfold alignedClass
      split
      · rename_i hgoes
        have hne : c ≠ numSizeClasses - 1 := by
          rintro rfl
          exact hgoes.2 (Nat.mod_eq_zero_of_dvd hlast)
        exact ih (by omega) (by omega)
      · rename_i hstop
        exact ⟨hc, Nat.dvd_of_mod_eq_zero (by tauto)⟩

theorem classToSize_last : classToSize (numSizeClasses - 1) = 2 ^ 14 := by decide +kernel

/-- The class of an over-aligned small request. -/
def alignedChoice (alignment size : Nat) : Nat :=
  alignedClass alignment numSizeClasses
    (sizeClass (if size > alignment then size else alignment))

theorem alignedChoice_spec {k size : Nat} (hsize : size ≤ smallSizeMax)
    (hk : 2 ^ k ≤ smallSizeMax) :
    alignedChoice (2 ^ k) size < numSizeClasses ∧
      2 ^ k ∣ classToSize (alignedChoice (2 ^ k) size) := by
  have hpos := Nat.two_pow_pos k
  refine alignedClass_dvd ?_ (sizeClass_lt (by split <;> omega) (by split <;> omega)) (by omega)
  rw [classToSize_last]
  exact Nat.pow_dvd_pow 2 ((Nat.pow_le_pow_iff_right (by decide)).mp hk)

/-- The blocks of a page are aligned to what divides their size. -/
theorem PageId.block_aligned {pg : PageId} {k size i : Nat} (hseg : segmentSize ∣ pg.seg)
    (hk : 2 ^ k ≤ smallSizeMax) (hsize : 2 ^ k ∣ size) : 2 ^ k ∣ pg.start + i * size := by
  have hk14 : k ≤ 14 := (Nat.pow_le_pow_iff_right (by decide)).mp hk
  have hpage : 2 ^ k ∣ pageSize := by
    rw [pageSize_eq_pow]
    exact Nat.pow_dvd_pow 2 (Nat.le_trans hk14 (by decide))
  have hsegment : 2 ^ k ∣ segmentSize := by
    rw [segmentSize_eq_pow]
    exact Nat.pow_dvd_pow 2 (Nat.le_trans hk14 (by decide))
  exact Nat.dvd_add (Nat.dvd_add (Nat.dvd_trans hsegment hseg) (Nat.dvd_mul_left_of_dvd hpage _))
    (Nat.dvd_mul_left_of_dvd hsize _)

theorem isPow2_test {alignment : Nat} :
    (alignment = 0 ∨ (alignment &&& (alignment - 1)) ≠ 0) ↔ ¬ ∃ k, alignment = 2 ^ k := by
  rw [← Word.isPow2_iff]
  simp only [Word.isPow2, Bool.and_eq_true, bne_iff_ne, beq_iff_eq]
  tauto

theorem hmAlignedAlloc_refused (ps : PageSize) {alignment size : Nat}
    (h : size = 0 ∨ (¬ ∃ k, alignment = 2 ^ k) ∨ segmentSize / 2 < alignment) :
    hmAlignedAlloc ps alignment size = .ret 0 := by
  unfold hmAlignedAlloc
  by_cases hzero : size = 0
  · rw [if_pos hzero]
  rw [if_neg hzero]
  by_cases hpow : alignment = 0 ∨ (alignment &&& (alignment - 1)) ≠ 0
  · rw [if_pos hpow]
  rw [if_neg hpow]
  have hbig : segmentSize / 2 < alignment := by
    rcases h with h | h | h
    · exact absurd h hzero
    · exact absurd (isPow2_test.mpr h) hpow
    · exact h
  have hhalf : segmentSize / 2 = 2097152 := by decide
  have hsmall : smallSizeMax = 16384 := by decide
  have halign : allocAlign = 16 := by decide
  rw [if_neg (by omega), if_neg ?_, if_pos hbig]
  rintro ⟨hneed, _⟩
  split at hneed <;> omega

/-- What `hm_aligned_alloc` does with an alignment it accepts. -/
theorem hmAlignedAlloc_accepted (ps : PageSize) {k size : Nat} (hsize : size ≠ 0)
    (hk : 2 ^ k ≤ segmentSize / 2) :
    hmAlignedAlloc ps (2 ^ k) size =
      if 2 ^ k ≤ allocAlign then hmMalloc ps ⟨size, false, none⟩
      else if size ≤ smallSizeMax ∧ 2 ^ k ≤ smallSizeMax then
        .goto (.small ⟨size, false, none⟩ (alignedChoice (2 ^ k) size))
      else allocLarge ps ⟨size, false, none⟩ (2 ^ k) := by
  have hpow : ¬ (2 ^ k = 0 ∨ ((2 ^ k) &&& (2 ^ k - 1)) ≠ 0) := fun h => isPow2_test.mp h ⟨k, rfl⟩
  unfold hmAlignedAlloc
  rw [if_neg hsize, if_neg hpow]
  dsimp only
  by_cases hfew : 2 ^ k ≤ allocAlign
  · rw [if_pos hfew, if_pos hfew]
  rw [if_neg hfew, if_neg hfew]
  have hneed : (if size > 2 ^ k then size else 2 ^ k) ≤ smallSizeMax ↔
      size ≤ smallSizeMax ∧ 2 ^ k ≤ smallSizeMax := by
    split <;> omega
  by_cases hsmall : size ≤ smallSizeMax ∧ 2 ^ k ≤ smallSizeMax
  · have hc := (alignedChoice_spec hsmall.1 hsmall.2).1
    rw [if_pos hsmall, if_pos ⟨hneed.mpr hsmall, hc⟩]
    have hround := sizeClass_classToSize hc
    unfold alignedChoice at hround ⊢
    rw [hround]
  · rw [if_neg hsmall, if_neg (fun h => hsmall (hneed.mp h.1)), if_neg (by omega)]

/-- `p` is where a block of its page starts. -/
def BlockStart (s : Store) (p : Nat) : Prop :=
  isLarge s.os.mem p = false ∧ IsPage (IsSegment s.os.regions) (pageOf p) ∧
    ∃ i < s.page.capacity (pageOf p), p = s.page.block (pageOf p) i

/-- `p` is in the first `SEGMENT_SIZE` bytes of its large region. -/
def LargeStart (s : Store) (p : Nat) : Prop :=
  isLarge s.os.mem p = true ∧
    ∃ size offset, s.os.regions (regionBase p) = some ⟨size, .large offset⟩ ∧
      p = regionBase p + offset ∧ offset < segmentSize

/-- Every pointer that is handed out is one of the two. -/
theorem Inv.grant_start {ps : PageSize} {s : Store} {G : Ghost} (h : Inv ps s G) {p : Nat}
    {g : Grant} (hg : s.grants p = some g) : BlockStart s p ∨ LargeStart s p := by
  cases ho : g.origin with
  | small pg i =>
      obtain ⟨_, htag, hpage⟩ := h.decode_small hg ho
      have hs := h.smallGrant hg ho
      refine Or.inl ⟨htag, ?_, i, ?_, ?_⟩ <;> rw [hpage]
      · exact hs.page
      · exact hs.lt
      · exact hs.block
  | large b =>
      obtain ⟨hbase, htag⟩ := h.decode_large hg ho
      obtain ⟨size, offset, hreg, hp, _⟩ := h.grants.large p g b hg ho
      obtain ⟨_, _, _, hlt, _⟩ := h.regions.large b size offset hreg
      refine Or.inr ⟨htag, size, offset, ?_, ?_, hlt⟩ <;> rw [hbase]
      · exact hreg
      · exact hp

section Alignment

variable {ps : PageSize} {s : Store} {G : Ghost} {p : Nat} {q : Request} {mem₀ : Mem}
  {holder : Holder}

/-- A block of a class is aligned to what divides the class size. -/
theorem Obtained.small_aligned {c k : Nat} (h : Obtained (.small q c) mem₀ s p holder)
    (hinv : Inv ps s G) (hk : 2 ^ k ≤ smallSizeMax) (hc : 2 ^ k ∣ classToSize c) : 2 ^ k ∣ p := by
  obtain ⟨g, hg, _, _, husable, pg, i, ho⟩ := h.grant
  have hs := hinv.smallGrant hg ho
  have harea : (s.page.row pg).area = pg.start := hs.area
  have hsize : (s.page.row pg).blockSize = classToSize c := hs.usable.symm.trans husable
  rw [hs.block, PageState.block, harea, hsize]
  exact PageId.block_aligned (hinv.regions.segment hs.page.1).2.1 hk hc

/-- A large block is aligned to what divides its offset. -/
theorem Obtained.large_aligned {offset mmapSize k : Nat}
    (h : Obtained (.large q offset mmapSize) mem₀ s p holder) (hinv : Inv ps s G)
    (hk : 2 ^ k ≤ segmentSize) (hoffset : 2 ^ k ∣ offset) : 2 ^ k ∣ p := by
  obtain ⟨g, hg, _, _, _, b, ho, hp⟩ := h.grant
  obtain ⟨size, offset', hreg, _⟩ := hinv.grants.large p g b hg ho
  have hb := (hinv.regions.large b size offset' hreg).1
  rw [segmentSize_eq_pow] at hk hb
  rw [hp]
  exact Nat.dvd_add (Nat.dvd_trans (Nat.pow_dvd_pow 2
    ((Nat.pow_le_pow_iff_right (by decide)).mp hk)) hb) hoffset

end Alignment

/-- A block that `hm_aligned_alloc` returns. -/
theorem Returns.aligned {ps : PageSize} {t k size p : Nat} {sys₀ sys : System} {G : Ghost}
    (h : Returns ps t (.alignedAlloc (2 ^ k) size) sys₀ sys p) (hr : Reachable ps sys₀)
    (hp : p ≠ 0) (hinv : Inv ps sys.store G) (hk : 2 ^ k ≤ segmentSize / 2) (hsize : size ≠ 0)
    (hword : size < 2 ^ 64) :
    2 ^ k ∣ p ∧ ∃ goal, goal.request = ⟨size, false, none⟩ ∧
      Obtained goal sys₀.store.os.mem sys.store p .client := by
  have hentry : enter ps sys₀.store (.alignedAlloc (2 ^ k) size) = _ :=
    hmAlignedAlloc_accepted ps hsize hk
  have hhalf : segmentSize / 2 < segmentSize := by decide
  split at hentry
  · -- Every block is aligned to 16.
    rename_i hfew
    have halign : 2 ^ k ∣ allocAlign :=
      Nat.pow_dvd_pow 2 ((Nat.pow_le_pow_iff_right (by decide)).mp hfew : k ≤ 4)
    have hobt : ∃ goal, goal.request = ⟨size, false, none⟩ ∧
        Obtained goal sys₀.store.os.mem sys.store p .client := by
      rcases h.malloc hp hentry hword with ⟨_, _, hgoto⟩ | ⟨_, hgoto⟩
      · exact ⟨_, rfl, h.obtained hr hp hgoto rfl⟩
      · exact ⟨_, rfl, h.obtained hr hp hgoto rfl⟩
    obtain ⟨goal, hgoal, hobt⟩ := hobt
    obtain ⟨g, hg, _⟩ := hobt.grant
    exact ⟨Nat.dvd_trans halign (hinv.grant_aligned hg), goal, hgoal, hobt⟩
  rename_i hfew
  split at hentry
  · -- The class size is a multiple of the alignment.
    rename_i hsmall
    have hobt := h.obtained hr hp hentry rfl
    have hc := (alignedChoice_spec hsmall.1 hsmall.2).2
    exact ⟨hobt.small_aligned hinv hsmall.2 hc, _, rfl, hobt⟩
  · -- The offset into the region is rounded.
    have halign : LargeAlign (2 ^ k) := ⟨⟨k, rfl⟩, Nat.le_of_not_le hfew, hk⟩
    have hgoto := h.large hp hentry halign (Nat.pos_of_ne_zero hsize) hword
    have hobt := h.obtained hr hp hgoto rfl
    have hoffset := (largeOffset_bounds halign).2.1
    exact ⟨hobt.large_aligned hinv (Nat.le_trans hk (Nat.le_of_lt hhalf)) hoffset, _, rfl, hobt⟩

/-- `hm_aligned_alloc` honours every alignment it accepts. From every reachable
state and for all words: it returns null at once, with nothing changed, for a
zero size, an alignment that is no power of two or one above half a segment;
what it returns otherwise is aligned, long enough, and a live pointer that is
decoded like any other; and the class search of a small request finds a class,
all blocks of which are aligned on every page. -/
theorem aligned_alloc_honoured (ps : PageSize) {sys₀ : System} (hr : Reachable ps sys₀)
    (t alignment size : Nat) :
    (size = 0 ∨ (¬ ∃ k, alignment = 2 ^ k) ∨ segmentSize / 2 < alignment →
      ∀ sys, During ps t (.alignedAlloc alignment size) sys₀ sys →
        Returns ps t (.alignedAlloc alignment size) sys₀ sys 0 ∧ sys.store = sys₀.store) ∧
    (∀ sys p, Returns ps t (.alignedAlloc alignment size) sys₀ sys p → p ≠ 0 →
      alignment ∣ p ∧ size ≤ usableSize sys.store p ∧
      (BlockStart sys.store p ∨ LargeStart sys.store p) ∧
      ∃ g, sys.store.grants p = some g ∧ g.holder = .client ∧ g.usable = usableSize sys.store p) ∧
    ((∃ k, alignment = 2 ^ k) → size ≤ smallSizeMax → alignment ≤ smallSizeMax →
      alignedChoice alignment size < numSizeClasses ∧
      ∀ (pg : PageId) (i : Nat), segmentSize ∣ pg.seg →
        alignment ∣ pg.start + i * classToSize (alignedChoice alignment size)) := by
  refine ⟨fun h sys hd => hd.refused (hmAlignedAlloc_refused ps h), fun sys p hret hp => ?_, ?_⟩
  · obtain ⟨G, hsys⟩ := (hret.during.reachable hr).inv
    have hinv := hsys.data.inv
    by_cases hrefused : size = 0 ∨ (¬ ∃ k, alignment = 2 ^ k) ∨ segmentSize / 2 < alignment
    · have hzero := (hret.during.refused (hmAlignedAlloc_refused ps hrefused)).1.result
      exact absurd (hret.result.symm.trans hzero) hp
    push Not at hrefused
    obtain ⟨hsize, ⟨k, rfl⟩, hk⟩ := hrefused
    have hword : size < 2 ^ 64 := hret.during.allowed.2.2.2
    obtain ⟨halign, goal, hgoal, hobt⟩ := hret.aligned hr hp hinv hk hsize hword
    have husable := hobt.usable hinv
    rw [hgoal] at husable
    obtain ⟨g, hg, hh, _⟩ := hobt.grant
    exact ⟨halign, husable, hinv.grant_start hg, g, hg, hh, (hinv.usableSize_eq hg).symm⟩
  · rintro ⟨k, rfl⟩ hsize hk
    obtain ⟨hc, hdvd⟩ := alignedChoice_spec hsize hk
    exact ⟨hc, fun pg i hseg => PageId.block_aligned hseg hk hdvd⟩

/-- A block of 40 bytes aligned to 64, on the page of the first block of its
class. -/
theorem aligned_alloc_honoured_64 : ∃ sys₀ sys p, Reachable page4k sys₀ ∧
    Returns page4k 0 (.alignedAlloc 64 40) sys₀ sys p ∧ p ≠ 0 ∧ 64 ∣ p ∧
      40 ≤ usableSize sys.store p := by
  have hrun : callSchedule page4k 0 (.alignedAlloc 64 40) (firstMalloc 0 64) [.step 0 false]
    (fun _ sys => (sys.threads 0).pc == .idle && (sys.threads 0).result != 0) = true := by
      decide +kernel
  obtain ⟨sys₀, sys, hr, hd, hcheck⟩ := callSchedule_during hrun
  simp only [Bool.and_eq_true, beq_iff_eq, bne_iff_ne] at hcheck
  have hret : Returns page4k 0 (.alignedAlloc 64 40) sys₀ sys (sys.threads 0).result :=
    ⟨hd, hcheck.1, rfl⟩
  obtain ⟨halign, husable, _⟩ :=
    (aligned_alloc_honoured page4k hr 0 64 40).2.1 sys _ hret hcheck.2
  exact ⟨sys₀, sys, _, hr, hret, hcheck.2, halign, husable⟩

end AlignedAlloc

end HMalloc
