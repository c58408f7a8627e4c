import HMalloc.SizeClass

/-!
The size classes for any threshold. The table that `build_size_classes` makes for
the threshold `2^m`, `m ≥ 6`, has four classes for each octave, the lookup
answers the least class that fits, and no class is much larger than the class
below it: at most 16 more in the base octave and at most a quarter more above.
So a block is less than 16 bytes larger than a request of up to 64 bytes, and
less than a quarter larger than any other.
-/

namespace HMalloc

/-- `size_class` with the table `t` and the threshold `small`. -/
def SizeClasses.sizeClass (t : SizeClasses) (small n : Nat) : Nat :=
  if n > small then largeClass
  else t.lookup.getD (((if n = 0 then 1 else n) - 1) / allocAlign) 0

/-- `class_to_size` with the table `t`. -/
def SizeClasses.classToSize (t : SizeClasses) (c : Nat) : Nat := t.size.getD c 0

/-- `size_class_round` with the table `t` and the threshold `small`. -/
def SizeClasses.sizeClassRound (t : SizeClasses) (small n : Nat) : Nat :=
  t.classToSize (t.sizeClass small n)

/-- The functions of the allocator are the ones for its own threshold. -/
theorem kTable_functions (n : Nat) :
    sizeClass n = kTable.sizeClass smallSizeMax n ∧ classToSize n = kTable.classToSize n ∧
      sizeClassRound n = kTable.sizeClassRound smallSizeMax n := ⟨rfl, rfl, rfl⟩

/-- The sizes of the classes are near each other: each is at most 16 larger than
the one below, or at most a quarter larger, and the first is near `prev`. -/
def Near : Nat → List Nat → Prop
  | _, [] => True
  | prev, s :: rest => (s ≤ prev + 16 ∨ 64 ≤ prev ∧ 4 * s ≤ 5 * prev) ∧ Near s rest

theorem Near.append {prev last : Nat} {l r : List Nat} (hl : Near prev l)
    (hlast : (prev :: l).getLast? = some last) (hr : Near last r) : Near prev (l ++ r) := by
  induction l generalizing prev with
  | nil =>
      cases hlast
      exact hr
  | cons s l ih =>
      refine ⟨hl.1, ih hl.2 ?_⟩
      rw [← hlast]
      rfl

/-- The distance between a class and the one below it. -/
theorem Near.getD {prev : Nat} {sizes : List Nat} (h : Near prev sizes) {c : Nat}
    (hc : c < sizes.length) :
    let below := if c = 0 then prev else sizes.getD (c - 1) 0
    sizes.getD c 0 ≤ below + 16 ∨ 64 ≤ below ∧ 4 * sizes.getD c 0 ≤ 5 * below := by
  induction sizes generalizing prev c with
  | nil => exact absurd hc (Nat.not_lt_zero c)
  | cons s sizes ih =>
      cases c with
      | zero => exact h.1
      | succ c =>
          have hrec := ih h.2 (Nat.lt_of_succ_lt_succ hc)
          cases c with
          | zero => exact hrec
          | succ c => exact hrec

/-- The loop over the octaves: it starts from the size `2^k` and ends at `2^m`. -/
theorem octaves_near {m k fuel : Nat} (hk : 6 ≤ k) (hm : k ≤ m) (hfuel : m - k ≤ fuel) :
    Near (2 ^ k) (octaves (2 ^ m) fuel k) ∧
      (2 ^ k :: octaves (2 ^ m) fuel k).getLast? = some (2 ^ m) := by
  induction fuel generalizing k with
  | zero =>
      have heq : k = m := by omega
      subst heq
      exact ⟨trivial, rfl⟩
  | succ fuel ih =>
      unfold octaves
      rw [Nat.one_shiftLeft]
      by_cases hlt : k < m
      · rw [if_pos (Nat.pow_lt_pow_right (by decide) hlt), octave_eq hk hlt]
        obtain ⟨hnear, hlast⟩ := ih (by omega) hlt (by omega)
        have hquarter : 2 ^ k = 4 * 2 ^ (k - 2) := by
          rw [show (4 : Nat) = 2 ^ 2 by rfl, ← Nat.pow_add]
          congr 1
          omega
        have hsucc : 2 ^ (k + 1) = 2 ^ k + 4 * 2 ^ (k - 2) := by
          rw [Nat.pow_succ]
          omega
        have hbase : 2 ^ 6 ≤ 2 ^ k := Nat.pow_le_pow_right (by decide) hk
        have hoctave : Near (2 ^ k) ((List.range' 1 4).map (fun i => 2 ^ k + i * 2 ^ (k - 2))) := by
          change Near (2 ^ k) [2 ^ k + 1 * 2 ^ (k - 2), 2 ^ k + 2 * 2 ^ (k - 2),
            2 ^ k + 3 * 2 ^ (k - 2), 2 ^ k + 4 * 2 ^ (k - 2)]
          simp only [Near, and_true]
          omega
        constructor
        · refine hoctave.append ?_ hnear
          rw [hsucc]
          rfl
        · rw [hsucc] at hlast
          rw [← hlast]
          rfl
      · have heq : k = m := by omega
        subst heq
        rw [if_neg (by omega)]
        exact ⟨trivial, rfl⟩

section Table

variable {m : Nat}

theorem buildSizeClasses_near (hm : 6 ≤ m) :
    Near 0 (buildSizeClasses (2 ^ m)).size ∧
      (buildSizeClasses (2 ^ m)).size.getLast? = some (2 ^ m) := by
  obtain ⟨hnear, hlast⟩ := octaves_near (Nat.le_refl 6) hm
    (show m - 6 ≤ (2 ^ m).log2 by rw [Nat.log2_two_pow]; omega)
  have hsizes : (buildSizeClasses (2 ^ m)).size =
      [16, 32, 48, 64] ++ octaves (2 ^ m) (2 ^ m).log2 6 := rfl
  rw [hsizes]
  constructor
  · refine Near.append (by simp [Near]) ?_ hnear
    rfl
  · rw [← hlast]
    rfl

/-- A request of at least `n' ≥ n` bytes gets no smaller class. -/
theorem IsLeastClass.mono {size : List Nat} {n n' c c' : Nat} (h : IsLeastClass size n c)
    (h' : IsLeastClass size n' c') (hle : n ≤ n') : c ≤ c' := by
  by_contra hlt
  have hbelow := h.least c' (by omega)
  have hfits := h'.fits
  omega

/-- What a block is larger than the request. The class below the one that was
chosen is too small for the request. -/
theorem IsLeastClass.waste (hm : 6 ≤ m) {n c : Nat} (hn : 1 ≤ n)
    (h : IsLeastClass (buildSizeClasses (2 ^ m)).size n c) :
    let s := (buildSizeClasses (2 ^ m)).size.getD c 0
    (n ≤ 64 → s < n + 16) ∧ (64 < n → 4 * (s - n) < n) := by
  have hnear := (buildSizeClasses_near hm).1.getD h.lt
  have hfits := h.fits
  dsimp only at hnear ⊢
  by_cases hc : c = 0
  · rw [if_pos hc] at hnear
    omega
  · rw [if_neg hc] at hnear
    have hbelow := h.least (c - 1) (by omega)
    omega

/-- What the lookup answers for a request, also one of 0 bytes. -/
theorem sizeClass_isLeast (hm : 6 ≤ m) {n : Nat} (hle : n ≤ 2 ^ m) :
    IsLeastClass (buildSizeClasses (2 ^ m)).size (max n 1)
      ((buildSizeClasses (2 ^ m)).sizeClass (2 ^ m) n) := by
  have hpos : 1 ≤ 2 ^ m := Nat.one_le_two_pow
  have hlookup := buildSizeClasses_lookup hm (Nat.le_max_right n 1) (Nat.max_le.mpr ⟨hle, hpos⟩)
  have hmax : (if n = 0 then 1 else n) = max n 1 := by
    split <;> omega
  unfold SizeClasses.sizeClass
  rw [if_neg (by omega), hmax]
  exact hlookup

/-- A block of a class is served by its own class. -/
theorem sizeClass_of_size (hm : 6 ≤ m) {c : Nat} (hc : c < (buildSizeClasses (2 ^ m)).size.length) :
    (buildSizeClasses (2 ^ m)).sizeClass (2 ^ m)
      ((buildSizeClasses (2 ^ m)).classToSize c) = c := by
  obtain ⟨hinc, hrange, _⟩ := buildSizeClasses_size hm
  have hmem : (buildSizeClasses (2 ^ m)).classToSize c ∈ (buildSizeClasses (2 ^ m)).size := by
    unfold SizeClasses.classToSize
    rw [List.getD_eq_getElem _ _ hc]
    exact List.getElem_mem _
  obtain ⟨_, hlo, hhi⟩ := hrange _ hmem
  have hleast := sizeClass_isLeast hm hhi
  rw [Nat.max_eq_left (Nat.le_trans (by decide) hlo)] at hleast
  have hself : IsLeastClass (buildSizeClasses (2 ^ m)).size
      ((buildSizeClasses (2 ^ m)).classToSize c) c :=
    ⟨hc, Nat.le_refl _, fun c' hc' => getD_lt_of_pairwise hinc hc' hc⟩
  exact Nat.le_antisymm (hleast.mono hself (Nat.le_refl _)) (hself.mono hleast (Nat.le_refl _))

end Table

/-- The builder is correct for every threshold `2^m`, `m ≥ 6`. The sizes are
strictly increasing multiples of 16 from 16 to `2^m`, and there are
`4 + 4 * (m - 6)` of them. For every request of 1 to `2^m` bytes the lookup has
the least class that fits, less than 16 bytes larger than a request of up to 64
bytes and less than a quarter larger than any other. So `size_class` is monotone,
and rounding a request twice is rounding it once. -/
theorem size_classes_any_threshold {m : Nat} (hm : 6 ≤ m) {t : SizeClasses}
    (ht : t = buildSizeClasses (2 ^ m)) :
    t.size.Pairwise (· < ·) ∧ (∀ s ∈ t.size, 16 ∣ s) ∧
    t.size.head? = some 16 ∧ t.size.getLast? = some (2 ^ m) ∧
    t.size.length = 4 + 4 * (m - 6) ∧
    (∀ n, 1 ≤ n → n ≤ 2 ^ m →
      let c := t.lookup.getD ((n - 1) / 16) 0
      c < t.size.length ∧ n ≤ t.classToSize c ∧
      (∀ c' < t.size.length, n ≤ t.classToSize c' → c ≤ c') ∧
      (n ≤ 64 → t.classToSize c - n < 16) ∧ (64 < n → 4 * (t.classToSize c - n) < n)) ∧
    (∀ n n', n ≤ n' → n' ≤ 2 ^ m → t.sizeClass (2 ^ m) n ≤ t.sizeClass (2 ^ m) n') ∧
    ∀ n ≤ 2 ^ m, t.sizeClassRound (2 ^ m) (t.sizeClassRound (2 ^ m) n) =
      t.sizeClassRound (2 ^ m) n := by
  subst ht
  obtain ⟨hinc, hrange, hlength, _⟩ := buildSizeClasses_size hm
  have hlast := (buildSizeClasses_near hm).2
  refine ⟨hinc, fun s hs => (hrange s hs).1, rfl, hlast, hlength, ?_, ?_, ?_⟩
  · intro n hn hle
    have hleast := buildSizeClasses_lookup hm hn hle
    obtain ⟨hbase, habove⟩ := hleast.waste hm hn
    refine ⟨hleast.lt, hleast.fits, fun c' hc' hfits => ?_, fun hsmall => ?_, habove⟩
    · by_contra hlt
      exact absurd hfits (Nat.not_le.mpr (hleast.least c' (Nat.lt_of_not_le hlt)))
    · have hfits : n ≤ _ := hleast.fits
      have hless := hbase hsmall
      exact Nat.sub_lt_left_of_lt_add hfits hless
  · intro n n' hle hle'
    have h := sizeClass_isLeast hm (Nat.le_trans hle hle')
    exact h.mono (sizeClass_isLeast hm hle') (by omega)
  · intro n hle
    unfold SizeClasses.sizeClassRound
    rw [sizeClass_of_size hm (sizeClass_isLeast hm hle).lt]

/-- The threshold of the allocator, 16 KiB: eight octaves above the first. -/
theorem size_classes_any_threshold_fourteen : 6 ≤ 14 ∧
    (buildSizeClasses (2 ^ 14)).size.length = 36 ∧
    (∀ n, 64 < n → n ≤ 2 ^ 14 → 4 * ((buildSizeClasses (2 ^ 14)).classToSize
      ((buildSizeClasses (2 ^ 14)).lookup.getD ((n - 1) / 16) 0) - n) < n) ∧
    ∀ n ≤ 2 ^ 14, (buildSizeClasses (2 ^ 14)).sizeClassRound (2 ^ 14)
      ((buildSizeClasses (2 ^ 14)).sizeClassRound (2 ^ 14) n) =
        (buildSizeClasses (2 ^ 14)).sizeClassRound (2 ^ 14) n := by
  have hm : 6 ≤ 14 := by decide
  obtain ⟨_, _, _, _, hlength, hleast, _, hround⟩ := size_classes_any_threshold hm rfl
  refine ⟨hm, hlength, fun n hn hle => ?_, hround⟩
  obtain ⟨_, _, _, _, hwaste⟩ := hleast n (by omega) hle
  exact hwaste hn

end HMalloc
