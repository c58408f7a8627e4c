import HMalloc.Constants
import Mathlib.Data.List.GetD

/-!
Size classes (`size_class.h`). `buildSizeClasses` is the table builder with the
small threshold as a parameter: a dense base octave, geometric octaves of four
steps each, and the reverse lookup that is filled in one pass with a carried
class cursor. The facts about block sizes that the rest of the allocator uses
are proved for every threshold `2^m`, `m ≥ 6`, and used at `m = 14`.
-/

namespace HMalloc

structure SizeClasses where
  size : List Nat
  lookup : List Nat

/-- The sizes of one octave `(2^k, 2^(k+1)]`, four steps of `2^(k-2)`. -/
def octave (small k : Nat) : List Nat :=
  let base := 1 <<< k
  let step := base >>> 2
  ((List.range' 1 4).map (fun i => base + i * step)).filter (· ≤ small)

/-- The loop over the octaves: `for (k = 6; (1 << k) < SMALL_SIZE_MAX; ++k)`. -/
def octaves (small : Nat) : Nat → Nat → List Nat
  | 0, _ => []
  | fuel + 1, k =>
      if 1 <<< k < small then octave small k ++ octaves small fuel (k + 1) else []

/-- `while (cls + 1 < t.count && t.size[cls] < n) ++cls`. -/
def advance (size : List Nat) (n : Nat) : Nat → Nat → Nat
  | 0, cls => cls
  | fuel + 1, cls =>
      if cls + 1 < size.length ∧ size.getD cls 0 < n then advance size n fuel (cls + 1)
      else cls

/-- The lookup loop from bucket `i` on, with the class cursor it carries. -/
def fillLookup (size : List Nat) : Nat → Nat → Nat → List Nat
  | 0, _, _ => []
  | entries + 1, i, cls =>
      let cls := advance size ((i + 1) * allocAlign) size.length cls
      cls :: fillLookup size entries (i + 1) cls

/-- `build_size_classes`. -/
def buildSizeClasses (small : Nat) : SizeClasses :=
  let size := List.range' allocAlign 4 allocAlign ++ octaves small small.log2 6
  ⟨size, fillLookup size (small / allocAlign) 0 0⟩

def kTable : SizeClasses := buildSizeClasses smallSizeMax

/-- `LARGE_CLASS`. -/
def largeClass : Nat := 0xFFFFFFFF

def numSizeClasses : Nat := kTable.size.length

/-- `class_to_size`. -/
def classToSize (c : Nat) : Nat := kTable.size.getD c 0

/-- `size_class`. -/
def sizeClass (n : Nat) : Nat :=
  if n > smallSizeMax then largeClass
  else kTable.lookup.getD (((if n = 0 then 1 else n) - 1) / allocAlign) 0

/-- `size_class_round`. -/
def sizeClassRound (n : Nat) : Nat := classToSize (sizeClass n)

theorem octave_eq {m k : Nat} (hk : 6 ≤ k) (hm : k < m) :
    octave (2 ^ m) k = (List.range' 1 4).map (fun i => 2 ^ k + i * 2 ^ (k - 2)) := by
  have hstep : (1 <<< k) >>> 2 = 2 ^ (k - 2) := by
    rw [Nat.one_shiftLeft, Nat.shiftRight_eq_div_pow, Nat.pow_div (by omega) (by omega)]
  have hquarter : 2 ^ k = 4 * 2 ^ (k - 2) := by
    rw [show (4 : Nat) = 2 ^ 2 by rfl, ← Nat.pow_add]
    congr 1
    omega
  have hnext : 2 ^ (k + 1) ≤ 2 ^ m := Nat.pow_le_pow_right (by decide) hm
  simp only [octave]
  rw [hstep, Nat.one_shiftLeft]
  apply List.filter_eq_self.mpr
  intro s hs
  obtain ⟨i, hi, rfl⟩ := List.mem_map.mp hs
  simp only [List.mem_range'_1] at hi
  have : i * 2 ^ (k - 2) ≤ 4 * 2 ^ (k - 2) := Nat.mul_le_mul_right _ (by omega)
  rw [Nat.pow_succ] at hnext
  simp only [decide_eq_true_eq]
  omega

/-- The sizes from octave `k` on: strictly increasing multiples of the
granularity in `(2^k, 2^m]`, the last one `2^m`. -/
structure Geometric (m k : Nat) (sizes : List Nat) : Prop where
  increasing : sizes.Pairwise (· < ·)
  above : ∀ s ∈ sizes, 2 ^ k < s
  below : ∀ s ∈ sizes, s ≤ 2 ^ m
  aligned : ∀ s ∈ sizes, allocAlign ∣ s
  length_eq : sizes.length = 4 * (m - k)
  top : k < m → 2 ^ m ∈ sizes

private theorem geometric_cons {m k : Nat} (hk : 6 ≤ k) (hm : k < m) {sizes : List Nat}
    (h : Geometric m (k + 1) sizes) : Geometric m k (octave (2 ^ m) k ++ sizes) := by
  rw [octave_eq hk hm]
  obtain ⟨q, hq⟩ : ∃ q, 2 ^ (k - 2) = 16 * q :=
    ⟨2 ^ (k - 6), by
      rw [show (16 : Nat) = 2 ^ 4 by rfl, ← Nat.pow_add]
      congr 1
      omega⟩
  have hpow : 2 ^ k = 4 * 2 ^ (k - 2) := by
    rw [show (4 : Nat) = 2 ^ 2 by rfl, ← Nat.pow_add]
    congr 1
    omega
  have hpos : 0 < 2 ^ (k - 2) := Nat.two_pow_pos _
  have hnext : 2 ^ (k + 1) ≤ 2 ^ m := Nat.pow_le_pow_right (by decide) hm
  have hsucc : 2 ^ (k + 1) = 2 * 2 ^ k := by rw [Nat.pow_succ, Nat.mul_comm]
  have hlist : (List.range' 1 4).map (fun i => 2 ^ k + i * 2 ^ (k - 2)) =
      [2 ^ k + 1 * 2 ^ (k - 2), 2 ^ k + 2 * 2 ^ (k - 2), 2 ^ k + 3 * 2 ^ (k - 2),
        2 ^ k + 4 * 2 ^ (k - 2)] := rfl
  rw [hlist]
  have hmem : ∀ s ∈ [2 ^ k + 1 * 2 ^ (k - 2), 2 ^ k + 2 * 2 ^ (k - 2),
      2 ^ k + 3 * 2 ^ (k - 2), 2 ^ k + 4 * 2 ^ (k - 2)],
      2 ^ k < s ∧ s ≤ 2 ^ (k + 1) ∧ allocAlign ∣ s := by
    intro s hs
    simp only [List.mem_cons, List.not_mem_nil, or_false] at hs
    rcases hs with rfl | rfl | rfl | rfl <;>
      refine ⟨by omega, by omega, ?_⟩ <;> rw [hpow, hq] <;> simp only [allocAlign] <;> omega
  refine ⟨?_, ?_, ?_, ?_, ?_, ?_⟩
  · refine List.pairwise_append.mpr ⟨?_, h.increasing, ?_⟩
    · simp only [List.pairwise_cons, List.mem_cons, List.not_mem_nil, or_false]
      refine ⟨?_, ?_, ?_, ?_⟩ <;> intros <;> simp_all <;> omega
    · intro a ha b hb
      have := (hmem a ha).2.1
      have := h.above b hb
      omega
  · intro s hs
    rcases List.mem_append.mp hs with hs | hs
    · exact (hmem s hs).1
    · have := h.above s hs
      omega
  · intro s hs
    rcases List.mem_append.mp hs with hs | hs
    · have := (hmem s hs).2.1
      omega
    · exact h.below s hs
  · intro s hs
    rcases List.mem_append.mp hs with hs | hs
    · exact (hmem s hs).2.2
    · exact h.aligned s hs
  · rw [List.length_append, h.length_eq]
    simp only [List.length_cons, List.length_nil]
    omega
  · intro _
    by_cases hlast : k + 1 < m
    · exact List.mem_append_right _ (h.top hlast)
    · -- The last octave ends at `2^(k+1) = 2^m`.
      have hkm : m = k + 1 := by omega
      apply List.mem_append_left
      rw [hkm, hsucc]
      simp only [List.mem_cons]
      omega

theorem octaves_geometric {m k fuel : Nat} (hk : 6 ≤ k) (hm : k ≤ m) (hfuel : m - k ≤ fuel) :
    Geometric m k (octaves (2 ^ m) fuel k) := by
  induction fuel generalizing k with
  | zero =>
      have : k = m := by omega
      subst this
      exact ⟨List.Pairwise.nil, by simp [octaves], by simp [octaves], by simp [octaves],
        by simp [octaves], by omega⟩
  | succ fuel ih =>
      unfold octaves
      rw [Nat.one_shiftLeft]
      by_cases hlt : k < m
      · rw [if_pos (Nat.pow_lt_pow_right (by decide) hlt)]
        exact geometric_cons hk hlt (ih (by omega) hlt (by omega))
      · have : k = m := by omega
        subst this
        rw [if_neg (by omega)]
        exact ⟨List.Pairwise.nil, by simp, by simp, by simp, by simp, by omega⟩

/-- The class table: strictly increasing multiples of 16 from 16 to `2^m`. -/
theorem buildSizeClasses_size {m : Nat} (hm : 6 ≤ m) :
    let sizes := (buildSizeClasses (2 ^ m)).size
    sizes.Pairwise (· < ·) ∧ (∀ s ∈ sizes, allocAlign ∣ s ∧ allocAlign ≤ s ∧ s ≤ 2 ^ m) ∧
      sizes.length = 4 + 4 * (m - 6) ∧ 2 ^ m ∈ sizes := by
  have hg : Geometric m 6 (octaves (2 ^ m) (2 ^ m).log2 6) :=
    octaves_geometric (Nat.le_refl 6) hm (by rw [Nat.log2_two_pow]; omega)
  have hsizes : (buildSizeClasses (2 ^ m)).size =
      [16, 32, 48, 64] ++ octaves (2 ^ m) (2 ^ m).log2 6 := rfl
  have hbase : ∀ s ∈ [16, 32, 48, 64], allocAlign ∣ s ∧ allocAlign ≤ s ∧ s ≤ 64 := by decide
  have h64 : 2 ^ 6 ≤ 2 ^ m := Nat.pow_le_pow_right (by decide) hm
  simp only [hsizes]
  refine ⟨?_, ?_, ?_, ?_⟩
  · refine List.pairwise_append.mpr ⟨by decide, hg.increasing, ?_⟩
    intro a ha b hb
    have := (hbase a ha).2.2
    have := hg.above b hb
    omega
  · intro s hs
    rcases List.mem_append.mp hs with hs | hs
    · have := hbase s hs
      exact ⟨this.1, this.2.1, by omega⟩
    · have habove := hg.above s hs
      exact ⟨hg.aligned s hs, by simp only [allocAlign]; omega, hg.below s hs⟩
  · rw [List.length_append, hg.length_eq]
    rfl
  · by_cases hlt : 6 < m
    · exact List.mem_append_right _ (hg.top hlt)
    · have : m = 6 := by omega
      subst this
      simp

/-- `c` is the least class whose size is at least `n`. -/
structure IsLeastClass (size : List Nat) (n c : Nat) : Prop where
  lt : c < size.length
  fits : n ≤ size.getD c 0
  least : ∀ c' < c, size.getD c' 0 < n

theorem getD_lt_of_pairwise {size : List Nat} (h : size.Pairwise (· < ·)) {i j : Nat}
    (hij : i < j) (hj : j < size.length) : size.getD i 0 < size.getD j 0 := by
  have hi : i < size.length := by omega
  rw [List.getD_eq_getElem _ _ hi, List.getD_eq_getElem _ _ hj]
  exact List.pairwise_iff_getElem.mp h i j hi hj hij

/-- The inner loop of the lookup finds the least class from a cursor that has
not passed it. -/
theorem advance_spec {size : List Nat} {n cls fuel : Nat}
    (hbefore : ∀ c' < cls, size.getD c' 0 < n) (hcls : cls < size.length)
    (htop : n ≤ size.getD (size.length - 1) 0) (hfuel : size.length - cls ≤ fuel) :
    IsLeastClass size n (advance size n fuel cls) := by
  induction fuel generalizing cls with
  | zero => omega
  | succ fuel ih =>
      unfold advance
      by_cases hcond : cls + 1 < size.length ∧ size.getD cls 0 < n
      · rw [if_pos hcond]
        apply ih _ hcond.1 (by omega)
        intro c' hc'
        by_cases heq : c' = cls
        · rw [heq]
          exact hcond.2
        · exact hbefore c' (by omega)
      · rw [if_neg hcond]
        refine ⟨hcls, ?_, hbefore⟩
        by_cases hlast : cls + 1 < size.length
        · by_contra hlt
          exact hcond ⟨hlast, by omega⟩
        · have : cls = size.length - 1 := by omega
          rw [this]
          exact htop

/-- Every bucket of the lookup holds the least class for its upper end. The
carried cursor is sound because the buckets' ends increase. -/
theorem fillLookup_spec (size : List Nat) (entries i cls : Nat) {j : Nat}
    (hbefore : ∀ c' < cls, size.getD c' 0 < (i + 1) * allocAlign) (hcls : cls < size.length)
    (htop : (i + entries) * allocAlign ≤ size.getD (size.length - 1) 0) (hj : j < entries) :
    IsLeastClass size ((i + j + 1) * allocAlign) ((fillLookup size entries i cls).getD j 0) := by
  induction entries generalizing i cls j with
  | zero => omega
  | succ entries ih =>
      have hend : (i + 1) * allocAlign ≤ size.getD (size.length - 1) 0 :=
        Nat.le_trans (Nat.mul_le_mul_right _ (by omega)) htop
      have hadv := advance_spec hbefore hcls hend (show size.length - cls ≤ size.length by omega)
      unfold fillLookup
      cases j with
      | zero => simpa using hadv
      | succ j =>
          have hrec := ih (i + 1) (advance size ((i + 1) * allocAlign) size.length cls) (j := j)
            (fun c' hc' => Nat.lt_of_lt_of_le (hadv.least c' hc')
              (Nat.mul_le_mul_right _ (by omega)))
            hadv.lt (by rw [show i + 1 + entries = i + (entries + 1) by omega]; exact htop)
            (by omega)
          rw [List.getD_cons_succ, show i + (j + 1) + 1 = i + 1 + j + 1 by omega]
          exact hrec

/-- The reverse lookup answers the least class that fits, for every request
size up to the threshold. Between two multiples of 16 no class size lies, so
the end of a request's bucket may stand for the request. -/
theorem buildSizeClasses_lookup {m n : Nat} (hm : 6 ≤ m) (hn : 1 ≤ n) (hle : n ≤ 2 ^ m) :
    IsLeastClass (buildSizeClasses (2 ^ m)).size n
      ((buildSizeClasses (2 ^ m)).lookup.getD ((n - 1) / allocAlign) 0) := by
  obtain ⟨hinc, hrange, hlen, htop⟩ := buildSizeClasses_size hm
  set size := (buildSizeClasses (2 ^ m)).size with hsize
  obtain ⟨q, hq⟩ : ∃ q, 2 ^ m = q * allocAlign :=
    ⟨2 ^ (m - 4), by
      rw [show allocAlign = 2 ^ 4 by rfl, ← Nat.pow_add]
      congr 1
      omega⟩
  have hpos : 0 < allocAlign := by decide
  have hentries : 2 ^ m / allocAlign = q := by rw [hq, Nat.mul_div_cancel _ hpos]
  have hlookup : (buildSizeClasses (2 ^ m)).lookup = fillLookup size (2 ^ m / allocAlign) 0 0 := rfl
  -- The largest class is the threshold itself.
  have hlast : size.getD (size.length - 1) 0 = 2 ^ m := by
    obtain ⟨i, hi, hget⟩ := List.getElem_of_mem htop
    have hgetD : size.getD i 0 = 2 ^ m := by rw [List.getD_eq_getElem _ _ hi, hget]
    by_cases heq : i = size.length - 1
    · rw [← heq]
      exact hgetD
    · have hlt := getD_lt_of_pairwise hinc (show i < size.length - 1 by omega) (by omega)
      have hmem : size.getD (size.length - 1) 0 ∈ size := by
        rw [List.getD_eq_getElem _ _ (by omega)]
        exact List.getElem_mem _
      have := (hrange _ hmem).2.2
      omega
  have hbucket : (n - 1) / allocAlign < q := by
    rw [Nat.div_lt_iff_lt_mul hpos]
    omega
  have hspec := fillLookup_spec size q 0 0 (j := (n - 1) / allocAlign) (by omega) (by omega)
    (by rw [hlast, hq]; simp) hbucket
  rw [hlookup, hentries]
  rw [Nat.zero_add] at hspec
  have hdiv := Nat.div_add_mod (n - 1) allocAlign
  have hmod := Nat.mod_lt (n - 1) hpos
  refine ⟨hspec.lt, ?_, ?_⟩
  · have := hspec.fits
    simp only [allocAlign] at *
    omega
  · intro c' hc'
    have hlt := hspec.least c' hc'
    have hmem : size.getD c' 0 ∈ size := by
      rw [List.getD_eq_getElem _ _ (by have := hspec.lt; omega)]
      exact List.getElem_mem _
    obtain ⟨d, hd⟩ := (hrange _ hmem).1
    simp only [allocAlign] at *
    omega

/-- What a block size is: a multiple of 16 between 16 and 16 KiB. -/
theorem classToSize_spec {c : Nat} (hc : c < numSizeClasses) :
    allocAlign ∣ classToSize c ∧ allocAlign ≤ classToSize c ∧ classToSize c ≤ smallSizeMax := by
  have hmem : classToSize c ∈ kTable.size := by
    rw [classToSize, List.getD_eq_getElem _ _ hc]
    exact List.getElem_mem _
  exact (buildSizeClasses_size (m := 14) (by omega)).2.1 _ hmem

/-- A small request is served by a class, and the least one that fits it. -/
theorem sizeClass_least {n : Nat} (hn : 1 ≤ n) (hle : n ≤ smallSizeMax) :
    IsLeastClass kTable.size n (sizeClass n) := by
  have h := buildSizeClasses_lookup (m := 14) (by omega) hn hle
  unfold sizeClass
  rw [if_neg (by omega), if_neg (by omega)]
  exact h

theorem sizeClass_lt {n : Nat} (hn : 1 ≤ n) (hle : n ≤ smallSizeMax) :
    sizeClass n < numSizeClasses := (sizeClass_least hn hle).lt

theorem le_classToSize {n : Nat} (hn : 1 ≤ n) (hle : n ≤ smallSizeMax) :
    n ≤ classToSize (sizeClass n) := (sizeClass_least hn hle).fits

/-- A class size is served by its own class. -/
theorem sizeClass_classToSize {c : Nat} (hc : c < numSizeClasses) :
    sizeClass (classToSize c) = c := by
  obtain ⟨_, hlo, hhi⟩ := classToSize_spec hc
  have hleast := sizeClass_least (n := classToSize c)
    (Nat.le_trans (by decide) hlo) hhi
  have hinc := (buildSizeClasses_size (m := 14) (by omega)).1
  rcases Nat.lt_trichotomy (sizeClass (classToSize c)) c with hlt | heq | hgt
  · have h1 := getD_lt_of_pairwise hinc hlt hc
    have h2 := hleast.fits
    exact absurd h2 (Nat.not_le.mpr h1)
  · exact heq
  · exact absurd (hleast.least c hgt) (Nat.lt_irrefl _)

end HMalloc
