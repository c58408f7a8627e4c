import Mathlib.Tactic

/-!
Counting over lists without repetition: how a count or a sum over a finite
index list changes when the counted function changes at one index, and the
pigeonhole bound on the length of such a list.
-/

namespace Count

variable {ι α : Type*} [DecidableEq ι]

omit [DecidableEq ι] in
theorem countP_congr_mem {xs : List ι} {p q : ι → Bool}
    (h : ∀ i ∈ xs, p i = q i) : xs.countP p = xs.countP q := by
  apply List.countP_congr
  intro i hi
  rw [h i hi]

/-- Changing the counted function at one index changes the count by what the
old and the new value there contribute. -/
theorem countP_update {xs : List ι} (hnod : xs.Nodup) {x : ι} (hx : x ∈ xs)
    (f : ι → α) (v : α) (p : α → Bool) :
    xs.countP (fun i => p (Function.update f x v i)) + (p (f x)).toNat =
      xs.countP (fun i => p (f i)) + (p v).toNat := by
  induction xs with
  | nil => simp at hx
  | cons y xs ih =>
      obtain ⟨hy, hnod⟩ := List.nodup_cons.mp hnod
      simp only [List.countP_cons]
      by_cases hxy : x = y
      · subst hxy
        have hrest : xs.countP (fun i => p (Function.update f x v i)) =
            xs.countP (fun i => p (f i)) := by
          apply countP_congr_mem
          intro i hi
          have hne : i ≠ x := fun heq => hy (heq ▸ hi)
          rw [Function.update_of_ne hne]
        rw [hrest, Function.update_self]
        cases p v <;> cases p (f x) <;> simp
      · have hrec := ih hnod ((List.mem_cons.mp hx).resolve_left hxy)
        rw [Function.update_of_ne (fun heq => hxy heq.symm)]
        omega

/-- The same for a sum of naturals. -/
theorem sum_update {xs : List ι} (hnod : xs.Nodup) {x : ι} (hx : x ∈ xs)
    (f : ι → Nat) (v : Nat) :
    (xs.map (Function.update f x v)).sum + f x = (xs.map f).sum + v := by
  induction xs with
  | nil => simp at hx
  | cons y xs ih =>
      obtain ⟨hy, hnod⟩ := List.nodup_cons.mp hnod
      simp only [List.map_cons, List.sum_cons]
      by_cases hxy : x = y
      · subst hxy
        have hrest : xs.map (Function.update f x v) = xs.map f := by
          apply List.map_congr_left
          intro i hi
          have hne : i ≠ x := fun heq => hy (heq ▸ hi)
          rw [Function.update_of_ne hne]
        rw [hrest, Function.update_self]
        omega
      · have hrec := ih hnod ((List.mem_cons.mp hx).resolve_left hxy)
        rw [Function.update_of_ne (fun heq => hxy heq.symm)]
        omega

omit [DecidableEq ι] in
theorem sum_map_congr {xs : List ι} {f g : ι → Nat} (h : ∀ i ∈ xs, f i = g i) :
    (xs.map f).sum = (xs.map g).sum := by
  rw [List.map_congr_left h]

omit [DecidableEq ι] in
/-- Summands of at most `n + 1`: those that reach it are counted once more. -/
theorem sum_le_of_bounded {xs : List ι} {f : ι → Nat} {n : Nat} (h : ∀ i ∈ xs, f i ≤ n + 1) :
    (xs.map f).sum ≤ n * xs.length + xs.countP (fun i => f i == n + 1) := by
  induction xs with
  | nil => simp
  | cons x xs ih =>
      have hx := h x List.mem_cons_self
      have hrec := ih (fun i hi => h i (List.mem_cons_of_mem _ hi))
      simp only [List.map_cons, List.sum_cons, List.length_cons, List.countP_cons, beq_iff_eq,
        Nat.mul_succ]
      split <;> omega

/-- Pigeonhole: distinct naturals below `n` are at most `n` many. -/
theorem length_le_of_nodup_lt {xs : List Nat} {n : Nat} (hnod : xs.Nodup)
    (hlt : ∀ x ∈ xs, x < n) : xs.length ≤ n := by
  have hsub : xs ⊆ List.range n := fun x hx => List.mem_range.mpr (hlt x hx)
  simpa using (List.subperm_of_subset hnod hsub).length_le

end Count
