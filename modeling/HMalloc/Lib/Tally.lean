import Mathlib.Algebra.BigOperators.Group.Finset.Basic
import Mathlib.Algebra.Order.BigOperators.Group.Finset
import Mathlib.Order.Interval.Finset.Nat

/-!
A finite set of things with weights, given by a relation, and the number and
total weight of the things in it. A counter that is moved with every thing that
comes and goes is the number or the total (`insert`, `erase`), and a thing that
goes never weighs more than the total.
-/

namespace Tally

variable {α : Type}

/-- `R a n` says that `a` is there and weighs `n`: there are `count` such
things, and they weigh `total` together. -/
def Counts (R : α → Nat → Prop) (count total : Nat) : Prop :=
  ∃ (S : Finset α) (w : α → Nat), (∀ a n, R a n ↔ a ∈ S ∧ w a = n) ∧
    S.card = count ∧ ∑ a ∈ S, w a = total

variable {R R' : α → Nat → Prop} {count total : Nat}

theorem Counts.empty (h : ∀ a n, ¬ R a n) : Counts R 0 0 :=
  ⟨∅, fun _ => 0, fun a n => by simp [h a n], rfl, rfl⟩

theorem Counts.congr (h : Counts R count total) (heq : ∀ a n, R' a n ↔ R a n) :
    Counts R' count total := by
  obtain ⟨S, w, hS, hcard, hsum⟩ := h
  exact ⟨S, w, fun a n => (heq a n).trans (hS a n), hcard, hsum⟩

theorem Counts.insert [DecidableEq α] (h : Counts R count total) {a : α} {n : Nat}
    (hnew : ∀ m, ¬ R a m) (heq : ∀ b m, R' b m ↔ (b = a ∧ m = n) ∨ R b m) :
    Counts R' (count + 1) (total + n) := by
  obtain ⟨S, w, hS, rfl, rfl⟩ := h
  have ha : a ∉ S := fun hmem => hnew (w a) ((hS a _).mpr ⟨hmem, rfl⟩)
  refine ⟨Insert.insert a S, Function.update w a n, ?_, Finset.card_insert_of_notMem ha, ?_⟩
  · intro b m
    rw [heq, hS, Finset.mem_insert]
    by_cases hba : b = a
    · subst hba
      simp [ha, eq_comm]
    · simp [hba]
  · rw [Finset.sum_insert ha, Function.update_self, Nat.add_comm]
    congr 1
    refine Finset.sum_congr rfl fun b hb => Function.update_of_ne ?_ _ _
    rintro rfl
    exact ha hb

theorem Counts.erase [DecidableEq α] (h : Counts R count total) {a : α} {n : Nat} (ha : R a n)
    (heq : ∀ b m, R' b m ↔ R b m ∧ b ≠ a) :
    1 ≤ count ∧ n ≤ total ∧ Counts R' (count - 1) (total - n) := by
  obtain ⟨S, w, hS, rfl, rfl⟩ := h
  obtain ⟨hmem, rfl⟩ := (hS a n).mp ha
  have hsum := Finset.sum_erase_add S w hmem
  refine ⟨Finset.card_pos.mpr ⟨a, hmem⟩, by omega, S.erase a, w, ?_,
    Finset.card_erase_of_mem hmem, by omega⟩
  intro b m
  rw [heq, hS, Finset.mem_erase]
  tauto

/-- The number and the total are determined. -/
theorem Counts.unique (h : Counts R count total) {count' total' : Nat}
    (h' : Counts R count' total') : count = count' ∧ total = total' := by
  obtain ⟨S, w, hS, rfl, rfl⟩ := h
  obtain ⟨T, v, hT, rfl, rfl⟩ := h'
  have hw : ∀ a ∈ S, a ∈ T ∧ v a = w a := fun a ha => (hT a _).mp ((hS a _).mpr ⟨ha, rfl⟩)
  have hv : ∀ a ∈ T, a ∈ S := fun a ha => ((hS a _).mp ((hT a _).mpr ⟨ha, rfl⟩)).1
  obtain rfl : S = T := Finset.ext fun a => ⟨fun ha => (hw a ha).1, hv a⟩
  exact ⟨rfl, Finset.sum_congr rfl fun a ha => (hw a ha).2.symm⟩

/-- Two kinds of things. -/
theorem Counts.add [DecidableEq α] {R₁ R₂ : α → Nat → Prop} {c₁ t₁ c₂ t₂ : Nat}
    (h₁ : Counts R₁ c₁ t₁) (h₂ : Counts R₂ c₂ t₂) (hdisj : ∀ a n m, R₁ a n → ¬ R₂ a m)
    (heq : ∀ a n, R a n ↔ R₁ a n ∨ R₂ a n) : Counts R (c₁ + c₂) (t₁ + t₂) := by
  obtain ⟨S, w, hS, rfl, rfl⟩ := h₁
  obtain ⟨T, v, hT, rfl, rfl⟩ := h₂
  have hST : Disjoint S T := by
    rw [Finset.disjoint_left]
    intro a ha ha'
    exact hdisj a _ _ ((hS a _).mpr ⟨ha, rfl⟩) ((hT a _).mpr ⟨ha', rfl⟩)
  refine ⟨S ∪ T, fun a => if a ∈ S then w a else v a, ?_, Finset.card_union_of_disjoint hST, ?_⟩
  · intro a n
    rw [heq, hS, hT, Finset.mem_union]
    by_cases ha : a ∈ S
    · simp [ha, Finset.disjoint_left.mp hST ha]
    · simp [ha]
  · rw [Finset.sum_union hST]
    congr 1
    · exact Finset.sum_congr rfl fun a ha => if_pos ha
    · exact Finset.sum_congr rfl fun a ha => if_neg (Finset.disjoint_right.mp hST ha)

/-- Things of one weight, listed without repetition. -/
theorem Counts.of_list [DecidableEq α] {l : List α} (hl : l.Nodup) {n : Nat}
    (heq : ∀ a m, R a m ↔ a ∈ l ∧ m = n) : Counts R l.length (l.length * n) := by
  refine ⟨l.toFinset, fun _ => n, ?_, List.toFinset_card_of_nodup hl, ?_⟩
  · intro a m
    rw [heq, List.mem_toFinset, eq_comm (a := m)]
  · rw [Finset.sum_const_nat fun _ _ => rfl, List.toFinset_card_of_nodup hl]

/-- Things that weigh something are at most as many as they weigh. -/
theorem Counts.count_le (h : Counts R count total) (hpos : ∀ a n, R a n → 0 < n) :
    count ≤ total := by
  obtain ⟨S, w, hS, rfl, rfl⟩ := h
  rw [Finset.card_eq_sum_ones]
  exact Finset.sum_le_sum fun a ha => hpos a _ ((hS a _).mpr ⟨ha, rfl⟩)

/-- Disjoint ranges of a number line fit into it. -/
theorem Counts.total_le {R : Nat → Nat → Prop} (h : Counts R count total) {lo hi : Nat}
    (hrange : ∀ a n, R a n → lo ≤ a ∧ a + n ≤ hi)
    (hdisj : ∀ a n b m, R a n → R b m → a ≠ b → a + n ≤ b ∨ b + m ≤ a) : total ≤ hi - lo := by
  obtain ⟨S, w, hS, _, rfl⟩ := h
  have hR : ∀ a ∈ S, R a (w a) := fun a ha => (hS a _).mpr ⟨ha, rfl⟩
  have hsub : S.biUnion (fun a => Finset.Ico a (a + w a)) ⊆ Finset.Ico lo hi := by
    intro x hx
    obtain ⟨a, ha, hx⟩ := Finset.mem_biUnion.mp hx
    have hbound := hrange a _ (hR a ha)
    rw [Finset.mem_Ico] at hx ⊢
    omega
  have hcard := Finset.card_le_card hsub
  rw [Finset.card_biUnion] at hcard
  · simpa [Nat.card_Ico] using hcard
  · intro a ha b hb hab
    have hd := hdisj a _ b _ (hR a ha) (hR b hb) hab
    rw [Function.onFun, Finset.disjoint_left]
    intro x hx hx'
    rw [Finset.mem_Ico] at hx hx'
    omega

end Tally
