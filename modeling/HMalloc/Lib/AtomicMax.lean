import Mathlib.Logic.Function.Basic
import Mathlib.Order.Bounds.Basic

/-!
A maximum kept by compare-and-swap. Every thread that has a value to offer reads
the maximum, leaves if it is not smaller than its value, and otherwise tries to
replace what it has read; when that fails, it has read the maximum again. A
thread may be late with an old value, and it may fail for no reason, but no offer
is lost: once all threads are out, the maximum is the greatest value offered.
-/

namespace AtomicMax

variable {ι α : Type*}

/-- Where a thread is: outside, before its first read, or in the loop with what
it has read last. -/
inductive Phase (α : Type*) where
  | out
  | load (now : α)
  | loop (now prev : α)

/-- The value that a thread has to offer. -/
def Phase.carries : Phase α → Option α
  | .out => none
  | .load now | .loop now _ => some now

variable [LinearOrder α]

/-- No offer is lost: each is below the maximum or in the hands of a thread. -/
structure Covers (offered : Set α) (peak : α) (phase : ι → Phase α) : Prop where
  taken : peak ∈ offered
  carried : ∀ i now, (phase i).carries = some now → now ∈ offered
  read : ∀ i now prev, phase i = .loop now prev → prev ≤ peak
  covered : ∀ v ∈ offered, v ≤ peak ∨ ∃ i now, (phase i).carries = some now ∧ v ≤ now

variable {offered : Set α} {peak : α} {phase : ι → Phase α}

theorem Covers.init (v : α) : Covers {v} v (fun _ : ι => .out) where
  taken := rfl
  carried := fun _ _ h => by cases h
  read := fun _ _ _ h => by cases h
  covered := fun w hw => Or.inl (le_of_eq hw)

/-- All offers are covered once all threads are out. -/
theorem Covers.greatest (h : Covers offered peak phase) (hout : ∀ i, (phase i).carries = none) :
    IsGreatest offered peak := by
  refine ⟨h.taken, fun v hv => ?_⟩
  rcases h.covered v hv with hle | ⟨i, now, hi, _⟩
  · exact hle
  · rw [hout i] at hi
    cases hi

variable [DecidableEq ι] {i : ι} {now prev : α}

/-- A thread goes on to another phase. What it carries afterwards has been
offered, what it has read is not above the maximum, and the value it carried is
still covered. -/
theorem Covers.move (h : Covers offered peak phase) {offered' : Set α} {peak' : α} {next : Phase α}
    (htaken : peak' ∈ offered') (hmono : offered ⊆ offered') (hraise : peak ≤ peak')
    (hcarried : ∀ v, next.carries = some v → v ∈ offered')
    (hread : ∀ v w, next = .loop v w → w ≤ peak')
    (hnew : ∀ v ∈ offered', v ∉ offered → v ≤ peak' ∨ ∃ w, next.carries = some w ∧ v ≤ w)
    (hold : ∀ v, (phase i).carries = some v → v ≤ peak' ∨ ∃ w, next.carries = some w ∧ v ≤ w) :
    Covers offered' peak' (Function.update phase i next) where
  taken := htaken
  carried := (Function.forall_update_iff phase
    (p := fun _ ph => ∀ v, ph.carries = some v → v ∈ offered')).mpr
      ⟨hcarried, fun j _ v hj => hmono (h.carried j v hj)⟩
  read := (Function.forall_update_iff phase
    (p := fun _ ph => ∀ v w, ph = .loop v w → w ≤ peak')).mpr
    ⟨hread, fun j _ v w hj => (h.read j v w hj).trans hraise⟩
  covered := by
    have hself : ∀ v, (v ≤ peak' ∨ ∃ w, next.carries = some w ∧ v ≤ w) →
        v ≤ peak' ∨ ∃ j w, (Function.update phase i next j).carries = some w ∧ v ≤ w := by
      rintro v (hle | ⟨w, hw, hle⟩)
      · exact Or.inl hle
      · exact Or.inr ⟨i, w, by rwa [Function.update_self], hle⟩
    intro v hv
    by_cases hin : v ∈ offered
    · rcases h.covered v hin with hle | ⟨j, w, hj, hle⟩
      · exact Or.inl (hle.trans hraise)
      · by_cases hji : j = i
        · rw [hji] at hj
          refine hself v ((hold w hj).imp hle.trans ?_)
          rintro ⟨x, hx, hwx⟩
          exact ⟨x, hx, hle.trans hwx⟩
        · exact Or.inr ⟨j, w, by rwa [Function.update_of_ne hji], hle⟩
    · exact hself v (hnew v hv hin)

/-- A thread comes with a value. -/
theorem Covers.offer (h : Covers offered peak phase) (hi : phase i = .out) (v : α) :
    Covers (insert v offered) peak (Function.update phase i (.load v)) := by
  refine h.move (Set.mem_insert_of_mem v h.taken) (Set.subset_insert v offered) (le_refl peak)
    ?_ (fun _ _ heq => by cases heq) ?_ ?_
  · rintro w hw
    cases hw
    exact Set.mem_insert v offered
  · rintro w hw hout
    rcases hw with rfl | hw
    · exact Or.inr ⟨w, rfl, le_refl w⟩
    · exact absurd hw hout
  · intro w hw
    rw [hi] at hw
    cases hw

/-- A thread reads the maximum, for the first time or when its exchange fails. -/
theorem Covers.load (h : Covers offered peak phase) (hi : (phase i).carries = some now) :
    Covers offered peak (Function.update phase i (.loop now peak)) := by
  refine h.move h.taken (fun _ hv => hv) (le_refl peak) ?_ ?_ (fun v hv hout => absurd hv hout) ?_
  · rintro v hv
    cases hv
    exact h.carried i now hi
  · rintro v w hvw
    cases hvw
    exact le_refl peak
  · intro v hv
    rw [hi] at hv
    cases hv
    exact Or.inr ⟨now, rfl, le_refl now⟩

/-- A thread ends its loop and leaves a maximum that is not below its value. -/
theorem Covers.settle (h : Covers offered peak phase) (hi : (phase i).carries = some now)
    {peak' : α} (htaken : peak' ∈ offered) (hraise : peak ≤ peak') (hnow : now ≤ peak') :
    Covers offered peak' (Function.update phase i .out) := by
  refine h.move htaken (fun _ hv => hv) hraise (fun _ hv => by cases hv) (fun _ _ hv => by cases hv)
    (fun v hv hout => absurd hv hout) ?_
  intro v hv
  rw [hi] at hv
  cases hv
  exact Or.inl hnow

/-- The exchange of a thread succeeds. -/
theorem Covers.swap (h : Covers offered peak phase) (hi : phase i = .loop now prev)
    (hlt : peak < now) : Covers offered now (Function.update phase i .out) := by
  have hcarries : (phase i).carries = some now := by
    rw [hi]
    rfl
  exact h.settle hcarries (h.carried i now hcarries) (le_of_lt hlt) (le_refl now)

/-- A thread leaves: what it has read is not below its value, and the maximum has
not fallen since. -/
theorem Covers.leave (h : Covers offered peak phase) (hi : phase i = .loop now prev)
    (hle : now ≤ prev) : Covers offered peak (Function.update phase i .out) := by
  have hcarries : (phase i).carries = some now := by
    rw [hi]
    rfl
  exact h.settle hcarries h.taken (le_refl peak) (hle.trans (h.read i now prev hi))

end AtomicMax
