import Mathlib.Logic.Function.Basic

/-!
A register and the things it registers, with a gap between the two. Things come
into existence and are then entered; they are struck out and then cease to be.
In between a thing is in the hands of the agent that works on it. What is
entered is what exists and is in nobody's hands (`Agree`); each of the four
steps keeps this, whatever the other agents do in the meantime.
-/

namespace Handover

variable {ι α : Type}

/-- What is entered is what exists and is in nobody's hands. -/
def Agree (entered present : α → Prop) (hand : ι → Option α) : Prop :=
  ∀ b, entered b ↔ present b ∧ ∀ t, hand t ≠ some b

variable {entered entered' present present' : α → Prop} {hand hand' : ι → Option α} {t : ι} {b : α}

/-- Nothing that matters to the register changes. -/
theorem Agree.congr (h : Agree entered present hand) (hentered : ∀ a, entered' a ↔ entered a)
    (hpresent : ∀ a, present' a ↔ present a)
    (hhand : ∀ u a, present a → (hand' u = some a ↔ hand u = some a)) :
    Agree entered' present' hand' := by
  intro a
  rw [hentered, hpresent, h a]
  refine and_congr_right fun ha => forall_congr' fun u => ?_
  rw [Ne, Ne, hhand u a ha]

variable [DecidableEq ι]

/-- An agent takes up something that is not registered here. -/
theorem Agree.hold (h : Agree entered present hand) (hother : ∀ a, hand t = some a → ¬ present a)
    (next : Option α) (hnext : ∀ a, next = some a → ¬ present a) :
    Agree entered present (Function.update hand t next) := by
  refine h.congr (fun _ => Iff.rfl) (fun _ => Iff.rfl) (fun u a ha => ?_)
  by_cases hu : u = t
  · subst hu
    rw [Function.update_self]
    exact ⟨fun heq => absurd ha (hnext a heq), fun heq => absurd ha (hother a heq)⟩
  · rw [Function.update_of_ne hu]

/-- A new thing comes into existence, in the hands of the agent. -/
theorem Agree.create (h : Agree entered present hand) (hfree : hand t = none) (hnew : ¬ present b)
    (hpresent : ∀ a, present' a ↔ a = b ∨ present a) :
    Agree entered present' (Function.update hand t (some b)) := by
  intro a
  rw [hpresent, h a]
  constructor
  · rintro ⟨ha, hnone⟩
    refine ⟨Or.inr ha, fun u => ?_⟩
    by_cases hu : u = t
    · rw [hu, Function.update_self]
      rintro heq
      cases heq
      exact hnew ha
    · rw [Function.update_of_ne hu]
      exact hnone u
  · rintro ⟨hab, hnone⟩
    have hne : a ≠ b := by
      rintro rfl
      exact hnone t (Function.update_self t _ hand)
    refine ⟨hab.resolve_left hne, fun u hu => ?_⟩
    by_cases hut : u = t
    · rw [hut, hfree] at hu
      cases hu
    · exact hnone u (by rw [Function.update_of_ne hut]; exact hu)

/-- The agent enters what it has, which nobody else has. -/
theorem Agree.enter (h : Agree entered present hand) (hhand : hand t = some b) (hb : present b)
    (honly : ∀ u, hand u = some b → u = t) (hentered : ∀ a, entered' a ↔ a = b ∨ entered a) :
    Agree entered' present (Function.update hand t none) := by
  intro a
  rw [hentered, h a]
  constructor
  · rintro (rfl | ⟨ha, hnone⟩)
    · refine ⟨hb, fun u hu => ?_⟩
      by_cases hut : u = t
      · rw [hut, Function.update_self] at hu
        cases hu
      · rw [Function.update_of_ne hut] at hu
        exact hut (honly u hu)
    · refine ⟨ha, fun u hu => ?_⟩
      by_cases hut : u = t
      · rw [hut, Function.update_self] at hu
        cases hu
      · rw [Function.update_of_ne hut] at hu
        exact hnone u hu
  · rintro ⟨ha, hnone⟩
    by_cases hab : a = b
    · exact Or.inl hab
    · refine Or.inr ⟨ha, fun u hu => ?_⟩
      by_cases hut : u = t
      · rw [hut, hhand] at hu
        cases hu
        exact hab rfl
      · exact hnone u (by rw [Function.update_of_ne hut]; exact hu)

/-- An agent strikes something out and has it in its hands. -/
theorem Agree.strike (h : Agree entered present hand) (hfree : hand t = none)
    (hentered : ∀ a, entered' a ↔ entered a ∧ a ≠ b) :
    Agree entered' present (Function.update hand t (some b)) := by
  intro a
  rw [hentered, h a]
  constructor
  · rintro ⟨⟨ha, hnone⟩, hab⟩
    refine ⟨ha, fun u => ?_⟩
    by_cases hut : u = t
    · rw [hut, Function.update_self]
      exact fun heq => hab (Option.some.inj heq).symm
    · rw [Function.update_of_ne hut]
      exact hnone u
  · rintro ⟨ha, hnone⟩
    refine ⟨⟨ha, fun u hu => ?_⟩, ?_⟩
    · by_cases hut : u = t
      · rw [hut, hfree] at hu
        cases hu
      · exact hnone u (by rw [Function.update_of_ne hut]; exact hu)
    · rintro rfl
      exact hnone t (Function.update_self t _ hand)

/-- What an agent has in its hands ceases to be. -/
theorem Agree.destroy (h : Agree entered present hand) (hhand : hand t = some b)
    (hpresent : ∀ a, present' a ↔ present a ∧ a ≠ b) :
    Agree entered present' (Function.update hand t none) := by
  intro a
  rw [hpresent, h a]
  constructor
  · rintro ⟨ha, hnone⟩
    refine ⟨⟨ha, ?_⟩, fun u hu => ?_⟩
    · rintro rfl
      exact hnone t hhand
    · by_cases hut : u = t
      · rw [hut, Function.update_self] at hu
        cases hu
      · exact hnone u (by rwa [Function.update_of_ne hut] at hu)
  · rintro ⟨⟨ha, hab⟩, hnone⟩
    refine ⟨ha, fun u hu => ?_⟩
    by_cases hut : u = t
    · rw [hut, hhand] at hu
      cases hu
      exact hab rfl
    · exact hnone u (by rw [Function.update_of_ne hut]; exact hu)

end Handover
