import Mathlib.Tactic

/-!
The cost of a whole run of operations from what each one costs. An operation may fail
(`none`), and the run then has no result. With a potential, an operation that is
dear is paid for by the cheap ones before it (`foldlM_cost`); and a quantity that
only grows up to what another one allows is bounded by the high-water mark of that
other one (`foldlM_highWater`).
-/

namespace Potential

variable {σ α : Type*} {step : σ → α → Option σ} (Inv : σ → Prop) (Ok : α → Prop)

/-- What is kept by every operation is kept by a run. -/
theorem foldlM_inv (hstep : ∀ s a s', Ok a → Inv s → step s a = some s' → Inv s')
    {ops : List α} {s s' : σ} (hops : ∀ a ∈ ops, Ok a) (hs : Inv s)
    (hrun : ops.foldlM step s = some s') : Inv s' := by
  induction ops generalizing s with
  | nil =>
      cases hrun
      exact hs
  | cons a ops ih =>
      rw [List.foldlM_cons, Option.bind_eq_bind, Option.bind_eq_some_iff] at hrun
      obtain ⟨s₁, hfirst, hrest⟩ := hrun
      exact ih (fun b hb => hops b (List.mem_cons_of_mem a hb))
        (hstep s a s₁ (hops a List.mem_cons_self) hs hfirst) hrest

/-- The potential method: `spent` is what has been paid so far. -/
theorem foldlM_cost (spent potential : σ → Nat) {budget : α → Nat}
    (hinv : ∀ s a s', Ok a → Inv s → step s a = some s' → Inv s')
    (hcost : ∀ s a s', Ok a → Inv s → step s a = some s' →
      spent s' + potential s' ≤ spent s + potential s + budget a)
    {ops : List α} {s s' : σ} (hops : ∀ a ∈ ops, Ok a) (hs : Inv s)
    (hrun : ops.foldlM step s = some s') :
    spent s' + potential s' ≤ spent s + potential s + (ops.map budget).sum := by
  induction ops generalizing s with
  | nil =>
      cases hrun
      simp
  | cons a ops ih =>
      rw [List.foldlM_cons, Option.bind_eq_bind, Option.bind_eq_some_iff] at hrun
      obtain ⟨s₁, hfirst, hrest⟩ := hrun
      have ha := hops a List.mem_cons_self
      have hpaid := hcost s a s₁ ha hs hfirst
      have hlater := ih (fun b hb => hops b (List.mem_cons_of_mem a hb))
        (hinv s a s₁ ha hs hfirst) hrest
      rw [List.map_cons, List.sum_cons]
      omega

/-- What grows only up to `allows` is below its high-water mark. -/
theorem foldlM_highWater (grows allows : σ → Nat)
    (hinv : ∀ s a s', Ok a → Inv s → step s a = some s' → Inv s')
    (hgrow : ∀ s a s', Ok a → Inv s → step s a = some s' → grows s' ≤ max (grows s) (allows s))
    {ops : List α} {s s' : σ} (hops : ∀ a ∈ ops, Ok a) (hs : Inv s) (hstart : grows s ≤ allows s)
    (hrun : ops.foldlM step s = some s') :
    ∃ earlier later s₁, ops = earlier ++ later ∧ earlier.foldlM step s = some s₁ ∧
      grows s' ≤ allows s₁ := by
  induction ops using List.reverseRecOn generalizing s' with
  | nil =>
      cases hrun
      exact ⟨[], [], s, rfl, rfl, hstart⟩
  | append_singleton ops a ih =>
      rw [List.foldlM_append, Option.bind_eq_bind, Option.bind_eq_some_iff] at hrun
      obtain ⟨s₁, hbefore, hlast⟩ := hrun
      have hlast : step s₁ a = some s' := by simpa using hlast
      have hbeforeOk : ∀ b ∈ ops, Ok b := fun b hb => hops b (List.mem_append_left _ hb)
      obtain ⟨earlier, later, s₂, rfl, hearlier, hbound⟩ := ih hbeforeOk hbefore
      have hgrown := hgrow s₁ a s' (hops a (by simp))
        (foldlM_inv Inv Ok hinv hbeforeOk hs hbefore) hlast
      rcases le_max_iff.mp hgrown with hold | hnew
      · exact ⟨earlier, later ++ [a], s₂, by simp, hearlier, hold.trans hbound⟩
      · exact ⟨earlier ++ later, [a], s₁, rfl, hbefore, hnew⟩

end Potential
