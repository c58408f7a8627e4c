import Mathlib.Logic.Function.Basic

/-!
Machines whose steps emit events, and refinement mappings between them: a
function of the concrete state such that every concrete step is matched by some
abstract steps that emit the same events, perhaps by none. What the concrete
machine can emit, the abstract one can.
-/

namespace Refinement

/-- A state machine; a step emits a list of events. -/
structure Machine (σ ε : Type*) where
  start : σ
  step : σ → List ε → σ → Prop

variable {σ τ ε : Type*}

/-- Some steps, and all they emit. -/
inductive Machine.Steps (M : Machine σ ε) : σ → List ε → σ → Prop where
  | refl (s : σ) : M.Steps s [] s
  | tail {s s' s'' : σ} {es es' : List ε} (h : M.Steps s es s') (hstep : M.step s' es' s'') :
      M.Steps s (es ++ es') s''

/-- The machine can emit `es` and come to `s`. -/
def Machine.Emits (M : Machine σ ε) (es : List ε) (s : σ) : Prop := M.Steps M.start es s

variable {M : Machine σ ε} {N : Machine τ ε}

theorem Machine.Steps.single {s s' : σ} {es : List ε} (h : M.step s es s') : M.Steps s es s' :=
  .tail (.refl s) h

theorem Machine.Steps.trans {s s' s'' : σ} {es es' : List ε} (h : M.Steps s es s')
    (h' : M.Steps s' es' s'') : M.Steps s (es ++ es') s'' := by
  induction h' with
  | refl => rwa [List.append_nil]
  | tail _ hstep ih =>
      rw [← List.append_assoc]
      exact ih.tail hstep

/-- Two steps, the first of which emits nothing. -/
theorem Machine.Steps.silent {s s' s'' : σ} {es : List ε} (h : M.step s [] s')
    (h' : M.Steps s' es s'') : M.Steps s es s'' :=
  (Machine.Steps.single h).trans h'

/-- Two steps, the second of which emits nothing. -/
theorem Machine.Steps.thenSilent {s s' s'' : σ} {es : List ε} (h : M.Steps s es s')
    (h' : M.step s' [] s'') : M.Steps s es s'' := by
  have hboth := h.tail h'
  rwa [List.append_nil] at hboth

/-- A refinement mapping carries runs over. -/
theorem Machine.Emits.map {f : σ → τ} (hstart : f M.start = N.start)
    (hstep : ∀ es s es' s', M.Emits es s → M.step s es' s' → N.Steps (f s) es' (f s'))
    {es : List ε} {s : σ} (h : M.Emits es s) : N.Emits es (f s) := by
  induction h with
  | refl =>
      unfold Machine.Emits
      rw [hstart]
      exact .refl _
  | tail hrun hlast ih => exact ih.trans (hstep _ _ _ _ hrun hlast)

end Refinement
