import HMalloc.Safety
import HMalloc.Schedule

/-!
One call of a thread, from its start to its return. The other threads, the
clients and the other allocators go on in between; they leave alone the
pointers the thread works on and the lists of its heap (`Bystander`), so that
what holds during a call follows from what the steps of the thread itself do
(`During.induct`).
-/

namespace HMalloc

open Bytes Linked

/-- The states while thread `t` is in a call that it started in `sys₀`, and the
one in which the call has returned. -/
inductive During (ps : PageSize) (t : Nat) (call : Call) (sys₀ : System) : System → Prop where
  | start {sys : System} (hstep : Step ps sys₀ (.call t call) sys) : During ps t call sys₀ sys
  | step {sys sys' : System} {l : Label} (h : During ps t call sys₀ sys)
      (hbusy : (sys.threads t).pc ≠ .idle) (hstep : Step ps sys l sys') :
      During ps t call sys₀ sys'

/-- A run of such a call, to its state `sys`, with the states it has passed, the
last one first. -/
inductive CallRun (ps : PageSize) (t : Nat) (call : Call) (sys₀ : System) :
    System → List System → Prop where
  | start {sys : System} (hstep : Step ps sys₀ (.call t call) sys) :
      CallRun ps t call sys₀ sys []
  | step {sys sys' : System} {passed : List System} {l : Label}
      (h : CallRun ps t call sys₀ sys passed) (hbusy : (sys.threads t).pc ≠ .idle)
      (hstep : Step ps sys l sys') : CallRun ps t call sys₀ sys' (sys :: passed)

/-- The call has returned `result`. -/
structure Returns (ps : PageSize) (t : Nat) (call : Call) (sys₀ sys : System) (result : Nat) :
    Prop where
  during : During ps t call sys₀ sys
  idle : (sys.threads t).pc = .idle
  result : (sys.threads t).result = result

/-- The steps of the thread itself in a call: its first part, and the others. -/
inductive OfCall (ps : PageSize) (t : Nat) (call : Call) (sys₀ : System) :
    System → System → Prop where
  | start {sys : System} (hstep : Step ps sys₀ (.call t call) sys) : OfCall ps t call sys₀ sys₀ sys
  | step {sys sys' : System} {o : Oracle} (h : During ps t call sys₀ sys)
      (hstep : Step ps sys (.step t o) sys') : OfCall ps t call sys₀ sys sys'

section Runs

variable {ps : PageSize} {t : Nat} {call : Call} {sys₀ sys sys' : System} {G G' : Ghost}

theorem CallRun.during {passed : List System} (h : CallRun ps t call sys₀ sys passed) :
    During ps t call sys₀ sys := by
  induction h with
  | start hstep => exact .start hstep
  | step _ hbusy hstep ih => exact ih.step hbusy hstep

theorem During.run (h : During ps t call sys₀ sys) :
    ∃ passed, CallRun ps t call sys₀ sys passed := by
  induction h with
  | start hstep => exact ⟨[], .start hstep⟩
  | step _ hbusy hstep ih =>
      obtain ⟨passed, hrun⟩ := ih
      exact ⟨_, hrun.step hbusy hstep⟩

theorem During.reachable (h : During ps t call sys₀ sys) (hr : Reachable ps sys₀) :
    Reachable ps sys := by
  induction h with
  | start hstep => exact hr.step hstep
  | step _ _ hstep ih => exact ih.step hstep

theorem During.allowed (h : During ps t call sys₀ sys) :
    Allowed ps sys₀ (.call t call) := by
  induction h with
  | start hstep => exact hstep.1
  | step _ _ _ ih => exact ih

/-- What a step leaves alone that thread `t` has no part in. -/
structure Bystander (ps : PageSize) (t : Nat) (sys : System) (G : Ghost) (sys' : System)
    (G' : Ghost) : Prop where
  inv : SysInv ps sys' G'
  pc : (sys'.threads t).pc = (sys.threads t).pc
  heap : (sys'.threads t).heap = (sys.threads t).heap
  result : (sys'.threads t).result = (sys.threads t).result
  held : ∀ p g, g.holder.thread = some t →
    (sys'.store.grants p = some g ↔ sys.store.grants p = some g)
  bytes : ∀ p g, sys.store.grants p = some g → g.holder.thread = some t →
    ∀ x, p ≤ x → x < p + g.usable → sys'.store.os.mem x = sys.store.os.mem x
  lists : ∀ a, (sys.threads t).home = some a → SameLists sys.store G sys'.store G' a
  lock : sys.store.central.mtx = some t → G'.abandoned = G.abandoned

/-- A step of another thread. -/
theorem SysInv.bystander_thread (h : SysInv ps sys G) {u : Nat} {s' : Store} {th' : Thread}
    (hu : u ≠ t) (hout : Outcome ps u sys.store G s' G' th') :
    Bystander ps t sys G (sys.setThread u s' th') G' := by
  have hsame : (sys.setThread u s' th').threads t = sys.threads t :=
    Function.update_of_ne (fun heq => hu heq.symm) ..
  have hut : t ≠ u := fun heq => hu heq.symm
  refine ⟨h.setThread hout, by rw [hsame], by rw [hsame], by rw [hsame],
    fun p g hg => hout.frame.holders t hut p g hg, ?_, ?_,
    fun hm => (hout.frame.lock t hut hm).2.1⟩
  · intro p g hg hh
    refine hout.frame.bytes p g hg ?_ ?_
    · intro heq
      rw [heq] at hh
      exact hu (Option.some.inj hh)
    · intro heq
      rw [heq] at hh
      exact hu (Option.some.inj hh)
  · intro a ha
    exact hout.frame.lists t hut a _ (((h.threads t).home a _).mpr ⟨rfl, ha⟩)

/-- A step that is not the thread's. -/
theorem SysInv.bystander (h : SysInv ps sys G) {l : Label} (hstep : Step ps sys l sys')
    (hl : l.thread ≠ some t) : ∃ G', Bystander ps t sys G sys' G' := by
  obtain ⟨G', hchange⟩ := h.change hstep
  refine ⟨G', ?_⟩
  cases hchange with
  | @thread u o s' th' _ _ _ hout =>
      exact h.bystander_thread (fun heq => hl (by rw [heq]; rfl)) hout
  | @client _ u s' th' hlu _ _ _ _ _ hout =>
      exact h.bystander_thread (fun heq => hl (hlu.trans (by rw [heq]))) hout
  | world hw hinv =>
      refine ⟨h.setOs hw hinv, rfl, rfl, rfl, fun _ _ _ => Iff.rfl, ?_,
        fun a _ => .of_pages rfl rfl rfl rfl, fun _ => rfl⟩
      intro p g hg hh
      refine hw.bytes p g hg ?_
      intro heq
      rw [heq] at hh
      cases hh

/-- A step of the thread itself, inside its call. -/
structure OwnStep (ps : PageSize) (t : Nat) (sys : System) (G : Ghost) (o : Oracle) (s' : Store)
    (th' : Thread) (G' : Ghost) : Prop where
  ok : StepOk ps o sys.store (sys.threads t)
  run : stepThread ps o sys.store t (sys.threads t) = some (s', th')
  outcome : Outcome ps t sys.store G s' G' th'

theorem OwnStep.busy {o : Oracle} {s' : Store} {th' : Thread} (h : OwnStep ps t sys G o s' th' G') :
    (sys.threads t).pc ≠ .idle :=
  StepOk.busy h.ok

/-- The label of a thread's step. -/
theorem SysInv.own_step {o : Oracle} (h : SysInv ps sys G) (hstep : Step ps sys (.step t o) sys') :
    ∃ s' th' G', OwnStep ps t sys G o s' th' G' ∧ sys' = sys.setThread t s' th' := by
  obtain ⟨hok, hrun⟩ := hstep
  obtain ⟨s', th', hthread, rfl⟩ := exec_step hrun
  obtain ⟨G', hout⟩ := stepThread_outcome h.data (h.threads t) hok hthread
  exact ⟨s', th', G', ⟨hok, hthread, hout⟩, rfl⟩

/-- What can happen while a thread is inside a call. -/
theorem SysInv.busy (h : SysInv ps sys G) (hbusy : (sys.threads t).pc ≠ .idle) {l : Label}
    (hstep : Step ps sys l sys') :
    (∃ o s' th' G', l = .step t o ∧ OwnStep ps t sys G o s' th' G' ∧
      sys' = sys.setThread t s' th') ∨
      ∃ G', Bystander ps t sys G sys' G' := by
  by_cases hl : l.thread = some t
  · cases l with
    | spawn u =>
        obtain ⟨_, hrun⟩ := hstep
        obtain rfl : u = t := Option.some.inj hl
        have hchange : Change ps sys G (.spawn u) (sys.setThread u sys.store
            { sys.threads u with status := .running }) G := h.status rfl rfl rfl
        have hinv := (hchange.inv h).1
        cases hrun
        refine Or.inr ⟨G, hinv, ?_, ?_, ?_, fun _ _ _ => Iff.rfl, fun _ _ _ _ _ _ _ => rfl,
          fun a _ => .of_pages rfl rfl rfl rfl, fun _ => rfl⟩ <;> simp [System.setThread]
    | call u c =>
        obtain rfl : u = t := Option.some.inj hl
        exact absurd hstep.1.2.1 hbusy
    | step u o =>
        obtain rfl : u = t := Option.some.inj hl
        obtain ⟨s', th', G', hown, hsys⟩ := h.own_step hstep
        exact Or.inl ⟨o, s', th', G', rfl, hown, hsys⟩
    | guardExit u =>
        obtain rfl : u = t := Option.some.inj hl
        exact absurd hstep.1.2.1 hbusy
    | finish u =>
        obtain rfl : u = t := Option.some.inj hl
        exact absurd hstep.1.2.1 hbusy
    | write | foreignMap | foreignUnmap | foreignWrite => cases hl
  · exact Or.inr (h.bystander hstep hl)

/-- What holds along every run of a call: it holds after its first part, and the
steps of the thread and of the others keep it. -/
theorem CallRun.induct {R : System → List System → Prop} {passed : List System}
    (h : CallRun ps t call sys₀ sys passed) (hr : Reachable ps sys₀)
    (hstart : ∀ sys, Step ps sys₀ (.call t call) sys → R sys [])
    (hown : ∀ sys passed G o s' th' G', During ps t call sys₀ sys →
      During ps t call sys₀ (sys.setThread t s' th') → SysInv ps sys G → R sys passed →
      OwnStep ps t sys G o s' th' G' → R (sys.setThread t s' th') (sys :: passed))
    (hother : ∀ sys passed G sys' G', During ps t call sys₀ sys → SysInv ps sys G →
      (sys.threads t).pc ≠ .idle → R sys passed → Bystander ps t sys G sys' G' →
      R sys' (sys :: passed)) : R sys passed := by
  induction h with
  | start hstep => exact hstart _ hstep
  | step h hbusy hstep ih =>
      obtain ⟨G, hinv⟩ := (h.during.reachable hr).inv
      rcases hinv.busy hbusy hstep with ⟨o, s', th', G', _, hown', rfl⟩ | ⟨G', hby⟩
      · exact hown _ _ G o s' th' G' h.during (h.during.step hbusy hstep) hinv ih hown'
      · exact hother _ _ G _ G' h.during hinv hbusy ih hby

/-- What holds in every state of a call. -/
theorem During.induct {R : System → Prop} (h : During ps t call sys₀ sys)
    (hr : Reachable ps sys₀) (hstart : ∀ sys, Step ps sys₀ (.call t call) sys → R sys)
    (hown : ∀ sys G o s' th' G', During ps t call sys₀ sys →
      During ps t call sys₀ (sys.setThread t s' th') → SysInv ps sys G → R sys →
      OwnStep ps t sys G o s' th' G' → R (sys.setThread t s' th'))
    (hother : ∀ sys G sys' G', During ps t call sys₀ sys → SysInv ps sys G →
      (sys.threads t).pc ≠ .idle → R sys → Bystander ps t sys G sys' G' → R sys') : R sys := by
  obtain ⟨passed, hrun⟩ := h.run
  exact hrun.induct (R := fun sys _ => R sys) hr hstart
    (fun sys _ => hown sys) (fun sys _ => hother sys)

/-- The run of a call that can be computed: some actions, the call, and what is
done until it has returned. -/
def callSchedule (ps : PageSize) (t : Nat) (call : Call) (before acts : List Act)
    (check : System → System → Bool) : Bool :=
  (schedule ps (fun _ _ => true) (fun _ _ _ _ => ()) before (World.init ())).any fun w₀ =>
    (schedule ps (fun _ _ => true) (fun _ _ _ _ => ()) [.call t call] w₀).any fun w₁ =>
      (schedule ps (fun w _ => (w.sys.threads t).pc != .idle) (fun _ _ _ _ => ()) acts w₁).any
        fun w => check w₀.sys w.sys

/-- What holds after the call and is kept by the actions holds at the end of such
a run. -/
theorem callSchedule_run {R : System → System → Prop} {before acts : List Act}
    {check : System → System → Bool}
    (hstart : ∀ sys₀ sys, Step ps sys₀ (.call t call) sys → R sys₀ sys)
    (hkeep : ∀ sys₀ (w : World Unit), ∀ a ∈ acts, ∀ sys, R sys₀ w.sys →
      (w.sys.threads t).pc ≠ .idle → Step ps w.sys (a.label w) sys → R sys₀ sys)
    (h : callSchedule ps t call before acts check = true) :
    ∃ sys₀ sys, Reachable ps sys₀ ∧ R sys₀ sys ∧ check sys₀ sys = true := by
  unfold callSchedule at h
  simp only [Option.any_eq_true] at h
  obtain ⟨w₀, hbefore, w₁, hcall, w, hacts, hcheck⟩ := h
  obtain ⟨hb₀, hr⟩ := schedule_induct (R := fun w => Reachable ps w.sys)
    (fun _ _ _ _ hr _ hstep => hr.step hstep) (fun x hx => by cases hx) .init hbefore
  have hfirst : w₁.sys.store.os.Below w₁.top ∧ R w₀.sys w₁.sys := by
    unfold schedule at hcall
    split at hcall
    · rename_i hready
      rw [Bool.and_eq_true] at hready
      rw [Option.bind_eq_some_iff] at hcall
      obtain ⟨sys, hexec, hcall⟩ := hcall
      obtain ⟨hstep, hb⟩ := Act.step_of_ready hb₀ hready.1 hexec
      cases hcall
      exact ⟨hb, hstart _ _ hstep⟩
    · cases hcall
  obtain ⟨_, hlast⟩ := schedule_induct (R := fun w => R w₀.sys w.sys)
    (fun w a ha sys hR hbusy hstep => hkeep w₀.sys w a ha sys hR (by simpa using hbusy) hstep)
    hfirst.1 hfirst.2 hacts
  exact ⟨w₀.sys, w.sys, hr, hlast, hcheck⟩

theorem callSchedule_during {before acts : List Act} {check : System → System → Bool}
    (h : callSchedule ps t call before acts check = true) :
    ∃ sys₀ sys, Reachable ps sys₀ ∧ During ps t call sys₀ sys ∧ check sys₀ sys = true :=
  callSchedule_run (fun _ _ hstep => .start hstep)
    (fun _ _ _ _ _ hd hbusy hstep => hd.step hbusy hstep) h

end Runs

end HMalloc
