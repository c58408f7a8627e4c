import HMalloc.Foreign
import HMalloc.OutOfMemory

/-!
A process that runs on the override (`override.cpp`). Its threads call the functions
of C and C++ that the override defines, with pointers of this allocator and of the
real one; a function answers at once, calls the real allocator, or makes one call of
this one and turns what that call returns into its own answer. Every run of such a
process is a run of the allocator with valid calls, and the answers keep the
contracts of the standard functions.
-/

namespace HMalloc

open Bytes

/-- The functions that the override defines. -/
inductive EntryPoint where
  | malloc (size : Nat)
  | free (p : Nat)
  | calloc (nmemb size : Nat)
  | realloc (p size : Nat)
  | alignedAlloc (alignment size : Nat)
  | memalign (alignment size : Nat)
  | valloc (size : Nat)
  | posixMemalign (out alignment size : Nat)
  | mallocUsableSize (p : Nat)
  /-- `operator new` and `operator new[]`. -/
  | new (size : Nat)
  /-- The two with `std::nothrow`. -/
  | newNothrow (size : Nat)
  /-- The two with `std::align_val_t`. -/
  | newAligned (size alignment : Nat)
  /-- All forms of `operator delete`. -/
  | delete (p : Nat)
  deriving DecidableEq

inductive Errno where
  | einval
  | enomem
  deriving DecidableEq

/-- How a function of the override ends. -/
inductive Answer where
  | nothing
  | pointer (p : Nat)
  | size (n : Nat)
  /-- `posix_memalign` has written `p` to `out` and returns 0. -/
  | stored (out p : Nat)
  | error (e : Errno)
  /-- `std::bad_alloc` is thrown. -/
  | badAlloc
  deriving DecidableEq

/-- What a function of the override does first. -/
inductive Dispatch where
  | answer (a : Answer)
  | hm (call : Call)
  | real (served : Served)
  deriving DecidableEq

/-- What comes of a pointer that was looked up: without a real allocator the answer
is `absent`. -/
def Served.dispatch (s : Store) (absent : Answer) : Served → Dispatch
  | .nothing => .answer absent
  | .hmMalloc size => .hm (.malloc size)
  | .hmFree p => .hm (.free p)
  | .hmRealloc p size => .hm (.realloc p size)
  | .hmUsableSize p => .answer (.size (usableSize s p))
  | served => .real served

/-- `size != 0 ? size : 1`. -/
def atLeastOne (size : Nat) : Nat := if size ≠ 0 then size else 1

/-- `do_posix_memalign` up to its allocation. -/
def doPosixMemalign (out alignment size : Nat) : Dispatch :=
  if out = 0 then .answer (.error .einval)
  else if alignment < 8 ∨ (alignment &&& (alignment - 1)) ≠ 0 then .answer (.error .einval)
  else .hm (.alignedAlloc alignment (atLeastOne size))

/-- The first part of a function, up to the call of an allocator. A result `none` is
a probe loop of the registry that does not end. -/
def EntryPoint.start (ps : PageSize) (real : Bool) (s : Store) : EntryPoint → Option Dispatch
  | .malloc size => some (.hm (.malloc size))
  | .free p | .delete p => (checkedFree real s.registry p).map (Served.dispatch s .nothing)
  | .calloc nmemb size => some (.hm (.calloc nmemb size))
  | .realloc p size =>
      (checkedRealloc real s.registry p size).map (Served.dispatch s (.pointer 0))
  | .alignedAlloc alignment size | .memalign alignment size =>
      some (.hm (.alignedAlloc alignment size))
  | .valloc size => some (.hm (.alignedAlloc ps.bytes size))
  | .posixMemalign out alignment size => some (doPosixMemalign out alignment size)
  | .mallocUsableSize p => (checkedUsable real s.registry p).map (Served.dispatch s (.size 0))
  | .new size | .newNothrow size => some (.hm (.malloc (atLeastOne size)))
  | .newAligned size alignment => some (.hm (.alignedAlloc alignment (atLeastOne size)))

/-- What a function makes of the pointer that its call of this allocator returns. -/
def EntryPoint.finish (p : Nat) : EntryPoint → Answer
  | .free _ | .delete _ => .nothing
  | .posixMemalign out _ _ => if p = 0 then .error .enomem else .stored out p
  | .new _ | .newAligned _ _ => if p = 0 then .badAlloc else .pointer p
  | _ => .pointer p

/-- The allocator, and the function of the override in whose call each thread is. -/
structure Process where
  sys : System
  inside : Nat → Option EntryPoint

def Process.init : Process where
  sys := System.init
  inside := fun _ => none

/-- A thread that is back from its call answers. -/
def Process.settle (pr : Process) (t : Nat) : Process × Option Answer :=
  match pr.inside t, (pr.sys.threads t).pc with
  | some e, .idle =>
      ({ pr with inside := Function.update pr.inside t none },
        some (e.finish (pr.sys.threads t).result))
  | _, _ => (pr, none)

inductive ProcessLabel where
  /-- A thread calls a function of the override. -/
  | enter (t : Nat) (e : EntryPoint)
  /-- A thread goes on in its call. -/
  | step (t : Nat) (o : Oracle)
  /-- Anything else that happens to the allocator. -/
  | other (l : Label)

/-- One label, with the answer it ends in. What the real allocator does with its
memory is in the labels of others. -/
def Process.exec (ps : PageSize) (real : Bool) (pr : Process) :
    ProcessLabel → Option (Process × Option Answer)
  | .enter t e => do
      match ← e.start ps real pr.sys.store with
      | .answer a => return (pr, some a)
      | .real _ => return (pr, none)
      | .hm call =>
          let sys ← HMalloc.exec ps pr.sys (.call t call)
          return Process.settle ⟨sys, Function.update pr.inside t (some e)⟩ t
  | .step t o => do
      let sys ← HMalloc.exec ps pr.sys (.step t o)
      return Process.settle ⟨sys, pr.inside⟩ t
  | .other l => do
      let sys ← HMalloc.exec ps pr.sys l
      return (⟨sys, pr.inside⟩, none)

/-- The pointer is into memory of the real allocator, and not in the window of a
large region shorter than a segment, where the override would take it for its own. -/
def Store.Foreign (s : Store) (p : Nat) : Prop :=
  (∃ b size, s.os.regions b = some ⟨size, .foreign⟩ ∧ b ≤ p ∧ p < b + size) ∧
    ¬ InShortWindow s.os.regions p

/-- A pointer that the process may pass on: null, one it has of this allocator, or
one of the real allocator that is in no short window. -/
def Store.Passable (s : Store) (p : Nat) : Prop :=
  p = 0 ∨ (∃ g, s.grants p = some g ∧ g.holder = .client) ∨ s.Foreign p

/-- The arguments are words, and the pointers passable. -/
def EntryOk (s : Store) : EntryPoint → Prop
  | .malloc size | .valloc size | .new size | .newNothrow size => size < 2 ^ 64
  | .calloc nmemb size => nmemb < 2 ^ 64 ∧ size < 2 ^ 64
  | .alignedAlloc alignment size | .memalign alignment size | .posixMemalign _ alignment size
  | .newAligned size alignment => alignment < 2 ^ 64 ∧ size < 2 ^ 64
  | .realloc p size => size < 2 ^ 64 ∧ s.Passable p
  | .free p | .delete p | .mallocUsableSize p => s.Passable p

/-- What is assumed when a label is run. Nothing is said of the calls that the
override makes; but pointers of the real allocator in the windows of short large
regions are left out, and a registration must find a table or be given its first
one, without which the regions of this allocator are not known to it. -/
def Process.Allowed (ps : PageSize) (pr : Process) : ProcessLabel → Prop
  | .enter t e =>
      (pr.sys.threads t).status = .running ∧ (pr.sys.threads t).pc = .idle ∧
        EntryOk pr.sys.store e
  | .step t o => HMalloc.Allowed ps pr.sys (.step t o) ∧ TableFound ps pr.sys (.step t o)
  | .other l =>
      HMalloc.Allowed ps pr.sys l ∧ (∀ t call, l ≠ .call t call) ∧ ∀ t o, l ≠ .step t o

def ProcessStep (ps : PageSize) (real : Bool) (pr : Process) (l : ProcessLabel) (pr' : Process)
    (a : Option Answer) : Prop :=
  pr.Allowed ps l ∧ pr.exec ps real l = some (pr', a)

/-- The states a process can reach. -/
inductive ProcessReachable (ps : PageSize) (real : Bool) : Process → Prop where
  | init : ProcessReachable ps real Process.init
  | step {pr pr' : Process} {l : ProcessLabel} {a : Option Answer}
      (h : ProcessReachable ps real pr) (hstep : ProcessStep ps real pr l pr' a) :
      ProcessReachable ps real pr'

section Lookup

variable {ps : PageSize} {real : Bool} {sys : System} {p : Nat}

/-- Memory of the real allocator is outside the segments and large regions. -/
theorem Store.Foreign.outside {s : Store} (h : s.Foreign p)
    (hr : RegionsOk s.os.mapped s.os.regions) :
    p ≠ 0 ∧ p < 2 ^ 64 ∧ Outside s.os.regions p := by
  obtain ⟨⟨b, size, hb, hlo, hhi⟩, _⟩ := h
  obtain ⟨hne, _, hbound⟩ := hr.range b _ hb
  simp only at hbound
  refine ⟨by omega, by omega, ?_⟩
  rintro b' r hb' htag ⟨hlo', hhi'⟩
  have hother : b' ≠ b := by
    rintro rfl
    cases hb'.symm.trans hb
    simp [Purpose.Tagged] at htag
  have hdisjoint := hr.disjoint _ _ _ _ hb' hb hother
  simp only at hdisjoint
  omega

/-- The registry does not hold the base of such a pointer. -/
theorem ReachableBy.foreign_absent (h : ReachableBy ps (TableFound ps) sys)
    (hp : sys.store.Foreign p) : ¬ sys.store.registry.Holds (regionBase p) := by
  intro hholds
  obtain ⟨G, hinv⟩ := h.reachable.inv
  have hr := hinv.data.inv.regions
  obtain ⟨_, hlt, hout⟩ := hp.outside hr
  exact hp.2 ((hout.has_regionBase hr hlt).mp ((h.regionsListed.agree _).mp hholds).1)

/-- The registry does not claim a pointer of the real allocator. -/
theorem ReachableBy.forwarded (h : ReachableBy ps (TableFound ps) sys)
    (hp : sys.store.Foreign p) : ours sys.store.registry p ≠ some true := by
  intro howns
  obtain ⟨G, hinv⟩ := h.reachable.inv
  obtain ⟨_, hlt, _⟩ := hp.outside hinv.data.inv.regions
  exact h.foreign_absent hp (holds_of_owns (regionBase_spec hlt).1 howns)

/-- A pointer it claims is one of this allocator. -/
theorem ReachableBy.client_of_ours (h : ReachableBy ps (TableFound ps) sys)
    (hp : sys.store.Passable p) (hne : p ≠ 0) (hours : ours sys.store.registry p = some true) :
    ∃ g, sys.store.grants p = some g ∧ g.holder = .client := by
  rcases hp with hzero | hclient | hforeign
  · exact absurd hzero hne
  · exact hclient
  · exact absurd hours (h.forwarded hforeign)

/-- A pointer of this allocator is claimed. -/
theorem ReachableBy.ours_of_client (h : ReachableBy ps (TableFound ps) sys) {g : Grant}
    (hg : sys.store.grants p = some g) (hh : g.holder = .client) :
    ours sys.store.registry p = some true := by
  obtain ⟨G, hinv⟩ := h.reachable.inv
  have hholds := h.regionsListed.holds_of_live hinv ⟨hg, Or.inl hh⟩
  obtain ⟨r, hb, htag⟩ := ((h.regionsListed.agree _).mp hholds).1
  exact h.regionsListed.inv.owns_of_holds (hinv.data.inv.regions.isKey hb htag).2.1 hholds

end Lookup

section Dispatch

variable {ps : PageSize} {real : Bool} {s : Store} {p size : Nat} {d : Dispatch} {absent : Answer}

/-- What becomes of a pointer to be freed. -/
theorem checkedFree_dispatch
    (h : (checkedFree real s.registry p).map (Served.dispatch s absent) = some d) :
    (p ≠ 0 ∧ ours s.registry p = some true ∧ d = .hm (.free p)) ∨ d = .answer absent ∨
      ∃ served, d = .real served := by
  unfold checkedFree at h
  by_cases hp : p = 0
  · rw [if_pos hp] at h
    cases h
    exact Or.inr (Or.inl rfl)
  · rw [if_neg hp] at h
    cases hours : ours s.registry p with
    | none => simp [hours] at h
    | some owned =>
        cases owned <;> cases real <;> simp [hours, Served.dispatch] at h <;> subst h
        · exact Or.inr (Or.inl rfl)
        · exact Or.inr (Or.inr ⟨_, rfl⟩)
        · exact Or.inl ⟨hp, rfl, rfl⟩
        · exact Or.inl ⟨hp, rfl, rfl⟩

/-- What becomes of a pointer to be reallocated. -/
theorem checkedRealloc_dispatch
    (h : (checkedRealloc real s.registry p size).map (Served.dispatch s absent) = some d) :
    (p = 0 ∧ d = .hm (.malloc size)) ∨
      (p ≠ 0 ∧ ours s.registry p = some true ∧ d = .hm (.realloc p size)) ∨ d = .answer absent ∨
      ∃ served, d = .real served := by
  unfold checkedRealloc at h
  by_cases hp : p = 0
  · rw [if_pos hp] at h
    cases h
    exact Or.inl ⟨hp, rfl⟩
  · rw [if_neg hp] at h
    cases hours : ours s.registry p with
    | none => simp [hours] at h
    | some owned =>
        cases owned <;> cases real <;> simp [hours, Served.dispatch] at h <;> subst h
        · exact Or.inr (Or.inr (Or.inl rfl))
        · exact Or.inr (Or.inr (Or.inr ⟨_, rfl⟩))
        · exact Or.inr (Or.inl ⟨hp, rfl, rfl⟩)
        · exact Or.inr (Or.inl ⟨hp, rfl, rfl⟩)

/-- What becomes of a pointer whose size is asked for. -/
theorem checkedUsable_dispatch
    (h : (checkedUsable real s.registry p).map (Served.dispatch s absent) = some d) :
    (p ≠ 0 ∧ ours s.registry p = some true ∧ d = .answer (.size (usableSize s p))) ∨
      ((p = 0 ∨ ours s.registry p = some false) ∧ d = .answer absent) ∨
      ∃ served, d = .real served := by
  unfold checkedUsable at h
  by_cases hp : p = 0
  · rw [if_pos hp] at h
    cases h
    exact Or.inr (Or.inl ⟨Or.inl hp, rfl⟩)
  · rw [if_neg hp] at h
    cases hours : ours s.registry p with
    | none => simp [hours] at h
    | some owned =>
        cases owned <;> cases real <;> simp [hours, Served.dispatch] at h <;> subst h
        · exact Or.inr (Or.inl ⟨Or.inr rfl, rfl⟩)
        · exact Or.inr (Or.inr ⟨_, rfl⟩)
        · exact Or.inl ⟨hp, rfl, rfl⟩
        · exact Or.inl ⟨hp, rfl, rfl⟩

theorem doPosixMemalign_hm {out alignment : Nat} {call : Call}
    (h : doPosixMemalign out alignment size = .hm call) :
    out ≠ 0 ∧ 8 ≤ alignment ∧ (∃ k, alignment = 2 ^ k) ∧
      call = .alignedAlloc alignment (atLeastOne size) := by
  unfold doPosixMemalign at h
  split at h
  · cases h
  rename_i hout
  split at h
  · cases h
  rename_i hpow
  cases h
  have hpow2 : ∃ k, alignment = 2 ^ k := by
    by_contra hnot
    rcases isPow2_test.mpr hnot with hzero | hbits
    · exact hpow (Or.inl (by omega))
    · exact hpow (Or.inr hbits)
  exact ⟨hout, by omega, hpow2, rfl⟩

theorem atLeastOne_lt (h : size < 2 ^ 64) : atLeastOne size < 2 ^ 64 := by
  unfold atLeastOne
  split <;> omega

/-- The calls that the override makes are valid ones. -/
theorem ReachableBy.callOk {sys : System} {e : EntryPoint} {call : Call}
    (h : ReachableBy ps (TableFound ps) sys) (hok : EntryOk sys.store e)
    (hstart : e.start ps real sys.store = some (.hm call)) : CallOk sys.store call := by
  cases e with
  | malloc size =>
      cases hstart
      exact hok
  | new size | newNothrow size =>
      cases hstart
      exact atLeastOne_lt hok
  | calloc nmemb size | alignedAlloc alignment size | memalign alignment size =>
      cases hstart
      exact hok
  | valloc size =>
      cases hstart
      exact ⟨ps.bytes_lt, hok⟩
  | newAligned size alignment =>
      cases hstart
      exact ⟨hok.1, atLeastOne_lt hok.2⟩
  | posixMemalign out alignment size =>
      obtain ⟨_, _, _, rfl⟩ := doPosixMemalign_hm (Option.some.inj hstart)
      exact ⟨hok.1, atLeastOne_lt hok.2⟩
  | free p | delete p =>
      rcases checkedFree_dispatch hstart with ⟨hne, hours, hcall⟩ | hcall | ⟨_, hcall⟩ <;>
        cases hcall
      exact Or.inr (h.client_of_ours hok hne hours)
  | realloc p size =>
      rcases checkedRealloc_dispatch hstart with
        ⟨_, hcall⟩ | ⟨hne, hours, hcall⟩ | hcall | ⟨_, hcall⟩ <;> cases hcall
      · exact hok.1
      · exact ⟨hok.1, Or.inr (h.client_of_ours hok.2 hne hours)⟩
  | mallocUsableSize p =>
      rcases checkedUsable_dispatch hstart with ⟨_, _, hcall⟩ | ⟨_, hcall⟩ | ⟨_, hcall⟩ <;>
        cases hcall

end Dispatch

section Runs

variable {ps : PageSize} {real : Bool} {sys sys' : System} {pr pr' : Process} {l : ProcessLabel}
  {a : Option Answer} {t : Nat} {e : EntryPoint}

/-- Thread `t` has called this allocator for the function `e`. -/
inductive Underway (ps : PageSize) (real : Bool) (sys : System) (t : Nat) (e : EntryPoint) :
    Prop where
  | mk {call : Call} {sys₀ : System} (hreach : Reachable ps sys₀)
      (hstart : e.start ps real sys₀.store = some (.hm call))
      (hduring : During ps t call sys₀ sys)

/-- A process runs the allocator, and a thread that is inside a function is inside
the call it has made. -/
structure ProcessInv (ps : PageSize) (real : Bool) (pr : Process) : Prop where
  reachable : ReachableBy ps (TableFound ps) pr.sys
  inside : ∀ t e, pr.inside t = some e →
    Underway ps real pr.sys t e ∧ (pr.sys.threads t).pc ≠ .idle

/-- Steps of others leave a thread inside its call. -/
theorem Underway.other (h : Underway ps real sys t e) (hr : Reachable ps sys)
    (hbusy : (sys.threads t).pc ≠ .idle) {l : Label} (hstep : Step ps sys l sys')
    (hl : ∀ o, l ≠ .step t o) :
    Underway ps real sys' t e ∧ (sys'.threads t).pc ≠ .idle := by
  obtain ⟨hreach, hstart, hduring⟩ := h
  obtain ⟨G, hinv⟩ := hr.inv
  rcases hinv.busy hbusy hstep with ⟨o, _, _, _, rfl, _⟩ | ⟨G', hby⟩
  · exact absurd rfl (hl o)
  · refine ⟨⟨hreach, hstart, hduring.step hbusy hstep⟩, ?_⟩
    rw [hby.pc]
    exact hbusy

/-- The answer of a call that has returned. -/
def Answered (ps : PageSize) (real : Bool) (sys : System) (t : Nat) (e : EntryPoint)
    (a : Answer) : Prop :=
  ∃ call sys₀, Reachable ps sys₀ ∧ e.start ps real sys₀.store = some (.hm call) ∧
    Returns ps t call sys₀ sys (sys.threads t).result ∧ a = e.finish (sys.threads t).result

/-- A thread that has stepped goes on or answers. -/
theorem ProcessInv.settle {inside : Nat → Option EntryPoint}
    (hreach : ReachableBy ps (TableFound ps) sys)
    (hothers : ∀ u e, u ≠ t → inside u = some e →
      Underway ps real sys u e ∧ (sys.threads u).pc ≠ .idle)
    (hself : ∀ e, inside t = some e → Underway ps real sys t e)
    (hsettle : Process.settle ⟨sys, inside⟩ t = (pr', a)) :
    ProcessInv ps real pr' ∧ pr'.sys = sys ∧
      ∀ x, a = some x → ∃ e, inside t = some e ∧ Answered ps real sys t e x := by
  unfold Process.settle at hsettle
  split at hsettle
  · rename_i e hinside hidle
    cases hsettle
    refine ⟨⟨hreach, fun u e' hu => ?_⟩, rfl, fun x hx => ⟨e, hinside, ?_⟩⟩
    · by_cases hut : u = t
      · subst hut
        simp at hu
      · exact hothers u e' hut (by simpa [Function.update_of_ne hut] using hu)
    · obtain ⟨hreach₀, hstart, hduring⟩ := hself e hinside
      cases hx
      exact ⟨_, _, hreach₀, hstart, ⟨hduring, hidle, rfl⟩, rfl⟩
  · rename_i hgoes
    cases hsettle
    refine ⟨⟨hreach, fun u e' hu => ?_⟩, rfl, fun x hx => by cases hx⟩
    by_cases hut : u = t
    · subst hut
      exact ⟨hself e' hu, fun hidle => hgoes e' hu hidle⟩
    · exact hothers u e' hut hu

/-- What a label does to a process: a function answers or forwards at once, or the
allocator takes a step. -/
theorem ProcessInv.step (h : ProcessInv ps real pr) (hstep : ProcessStep ps real pr l pr' a) :
    ProcessInv ps real pr' ∧ ∀ x, a = some x →
      (∃ t e, l = .enter t e ∧ pr' = pr ∧ EntryOk pr.sys.store e ∧
        e.start ps real pr.sys.store = some (.answer x)) ∨
      ∃ t e, (l = .enter t e ∨ (∃ o, l = .step t o) ∧ pr.inside t = some e) ∧
        Answered ps real pr'.sys t e x := by
  obtain ⟨hallowed, hrun⟩ := hstep
  have hr := h.reachable.reachable
  cases l with
  | enter t e =>
      obtain ⟨hrunning, hidle, hok⟩ := hallowed
      simp only [Process.exec, Option.bind_eq_bind, Option.bind_eq_some_iff] at hrun
      obtain ⟨d, hstart, hrun⟩ := hrun
      cases d with
      | answer x =>
          cases hrun
          exact ⟨h, fun y hy => Or.inl ⟨t, e, rfl, rfl, hok, by cases hy; exact hstart⟩⟩
      | real served =>
          cases hrun
          exact ⟨h, fun y hy => by cases hy⟩
      | hm call =>
          simp only [Option.bind_eq_some_iff] at hrun
          obtain ⟨sys, hexec, hrun⟩ := hrun
          have hcall : Step ps pr.sys (.call t call) sys :=
            ⟨⟨hrunning, hidle, h.reachable.callOk hok hstart⟩, hexec⟩
          obtain ⟨hinv, hsys, hanswer⟩ := ProcessInv.settle (t := t)
            (h.reachable.step hcall trivial)
            (fun u e' hut hu => by
              rw [Function.update_of_ne hut] at hu
              obtain ⟨hunder, hbusy⟩ := h.inside u e' hu
              exact hunder.other hr hbusy hcall (by simp))
            (fun e' he' => by
              rw [Function.update_self] at he'
              cases he'
              exact ⟨hr, hstart, .start hcall⟩)
            (Option.some.inj hrun)
          refine ⟨hinv, fun x hx => Or.inr ?_⟩
          obtain ⟨e', he', hans⟩ := hanswer x hx
          rw [Function.update_self] at he'
          cases he'
          exact ⟨t, e, Or.inl rfl, hsys ▸ hans⟩
  | step t o =>
      simp only [Process.exec, Option.bind_eq_bind, Option.bind_eq_some_iff] at hrun
      obtain ⟨sys, hexec, hrun⟩ := hrun
      have hsystem : Step ps pr.sys (.step t o) sys := ⟨hallowed.1, hexec⟩
      obtain ⟨hinv, hsys, hanswer⟩ := ProcessInv.settle (t := t)
        (h.reachable.step hsystem hallowed.2)
        (fun u e' hut hu => by
          obtain ⟨hunder, hbusy⟩ := h.inside u e' hu
          refine hunder.other hr hbusy hsystem fun o' heq => hut ?_
          cases heq
          rfl)
        (fun e' he' => by
          obtain ⟨⟨hreach, hstart, hduring⟩, hbusy⟩ := h.inside t e' he'
          exact ⟨hreach, hstart, hduring.step hbusy hsystem⟩)
        (Option.some.inj hrun)
      refine ⟨hinv, fun x hx => Or.inr ?_⟩
      obtain ⟨e', he', hans⟩ := hanswer x hx
      exact ⟨t, e', Or.inr ⟨⟨o, rfl⟩, he'⟩, hsys ▸ hans⟩
  | other l =>
      obtain ⟨hallowed, hnocall, hnostep⟩ := hallowed
      simp only [Process.exec, Option.bind_eq_bind, Option.bind_eq_some_iff] at hrun
      obtain ⟨sys, hexec, hrun⟩ := hrun
      cases hrun
      have hsystem : Step ps pr.sys l sys := ⟨hallowed, hexec⟩
      have htable : TableFound ps pr.sys l := by
        cases l with
        | step t o => exact absurd rfl (hnostep t o)
        | _ => trivial
      refine ⟨⟨h.reachable.step hsystem htable, fun u e' hu => ?_⟩, fun x hx => by cases hx⟩
      obtain ⟨hunder, hbusy⟩ := h.inside u e' hu
      exact hunder.other hr hbusy hsystem fun o => hnostep u o

theorem ProcessReachable.inv (h : ProcessReachable ps real pr) : ProcessInv ps real pr := by
  induction h with
  | init => exact ⟨.init, fun t e he => by cases he⟩
  | step _ hstep ih => exact (ih.step hstep).1

/-- Runs in which the threads call `hm_malloc` only. -/
def OnlyMallocs (ps : PageSize) (sys : System) (l : Label) : Prop :=
  TableFound ps sys l ∧ ∀ t call, l = .call t call → ∃ size, call = .malloc size

theorem Process.settle_sys (pr : Process) (t : Nat) : (pr.settle t).1.sys = pr.sys := by
  unfold Process.settle
  split <;> rfl

/-- Such a run of the allocator is one of a process that calls `malloc`. -/
theorem ReachableBy.process (h : ReachableBy ps (OnlyMallocs ps) sys) (real : Bool) :
    ∃ pr, ProcessReachable ps real pr ∧ pr.sys = sys := by
  induction h with
  | init => exact ⟨Process.init, .init, rfl⟩
  | @step sys sys' l _ hstep hl ih =>
      obtain ⟨pr, hpr, rfl⟩ := ih
      obtain ⟨htable, hcalls⟩ := hl
      have hexec := hstep.2
      have hother : (∀ t call, l ≠ .call t call) → (∀ t o, l ≠ .step t o) →
          ∃ pr', ProcessReachable ps real pr' ∧ pr'.sys = sys' := by
        intro hnocall hnostep
        have hrun : ProcessStep ps real pr (.other l) ⟨sys', pr.inside⟩ none := by
          refine ⟨⟨hstep.1, hnocall, hnostep⟩, ?_⟩
          rw [Process.exec, hexec]
          rfl
        exact ⟨_, hpr.step hrun, rfl⟩
      cases l with
      | call t call =>
          obtain ⟨size, rfl⟩ := hcalls t call rfl
          let next := Process.settle ⟨sys', Function.update pr.inside t (some (.malloc size))⟩ t
          have hrun : ProcessStep ps real pr (.enter t (.malloc size)) next.1 next.2 := by
            refine ⟨hstep.1, ?_⟩
            simp [Process.exec, EntryPoint.start, hexec, next]
          exact ⟨next.1, hpr.step hrun, Process.settle_sys _ t⟩
      | step t o =>
          let next := Process.settle ⟨sys', pr.inside⟩ t
          have hrun : ProcessStep ps real pr (.step t o) next.1 next.2 := by
            refine ⟨⟨hstep.1, htable⟩, ?_⟩
            simp [Process.exec, hexec, next]
          exact ⟨next.1, hpr.step hrun, Process.settle_sys _ t⟩
      | guardExit | spawn | finish | write | foreignWrite | foreignMap | foreignUnmap =>
          exact hother (by simp) (by simp)

/-- The override is safe to run a process on. Whatever the threads of a process call,
with pointers of this allocator and of the real one, as long as every registration of
a region finds a table or is given its first one, and no pointer of the real
allocator that is passed in is in the window of a large region shorter than a
segment: the allocator only ever sees valid calls, so that its state is one of its
own runs; a pointer that the process has of this allocator is served by it and never
passed to the real one; and a pointer of the real one is passed on and never given to
`hm_free` or `hm_realloc`, if the registry's table has an empty slot. -/
theorem override_runs_are_allocator_runs (h : ProcessReachable ps real pr) :
    ReachableBy ps (TableFound ps) pr.sys ∧
    (∀ p g, pr.sys.store.grants p = some g → g.holder = .client →
      RoutedHome real pr.sys.store.registry p) ∧
    ∀ p, pr.sys.store.Foreign p → ¬ pr.sys.store.registry.Full →
      Forwarded real pr.sys.store.registry p := by
  have hreach := h.inv.reachable
  obtain ⟨G, hinv⟩ := hreach.reachable.inv
  refine ⟨hreach, fun p g hg hh => ?_, fun p hp hroom => ?_⟩
  · exact .of_owns (hinv.data.inv.grant_ne_zero hg) (hreach.ours_of_client hg hh) real
  · obtain ⟨hne, hlt, _⟩ := hp.outside hinv.data.inv.regions
    have hfalse := hreach.reachable.registry_inv.owns_false_iff (regionBase_spec hlt).1
    exact .of_owns hne (hfalse.mpr ⟨hreach.foreign_absent hp, hroom⟩) real

def Call.isMalloc : Call → Bool
  | .malloc _ => true
  | _ => false

/-- The condition of such a run, as a check of a computed one. -/
def mallocReady {σ : Type} (ps : PageSize) (w : World σ) (a : Act) : Bool :=
  tableReady ps w a &&
    match a with
    | .call _ call => call.isMalloc
    | _ => true

theorem mallocReady_ok {σ : Type} {w : World σ} {a : Act} (h : mallocReady ps w a = true) :
    OnlyMallocs ps w.sys (a.label w) := by
  unfold mallocReady at h
  rw [Bool.and_eq_true] at h
  refine ⟨tableReady_ok h.1, fun t call hl => ?_⟩
  cases a <;> cases hl
  cases call with
  | malloc size => exact ⟨size, rfl⟩
  | calloc | realloc | alignedAlloc | free => cases h.2

/-- A process has taken its first block. -/
theorem override_runs_first : ∃ pr, ProcessReachable page4k true pr ∧
    RoutedHome true pr.sys.store.registry (2 ^ 43 + 63 * pageSize) := by
  obtain ⟨w, hrun, hcheck⟩ := schedule_reaches page4k (mallocReady page4k) (fun _ _ _ _ => ()) ()
    (firstMalloc 0 16)
    (fun w => w.sys.store.grants (2 ^ 43 + 63 * pageSize) ==
      some ⟨16, 16, .client, .small ⟨2 ^ 43, 63⟩ 0⟩)
    (fun _ _ => mallocReady_ok) (by decide +kernel)
  obtain ⟨pr, hpr, hsys⟩ := hrun.reachableBy.process true
  rw [← hsys] at hcheck
  exact ⟨pr, hpr, (override_runs_are_allocator_runs hpr).2.1 _ _ (eq_of_beq hcheck) rfl⟩

end Runs

end HMalloc
