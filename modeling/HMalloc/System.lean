import HMalloc.Thread

/-!
The concurrent system: any number of threads over one store, the public calls
(`hmalloc.cpp`) that a thread's client makes, thread start and exit, clients
writing into their blocks, and another allocator mapping and unmapping memory
at the same time. `exec` runs one label, with `none` for a read through a null
pointer or a loop that does not end; `Allowed` is what is assumed of the world
in that step: the lock is free when it is taken, the kernel keeps its contract,
and clients pass only live pointers.
-/

namespace HMalloc

open Bytes

structure System where
  store : Store
  threads : Nat → Thread

def System.init : System where
  store := Store.init
  threads := fun _ => Thread.init

/-- Where a call goes before its first shared access: it returns at once, or
the thread has a program counter. -/
inductive Entry where
  | ret (result : Nat)
  | goto (pc : Pc)
  deriving DecidableEq

/-- `alloc_large` up to the mapping. -/
def allocLarge (ps : PageSize) (q : Request) (align : Nat) : Entry :=
  let offset := if align > allocAlign then Word.roundUp largeOffset align else largeOffset
  let total := Word.add 64 offset q.size
  if total < q.size then .ret 0
  else
    let mmapSize := Word.roundUp total ps.bytes
    if mmapSize < total then .ret 0 else .goto (.large q offset mmapSize)

/-- `hm_malloc`. -/
def hmMalloc (ps : PageSize) (q : Request) : Entry :=
  if q.size = 0 then .ret 0
  else if q.size ≤ smallSizeMax then .goto (.small q (sizeClass q.size))
  else allocLarge ps q allocAlign

/-- `hm_calloc`. -/
def hmCalloc (ps : PageSize) (nmemb size : Nat) : Entry :=
  if nmemb = 0 ∨ size = 0 then .ret 0
  else if nmemb > sizeMax / size then .ret 0
  else
    let total := Word.mul 64 nmemb size
    if total ≤ smallSizeMax then
      .goto (.small ⟨total, true, none⟩ (sizeClass total))
    else allocLarge ps ⟨total, false, none⟩ allocAlign

/-- The class search of `hm_aligned_alloc`. -/
def alignedClass (alignment : Nat) : Nat → Nat → Nat
  | 0, c => c
  | n + 1, c =>
      if c < numSizeClasses ∧ classToSize c % alignment ≠ 0 then alignedClass alignment n (c + 1)
      else c

/-- `hm_aligned_alloc`. -/
def hmAlignedAlloc (ps : PageSize) (alignment size : Nat) : Entry :=
  let q : Request := ⟨size, false, none⟩
  if size = 0 then .ret 0
  else if alignment = 0 ∨ (alignment &&& (alignment - 1)) ≠ 0 then .ret 0
  else if alignment ≤ allocAlign then hmMalloc ps q
  else
    let need := if size > alignment then size else alignment
    let c := alignedClass alignment numSizeClasses (sizeClass need)
    if need ≤ smallSizeMax ∧ c < numSizeClasses then
      .goto (.small q (sizeClass (classToSize c)))
    else if alignment > segmentSize / 2 then .ret 0
    else allocLarge ps q alignment

/-- `hm_realloc`: of null it is `hm_malloc`, to size zero it is `hm_free`, the
block is kept when it fits and is not mostly waste, and else a new block is
asked for. -/
def hmRealloc (ps : PageSize) (s : Store) (ptr size : Nat) : Entry :=
  if ptr = 0 then hmMalloc ps ⟨size, false, none⟩
  else if size = 0 then .goto (.free ptr 0)
  else
    let oldUsable := usableSize s ptr
    if size ≤ oldUsable ∧ (oldUsable ≤ smallSizeMax ∨ size > oldUsable / 2) then .ret ptr
    else hmMalloc ps ⟨size, false, some (ptr, oldUsable)⟩

def enter (ps : PageSize) (s : Store) : Call → Entry
  | .malloc size => hmMalloc ps ⟨size, false, none⟩
  | .calloc nmemb size => hmCalloc ps nmemb size
  | .realloc ptr size => hmRealloc ps s ptr size
  | .alignedAlloc alignment size => hmAlignedAlloc ps alignment size
  | .free ptr => if ptr = 0 then .ret 0 else .goto (.free ptr 0)

/-- Ghost: what a call does to the pointer it is given. A block that is kept in
place is asked for with the new size from now on. -/
def enterGrants (s : Store) (t : Nat) (call : Call) (entry : Entry) : Nat → Option Grant :=
  match call, entry with
  | .free ptr, .goto _ => setHolder s.grants ptr (.freeing t)
  | .realloc ptr size, .goto _ =>
      if ptr = 0 then s.grants
      else setHolder s.grants ptr (if size = 0 then .freeing t else .moving t)
  | .realloc ptr size, .ret result =>
      if result = 0 then s.grants
      else Function.update s.grants ptr ((s.grants ptr).map (fun g => { g with size := size }))
  | _, _ => s.grants

inductive Label where
  | spawn (t : Nat)
  | call (t : Nat) (call : Call)
  | step (t : Nat) (o : Oracle)
  /-- The destructor of the thread's `HeapGuard` starts. -/
  | guardExit (t : Nat)
  | finish (t : Nat)
  /-- A client writes a byte of a block it holds. -/
  | write (p i : Nat) (v : UInt8)
  /-- Another allocator maps, unmaps or writes memory. -/
  | foreignMap (base len : Nat)
  | foreignUnmap (base : Nat)
  | foreignWrite (base i : Nat) (v : UInt8)

def System.setThread (sys : System) (t : Nat) (s : Store) (th : Thread) : System :=
  ⟨s, Function.update sys.threads t th⟩

/-- One label. -/
def exec (ps : PageSize) (sys : System) : Label → Option System
  | .spawn t => some (sys.setThread t sys.store { sys.threads t with status := .running })
  | .call t call =>
      let entry := enter ps sys.store call
      let s := { sys.store with grants := enterGrants sys.store t call entry }
      let th := { sys.threads t with call := some call }
      match entry with
      | .ret result => some (sys.setThread t s (th.ret result))
      | .goto pc => some (sys.setThread t s { th with pc := pc })
  | .step t o => do
      let (s, th) ← stepThread ps o sys.store t (sys.threads t)
      return sys.setThread t s th
  | .guardExit t =>
      let th := sys.threads t
      match th.heap with
      | none => some (sys.setThread t sys.store { th with guardDone := true })
      | some h => some (sys.setThread t sys.store
          { th with pc := scanClasses sys.store h numSizeClasses 0 })
  | .finish t => some (sys.setThread t sys.store { sys.threads t with status := .ended })
  | .write p i v =>
      some { sys with store := { sys.store with
        os := { sys.store.os with mem := Function.update sys.store.os.mem (p + i) v } } }
  | .foreignMap base len =>
      some { sys with store := { sys.store with
        os := (sys.store.os.rawMmap base len).retain base len .foreign } }
  | .foreignUnmap base =>
      some { sys with store := { sys.store with
        os := match sys.store.os.regions base with
          | some r => (sys.store.os.munmap base r.size).forget base
          | none => sys.store.os } }
  | .foreignWrite base i v =>
      some { sys with store := { sys.store with
        os := { sys.store.os with mem := Function.update sys.store.os.mem (base + i) v } } }

/-- The arguments of a call are 64-bit words, and a pointer passed to `hm_free`
or `hm_realloc` is null or live. -/
def CallOk (s : Store) : Call → Prop
  | .malloc size => size < 2 ^ 64
  | .calloc nmemb size => nmemb < 2 ^ 64 ∧ size < 2 ^ 64
  | .alignedAlloc alignment size => alignment < 2 ^ 64 ∧ size < 2 ^ 64
  | .free ptr => ptr = 0 ∨ ∃ g, s.grants ptr = some g ∧ g.holder = .client
  | .realloc ptr size =>
      size < 2 ^ 64 ∧ (ptr = 0 ∨ ∃ g, s.grants ptr = some g ∧ g.holder = .client)

/-- What is assumed of the world when a thread takes its next step. -/
def StepOk (ps : PageSize) (o : Oracle) (s : Store) (th : Thread) : Prop :=
  match th.pc with
  | .idle => False
  | .small _ _ => th.heap = none → KernelOk ps o.mapping s.os (heapBytes ps) ps.bytes
  | .acquire _ _ | .release _ _ | .hand _ _ _ => s.central.mtx = none
  | .mapSegment _ _ => KernelOk ps o.mapping s.os segmentSize segmentSize
  | .large _ _ mmapSize => KernelOk ps o.mapping s.os mmapSize segmentSize
  | .registerSegment _ _ b | .registerLarge _ _ _ b =>
      ∀ w r, storeRegister ps o s b = some (w, r) → w.ok
  | _ => True

/-- What is assumed of the world when a label is run. -/
def Allowed (ps : PageSize) (sys : System) : Label → Prop
  | .spawn t => (sys.threads t).status = .unborn
  | .call t call =>
      (sys.threads t).status = .running ∧ (sys.threads t).pc = .idle ∧ CallOk sys.store call
  | .step t o => StepOk ps o sys.store (sys.threads t)
  | .guardExit t =>
      (sys.threads t).status = .running ∧ (sys.threads t).pc = .idle ∧
        (sys.threads t).guardMade = true ∧ (sys.threads t).guardDone = false
  | .finish t =>
      (sys.threads t).status = .running ∧ (sys.threads t).pc = .idle ∧
        ((sys.threads t).guardMade = true → (sys.threads t).guardDone = true)
  | .write p i _ =>
      ∃ g, sys.store.grants p = some g ∧ g.holder = .client ∧ i < g.usable
  | .foreignMap base len =>
      base ≠ 0 ∧ 0 < len ∧ base + len ≤ 2 ^ 64 ∧
        ∀ x, base ≤ x → x < base + len → sys.store.os.mapped x = false
  | .foreignUnmap base => ∃ size, sys.store.os.regions base = some ⟨size, .foreign⟩
  | .foreignWrite base i _ =>
      ∃ size, sys.store.os.regions base = some ⟨size, .foreign⟩ ∧ i < size

/-- One step of the system. -/
def Step (ps : PageSize) (sys : System) (l : Label) (sys' : System) : Prop :=
  Allowed ps sys l ∧ exec ps sys l = some sys'

/-- The states the system can reach. -/
inductive Reachable (ps : PageSize) : System → Prop where
  | init : Reachable ps System.init
  | step {sys sys' : System} {l : Label} (h : Reachable ps sys) (hstep : Step ps sys l sys') :
      Reachable ps sys'

theorem exec_step {ps : PageSize} {sys sys' : System} {t : Nat} {o : Oracle}
    (h : exec ps sys (.step t o) = some sys') :
    ∃ s' th', stepThread ps o sys.store t (sys.threads t) = some (s', th') ∧
      sys' = sys.setThread t s' th' := by
  simp only [exec, Option.bind_eq_bind, Option.bind_eq_some_iff] at h
  obtain ⟨⟨s', th'⟩, hthread, h⟩ := h
  cases h
  exact ⟨s', th', hthread, rfl⟩

/-- Only a thread inside a call takes steps. -/
theorem StepOk.busy {ps : PageSize} {o : Oracle} {s : Store} {th : Thread} (h : StepOk ps o s th) :
    th.pc ≠ .idle := by
  intro hpc
  simp only [StepOk, hpc] at h

/-- The states reached by runs all of whose steps meet a condition. -/
inductive ReachableBy (ps : PageSize) (P : System → Label → Prop) : System → Prop where
  | init : ReachableBy ps P System.init
  | step {sys sys' : System} {l : Label} (h : ReachableBy ps P sys) (hstep : Step ps sys l sys')
      (hl : P sys l) : ReachableBy ps P sys'

theorem ReachableBy.reachable {ps : PageSize} {P : System → Label → Prop} {sys : System}
    (h : ReachableBy ps P sys) : Reachable ps sys := by
  induction h with
  | init => exact .init
  | step _ hstep _ ih => exact .step ih hstep

/-- Runs all of whose steps meet a condition, with a record of what happened. -/
inductive Recorded {σ : Type} (ps : PageSize) (P : System → Label → Prop)
    (note : σ → System → Label → System → σ) (start : σ) : System → σ → Prop where
  | init : Recorded ps P note start System.init start
  | step {sys sys' : System} {a : σ} {l : Label} (h : Recorded ps P note start sys a)
      (hstep : Step ps sys l sys') (hl : P sys l) :
      Recorded ps P note start sys' (note a sys l sys')

theorem Recorded.reachableBy {σ : Type} {ps : PageSize} {P : System → Label → Prop}
    {note : σ → System → Label → System → σ} {start a : σ} {sys : System}
    (h : Recorded ps P note start sys a) : ReachableBy ps P sys := by
  induction h with
  | init => exact .init
  | step _ hstep hl ih => exact .step ih hstep hl

/-- A record can be kept of every run. -/
theorem ReachableBy.recorded {σ : Type} {ps : PageSize} {P : System → Label → Prop} {sys : System}
    (h : ReachableBy ps P sys) (note : σ → System → Label → System → σ) (start : σ) :
    ∃ a, Recorded ps P note start sys a := by
  induction h with
  | init => exact ⟨start, .init⟩
  | step _ hstep hl ih =>
      obtain ⟨a, ha⟩ := ih
      exact ⟨_, .step ha hstep hl⟩

/-- A run goes on, and its record is kept. -/
inductive Onward {σ : Type} (ps : PageSize) (P : System → Label → Prop)
    (note : σ → System → Label → System → σ) (sys₀ : System) (a₀ : σ) : System → σ → Prop where
  | refl : Onward ps P note sys₀ a₀ sys₀ a₀
  | step {sys sys' : System} {a : σ} {l : Label} (h : Onward ps P note sys₀ a₀ sys a)
      (hstep : Step ps sys l sys') (hl : P sys l) :
      Onward ps P note sys₀ a₀ sys' (note a sys l sys')

theorem Onward.recorded {σ : Type} {ps : PageSize} {P : System → Label → Prop}
    {note : σ → System → Label → System → σ} {start a a' : σ} {sys sys' : System}
    (h : Onward ps P note sys a sys' a') (hr : Recorded ps P note start sys a) :
    Recorded ps P note start sys' a' := by
  induction h with
  | refl => exact hr
  | step _ hstep hl ih => exact .step ih hstep hl

/-- A pointer the client may use: it was returned by an allocation call and not
passed to `hm_free` or to an `hm_realloc` that moved it. -/
def Live (s : Store) (p : Nat) (g : Grant) : Prop :=
  s.grants p = some g ∧ (g.holder = .client ∨ ∃ t, g.holder = .moving t)

end HMalloc
