import HMalloc.Effects
import HMalloc.Regions

/-!
Runs that can be computed. In the world of this module the kernel answers every
mapping above all memory mapped so far, so that a list of actions is a run of
the system as soon as a decidable check passes (`Act.ready`); the check, the run
and a record of it are evaluated together (`schedule`).
-/

namespace HMalloc

open Bytes

/-- A system state, a bound of the mapped addresses and a record of the run. -/
structure World (σ : Type) where
  sys : System
  top : Nat
  log : σ

/-- The room left for one mapping. -/
def stride : Nat := 2 ^ 40

def World.init {σ : Type} (start : σ) : World σ := ⟨System.init, stride, start⟩

/-- What happens next. A step of a thread is given an answer to its mapping
call if it is to succeed. -/
inductive Act where
  | spawn (t : Nat)
  | call (t : Nat) (call : Call)
  | step (t : Nat) (maps : Bool)
  | guardExit (t : Nat)
  | finish (t : Nat)
  deriving DecidableEq

def Act.label {σ : Type} (w : World σ) : Act → Label
  | .spawn t => .spawn t
  | .call t c => .call t c
  | .step t maps =>
      .step t (if maps then ⟨some w.top, [some w.top], false⟩ else ⟨none, [], false⟩)
  | .guardExit t => .guardExit t
  | .finish t => .finish t

def clientHolds (s : Store) (ptr : Nat) : Bool :=
  ptr == 0 || (s.grants ptr).any (fun g => g.holder == .client)

def callReady (s : Store) : Call → Bool
  | .malloc size => decide (size < 2 ^ 64)
  | .calloc nmemb size => decide (nmemb < 2 ^ 64) && decide (size < 2 ^ 64)
  | .alignedAlloc alignment size => decide (alignment < 2 ^ 64) && decide (size < 2 ^ 64)
  | .free ptr => clientHolds s ptr
  | .realloc ptr size => decide (size < 2 ^ 64) && clientHolds s ptr

/-- The mappings of the next step fit into the room. -/
def stepReady (ps : PageSize) (s : Store) : Pc → Bool
  | .idle => false
  | .small _ _ => decide (heapBytes ps + ps.bytes ≤ stride)
  | .acquire _ _ | .release _ _ | .hand _ _ _ => s.central.mtx == none
  | .large _ _ mmapSize => decide (mmapSize + segmentSize ≤ stride)
  | .registerSegment _ _ _ | .registerLarge _ _ _ _ =>
      decide (slotsBytes ps 1024 + ps.bytes ≤ stride) &&
        (if s.registry.slots = 0 then s.registry.size == 0 && s.registry.tombs == 0
          else decide ((s.registry.size + s.registry.tombs + 1) * 10 < s.registry.cap * 7))
  | _ => true

def Act.ready {σ : Type} (ps : PageSize) (w : World σ) : Act → Bool
  | .spawn t => (w.sys.threads t).status == .unborn
  | .call t c => (w.sys.threads t).status == .running && (w.sys.threads t).pc == .idle &&
      callReady w.sys.store c
  | .step t _ => stepReady ps w.sys.store (w.sys.threads t).pc &&
      decide (w.top + stride ≤ 2 ^ 64) && decide (w.top ≠ 0) && decide (ps.bytes ∣ w.top)
  | .guardExit t => (w.sys.threads t).status == .running && (w.sys.threads t).pc == .idle &&
      (w.sys.threads t).guardMade && !(w.sys.threads t).guardDone
  | .finish t => (w.sys.threads t).status == .running && (w.sys.threads t).pc == .idle &&
      (!(w.sys.threads t).guardMade || (w.sys.threads t).guardDone)

/-- Runs the actions as long as they are ready and pass a check. -/
def schedule {σ : Type} (ps : PageSize) (ok : World σ → Act → Bool)
    (note : σ → System → Label → System → σ) : List Act → World σ → Option (World σ)
  | [], w => some w
  | a :: as, w =>
      if a.ready ps w && ok w a then
        (exec ps w.sys (a.label w)).bind (fun sys =>
          schedule ps ok note as ⟨sys, w.top + stride, note w.log w.sys (a.label w) sys⟩)
      else none

/-- Nothing is mapped at or above `top`. -/
def Os.Below (os : Os) (top : Nat) : Prop := ∀ x, os.mapped x = true → x < top

theorem Os.Below.mono {os : Os} {top top' : Nat} (h : os.Below top) (hle : top ≤ top') :
    os.Below top' := fun x hx => Nat.lt_of_lt_of_le (h x hx) hle

theorem mmapLength_le {ps : PageSize} {size alignment len : Nat}
    (h : mmapLength ps.bytes size alignment = some len) (hfit : size + alignment ≤ stride) :
    len ≤ stride := by
  have hstride : stride < 2 ^ 64 := by decide
  obtain ⟨_, hcases⟩ := mmapLength_spec (by omega) (by omega) h
  omega

/-- The kernel's answer above everything is as assumed. -/
theorem Os.Below.kernelOk {ps : PageSize} {os : Os} {top size alignment : Nat}
    (h : os.Below top) (hne : top ≠ 0) (hdvd : ps.bytes ∣ top) (hroom : top + stride ≤ 2 ^ 64)
    (hfit : size + alignment ≤ stride) {answer : Option Nat}
    (hanswer : ∀ base, answer = some base → base = top) : KernelOk ps answer os size alignment := by
  intro base hbase len hlen
  obtain rfl := hanswer base hbase
  have hle := mmapLength_le hlen hfit
  refine ⟨hne, hdvd, by omega, ?_⟩
  intro x hlo _
  cases hx : os.mapped x with
  | false => rfl
  | true => exact absurd (h x hx) (by omega)

/-- A mapping above everything stays within the room. -/
theorem Os.Below.alloc {ps : PageSize} {os : Os} {top size alignment : Nat} {purpose : Purpose}
    (h : os.Below top) (hfit : size + alignment ≤ stride) {answer : Option Nat}
    (hanswer : ∀ base, answer = some base → base = top) :
    (osAllocAligned ps answer os size alignment purpose).2.Below (top + stride) := by
  have hold : os.Below (top + stride) := h.mono (Nat.le_add_right _ _)
  unfold osAllocAligned
  cases hlen : mmapLength ps.bytes size alignment with
  | none => exact hold
  | some len =>
      have hle := mmapLength_le hlen hfit
      cases answer with
      | none => exact hold
      | some base =>
          obtain rfl := hanswer base rfl
          intro x hx
          dsimp only at hx
          split at hx
          · simp only [Os.retain, Os.accountMap, Os.rawMmap, Bool.or_eq_true, Bool.and_eq_true,
              decide_eq_true_eq] at hx
            rcases hx with hx | hx
            · exact hold x hx
            · omega
          · simp only [Os.retain, Os.accountUnmap, Os.accountMap, Os.trim_mapped, Os.rawMmap,
              Bool.and_eq_true, Bool.or_eq_true, decide_eq_true_eq] at hx
            rcases hx.1.1 with hx | hx
            · exact hold x hx
            · omega

theorem Os.Below.free {os : Os} {top : Nat} (h : os.Below top) (ptr size : Nat) :
    (osFree os ptr size).Below top := by
  unfold osFree
  split
  · exact h
  · intro x hx
    simp only [Os.forget, Os.accountUnmap, Os.munmap, Bool.and_eq_true] at hx
    exact h x hx.1

section Register

variable {ps : PageSize} {top : Nat}

/-- The table memory of one `grow_locked` comes from the room, or the kernel
has refused it. -/
theorem growLocked_below {w w' : TableWorld} {r r' : Registry} {newCap : Nat}
    (h : growLocked (osTables ps) w r newCap = some (w', r')) {bound : Nat}
    (halloc : (osAllocAligned ps (w.answers.headD none) w.os (slotsBytes ps newCap) ps.bytes
      .table).2.Below bound) : w'.os.Below bound ∧ w'.answers = w.answers.tail := by
  unfold growLocked at h
  dsimp only [osTables] at h
  split at h
  · cases h
    exact ⟨halloc, rfl⟩
  · simp only [Option.bind_eq_bind, Option.bind_eq_some_iff] at h
    obtain ⟨cells, _, h⟩ := h
    cases h
    split
    · exact ⟨halloc.free _ _, rfl⟩
    · exact ⟨halloc, rfl⟩

/-- The answers to a registration in this world are as assumed. -/
theorem storeRegister_below {o : Oracle} {s : Store} {b : Nat} {w : TableWorld} {r : Registry}
    (hbelow : s.os.Below top) (hne : top ≠ 0) (hdvd : ps.bytes ∣ top)
    (hroom : top + stride ≤ 2 ^ 64) (hfit : slotsBytes ps 1024 + ps.bytes ≤ stride)
    (htables : o.tables = [] ∨ o.tables = [some top])
    (hload : s.registry.slots ≠ 0 →
      (s.registry.size + s.registry.tombs + 1) * 10 < s.registry.cap * 7)
    (hreg : storeRegister ps o s b = some (w, r)) : w.ok ∧ w.os.Below (top + stride) := by
  have hanswer : ∀ base, o.tables.headD none = some base → base = top := by
    intro base hbase
    rcases htables with heq | heq
    · rw [heq] at hbase
      cases hbase
    · rw [heq] at hbase
      exact (Option.some.inj hbase).symm
  have htail : o.tables.tail = [] := by
    rcases htables with heq | heq <;> rw [heq] <;> rfl
  simp only [storeRegister, regionRegister, Option.bind_eq_bind, Option.bind_eq_some_iff] at hreg
  obtain ⟨⟨w₁, r₁⟩, hmissing, ⟨w₂, r₂⟩, hloaded, hreg⟩ := hreg
  -- The first growth check: one allocation, answered from the room.
  have h₁ : w₁.ok ∧ w₁.os.Below (top + stride) ∧ (s.registry.slots = 0 → w₁.answers = []) ∧
      (s.registry.slots ≠ 0 → r₁ = s.registry) := by
    unfold growIfMissing at hmissing
    split at hmissing
    · rename_i hslots
      obtain ⟨hb₁, hans₁⟩ := growLocked_below hmissing (hbelow.alloc hfit hanswer)
      refine ⟨?_, hb₁, fun _ => hans₁.trans htail, fun hn => absurd hslots hn⟩
      rw [growLocked_answers hmissing]
      exact ⟨trivial, hbelow.kernelOk hne hdvd hroom hfit hanswer⟩
    · rename_i hslots
      cases hmissing
      exact ⟨trivial, hbelow.mono (Nat.le_add_right _ _), fun hn => absurd hn hslots, fun _ => rfl⟩
  obtain ⟨hok₁, hb₁, hans₁, hsame₁⟩ := h₁
  -- The second one finds the table light, or the kernel refuses.
  have h₂ : w₂.ok ∧ w₂.os.Below (top + stride) := by
    unfold growIfLoaded at hloaded
    split at hloaded
    · rename_i hload₁
      by_cases hslots : s.registry.slots = 0
      · have hnone : w₁.answers.headD none = none := by rw [hans₁ hslots]; rfl
        obtain ⟨hb₂, _⟩ := growLocked_below hloaded
          (show (osAllocAligned ps (w₁.answers.headD none) w₁.os _ ps.bytes .table).2.Below
            (top + stride) by rw [hnone, osAllocAligned_refused]; exact hb₁)
        refine ⟨?_, hb₂⟩
        rw [growLocked_answers hloaded]
        exact ⟨hok₁, fun base hbase => by rw [hnone] at hbase; cases hbase⟩
      · rw [hsame₁ hslots] at hload₁
        dsimp only at hload₁
        exact absurd (hload hslots) (by omega)
    · cases hloaded
      exact ⟨hok₁, hb₁⟩
  split at hreg
  · cases hreg
    exact h₂
  · simp only [Option.bind_eq_some_iff] at hreg
    obtain ⟨r₃, _, hreg⟩ := hreg
    cases hreg
    exact h₂

end Register

section Sound

variable {σ : Type} {ps : PageSize}

/-- The answers given to a step. -/
structure Answers (ps : PageSize) (o : Oracle) (top : Nat) : Prop where
  mapping : ∀ base, o.mapping = some base → base = top
  tables : o.tables = [] ∨ o.tables = [some top]
  ne_zero : top ≠ 0
  aligned : ps.bytes ∣ top
  room : top + stride ≤ 2 ^ 64

theorem stepReady_load {s : Store}
    (h : (if s.registry.slots = 0 then s.registry.size == 0 && s.registry.tombs == 0
      else decide ((s.registry.size + s.registry.tombs + 1) * 10 < s.registry.cap * 7)) = true) :
    s.registry.slots ≠ 0 →
      (s.registry.size + s.registry.tombs + 1) * 10 < s.registry.cap * 7 := by
  intro hne
  rw [if_neg hne] at h
  exact of_decide_eq_true h

/-- A step that is ready is allowed. -/
theorem stepReady_ok {s : Store} {th : Thread} {o : Oracle} {top : Nat}
    (ha : Answers ps o top) (hb : s.os.Below top) (h : stepReady ps s th.pc = true) :
    StepOk ps o s th := by
  have hkernel : ∀ {size alignment : Nat}, size + alignment ≤ stride →
      KernelOk ps o.mapping s.os size alignment :=
    fun hfit => hb.kernelOk ha.ne_zero ha.aligned ha.room hfit ha.mapping
  have htables : ∀ {b : Nat}, stepReady ps s (.registerSegment ⟨0, false, none⟩ 0 b) = true →
      ∀ w r, storeRegister ps o s b = some (w, r) → w.ok := by
    intro b h w r hreg
    obtain ⟨hfit, hload⟩ := Bool.and_eq_true_iff.mp h
    exact (storeRegister_below hb ha.ne_zero ha.aligned ha.room (of_decide_eq_true hfit)
      ha.tables (stepReady_load hload) hreg).1
  unfold StepOk
  cases hpc : th.pc with
  | idle => rw [hpc] at h; cases h
  | small q c => rw [hpc] at h; exact fun _ => hkernel (of_decide_eq_true h)
  | acquire q c => rw [hpc] at h; exact eq_of_beq h
  | release pg r => rw [hpc] at h; exact eq_of_beq h
  | hand c p next => rw [hpc] at h; exact eq_of_beq h
  | mapSegment q c => exact hkernel (by decide)
  | large q offset mmapSize =>
      rw [hpc] at h
      simp only [stepReady, decide_eq_true_eq] at h
      exact hkernel h
  | registerSegment q c b => rw [hpc] at h; exact htables h
  | registerLarge q offset mmapSize b => rw [hpc] at h; exact htables h
  | linkHeap | walk | sweep | unregisterSegment | unmapSegment | free | remote | unmapLarge
  | destroy | unlinkHeap | unmapHeap => trivial

theorem Quiet.below {s s' : Store} (hq : Quiet s s') {top : Nat} (h : s.os.Below top) :
    s'.os.Below top := by
  intro x hx
  rw [hq.mapped] at hx
  exact h x hx

/-- A step that is ready maps within the room. -/
theorem stepReady_below {s s' : Store} {t : Nat} {th th' : Thread} {o : Oracle} {top : Nat}
    (ha : Answers ps o top) (hb : s.os.Below top) (h : stepReady ps s th.pc = true)
    (hrun : stepThread ps o s t th = some (s', th')) : s'.os.Below (top + stride) := by
  have hidle : th.pc ≠ .idle := by
    intro hpc
    rw [hpc] at h
    cases h
  have hold : s.os.Below (top + stride) := hb.mono (Nat.le_add_right _ _)
  have hmap : ∀ {size alignment a : Nat} {purpose : Purpose} {os : Os},
      size + alignment ≤ stride →
      osAllocAligned ps o.mapping s.os size alignment purpose = (some a, os) →
      os.Below (top + stride) := by
    intro size alignment a purpose os hfit hmap
    have hbelow : (osAllocAligned ps o.mapping s.os size alignment purpose).2.Below
        (top + stride) := hb.alloc hfit ha.mapping
    rw [hmap] at hbelow
    exact hbelow
  have htables : ∀ {b : Nat} {w : TableWorld} {r : Registry},
      stepReady ps s (.registerSegment ⟨0, false, none⟩ 0 b) = true →
      storeRegister ps o s b = some (w, r) → w.os.Below (top + stride) := by
    intro b w r h hreg
    obtain ⟨hfit, hload⟩ := Bool.and_eq_true_iff.mp h
    exact (storeRegister_below hb ha.ne_zero ha.aligned ha.room (of_decide_eq_true hfit)
      ha.tables (stepReady_load hload) hreg).2
  cases stepThread_effect hidle hrun with
  | quiet _ hq _ => exact hq.below hold
  | mapHeap hpc _ halloc hq =>
      rw [hpc] at h
      exact hq.below (hmap (of_decide_eq_true h) halloc)
  | linkHeap => exact hold
  | mapSegment _ halloc hq => exact hq.below (hmap (by decide) halloc)
  | registerSegment hpc hreg hq _ =>
      rw [hpc] at h
      exact hq.below (htables h hreg)
  | unregisterSegment => exact hold
  | unmapSegment _ hq _ => exact hq.below (hold.free _ _)
  | mapLarge hpc halloc hq =>
      rw [hpc] at h
      simp only [stepReady, decide_eq_true_eq] at h
      exact hq.below (hmap h halloc)
  | registerLarge hpc hreg hq _ =>
      rw [hpc] at h
      exact hq.below (htables h hreg)
  | dropLarge => exact hold
  | unmapLarge _ hq _ => exact hq.below (hold.free _ _)
  | unlinkHeap => exact hold
  | unmapHeap => exact hold.free _ _

theorem clientHolds_iff {s : Store} {p : Nat} (h : clientHolds s p = true) :
    p = 0 ∨ ∃ g, s.grants p = some g ∧ g.holder = .client := by
  unfold clientHolds at h
  rw [Bool.or_eq_true] at h
  rcases h with h | h
  · exact Or.inl (eq_of_beq h)
  · rw [Option.any_eq_true] at h
    obtain ⟨g, hg, hh⟩ := h
    exact Or.inr ⟨g, hg, eq_of_beq hh⟩

theorem callReady_ok {s : Store} {c : Call} (h : callReady s c = true) : CallOk s c := by
  cases c with
  | malloc size => exact (of_decide_eq_true h : size < 2 ^ 64)
  | calloc nmemb size =>
      obtain ⟨h₁, h₂⟩ := Bool.and_eq_true_iff.mp h
      exact ⟨of_decide_eq_true h₁, of_decide_eq_true h₂⟩
  | alignedAlloc alignment size =>
      obtain ⟨h₁, h₂⟩ := Bool.and_eq_true_iff.mp h
      exact ⟨of_decide_eq_true h₁, of_decide_eq_true h₂⟩
  | free ptr => exact clientHolds_iff h
  | realloc ptr size =>
      obtain ⟨h₁, h₂⟩ := Bool.and_eq_true_iff.mp h
      exact ⟨of_decide_eq_true h₁, clientHolds_iff h₂⟩

theorem Act.answers {w : World σ} {t : Nat} {maps : Bool}
    (h : (Act.step t maps).ready ps w = true) :
    stepReady ps w.sys.store (w.sys.threads t).pc = true ∧
      ∃ o, (Act.step t maps).label w = .step t o ∧ Answers ps o w.top := by
  simp only [Act.ready, Bool.and_eq_true, decide_eq_true_eq] at h
  obtain ⟨⟨⟨hready, hroom⟩, hne⟩, hdvd⟩ := h
  refine ⟨hready, ?_⟩
  cases maps with
  | false => exact ⟨_, rfl, (fun base hb => by cases hb), Or.inl rfl, hne, hdvd, hroom⟩
  | true =>
      exact ⟨_, rfl, (fun base hb => (Option.some.inj hb).symm), Or.inr rfl, hne, hdvd, hroom⟩

/-- An action that is ready is a step of the system, and stays in the room. -/
theorem Act.step_of_ready {w : World σ} {a : Act} {sys : System} (hb : w.sys.store.os.Below w.top)
    (hready : a.ready ps w = true) (hrun : exec ps w.sys (a.label w) = some sys) :
    Step ps w.sys (a.label w) sys ∧ sys.store.os.Below (w.top + stride) := by
  have hold : w.sys.store.os.Below (w.top + stride) := hb.mono (Nat.le_add_right _ _)
  cases a with
  | spawn t =>
      refine ⟨⟨eq_of_beq hready, hrun⟩, ?_⟩
      cases hrun
      exact hold
  | call t c =>
      simp only [Act.ready, Bool.and_eq_true, beq_iff_eq] at hready
      refine ⟨⟨⟨hready.1.1, hready.1.2, callReady_ok hready.2⟩, hrun⟩, ?_⟩
      simp only [Act.label, exec] at hrun
      split at hrun <;> cases hrun <;> exact hold
  | step t maps =>
      obtain ⟨hstep, o, hlabel, ha⟩ := Act.answers hready
      rw [hlabel] at hrun ⊢
      refine ⟨⟨stepReady_ok ha hb hstep, hrun⟩, ?_⟩
      obtain ⟨s', th', hthread, hsys⟩ := exec_step hrun
      rw [hsys]
      exact stepReady_below ha hb hstep hthread
  | guardExit t =>
      simp only [Act.ready, Bool.and_eq_true, beq_iff_eq, Bool.not_eq_true'] at hready
      refine ⟨⟨⟨hready.1.1.1, hready.1.1.2, hready.1.2, hready.2⟩, hrun⟩, ?_⟩
      simp only [Act.label, exec] at hrun
      split at hrun <;> cases hrun <;> exact hold
  | finish t =>
      simp only [Act.ready, Bool.and_eq_true, beq_iff_eq, Bool.or_eq_true, Bool.not_eq_true']
        at hready
      refine ⟨⟨⟨hready.1.1, hready.1.2, fun hm => ?_⟩, hrun⟩, ?_⟩
      · rcases hready.2 with h | h
        · rw [hm] at h
          cases h
        · exact h
      · cases hrun
        exact hold

/-- What holds at the start and is kept by every step that passes the check
holds at the end. -/
theorem schedule_induct {R : World σ → Prop} {ok : World σ → Act → Bool}
    {note : σ → System → Label → System → σ}
    {acts : List Act}
    (hkeep : ∀ w, ∀ a ∈ acts, ∀ sys, R w → ok w a = true → Step ps w.sys (a.label w) sys →
      R ⟨sys, w.top + stride, note w.log w.sys (a.label w) sys⟩)
    {w w' : World σ} (hb : w.sys.store.os.Below w.top) (h : R w)
    (hrun : schedule ps ok note acts w = some w') : w'.sys.store.os.Below w'.top ∧ R w' := by
  induction acts generalizing w with
  | nil =>
      cases hrun
      exact ⟨hb, h⟩
  | cons a as ih =>
      unfold schedule at hrun
      split at hrun
      · rename_i hcheck
        rw [Bool.and_eq_true] at hcheck
        rw [Option.bind_eq_some_iff] at hrun
        obtain ⟨sys, hexec, hrun⟩ := hrun
        obtain ⟨hstep, hb'⟩ := Act.step_of_ready hb hcheck.1 hexec
        exact ih (fun w x hx => hkeep w x (List.mem_cons_of_mem _ hx)) hb'
          (hkeep w a List.mem_cons_self sys h hcheck.2 hstep) hrun
      · cases hrun

/-- A run that can be computed, in two parts: some actions, and others that pass
a check. -/
def splitSchedule (ps : PageSize) (ok : World Unit → Act → Bool) (before acts : List Act)
    (check : System → System → Bool) : Bool :=
  (schedule ps (fun _ _ => true) (fun _ _ _ _ => ()) before (World.init ())).any fun w₀ =>
    (schedule ps ok (fun _ _ _ _ => ()) acts w₀).any fun w => check w₀.sys w.sys

/-- The second part is a run of every kind that the check stands for. -/
theorem splitSchedule_run {R : System → System → Prop} {ok : World Unit → Act → Bool}
    (hrefl : ∀ sys, R sys sys)
    (hkeep : ∀ sys₀ w a sys, R sys₀ w.sys → ok w a = true → Step ps w.sys (a.label w) sys →
      R sys₀ sys) {before acts : List Act} {check : System → System → Bool}
    (h : splitSchedule ps ok before acts check = true) :
    ∃ sys₀ sys, Reachable ps sys₀ ∧ R sys₀ sys ∧ check sys₀ sys = true := by
  unfold splitSchedule at h
  simp only [Option.any_eq_true] at h
  obtain ⟨w₀, hbefore, w, hacts, hcheck⟩ := h
  obtain ⟨hb₀, hr⟩ := schedule_induct (R := fun w => Reachable ps w.sys)
    (fun _ _ _ _ hr _ hstep => hr.step hstep) (fun x hx => by cases hx) .init hbefore
  obtain ⟨_, hrun⟩ := schedule_induct (R := fun w => R w₀.sys w.sys)
    (fun w a _ sys hR hok hstep => hkeep w₀.sys w a sys hR hok hstep) hb₀ (hrefl _) hacts
  exact ⟨w₀.sys, w.sys, hr, hrun, hcheck⟩

/-- What is computed is a run, and all its steps meet what the check stands
for. -/
theorem schedule_recorded {P : System → Label → Prop} {ok : World σ → Act → Bool}
    {note : σ → System → Label → System → σ} {start : σ}
    (hok : ∀ w a, ok w a = true → P w.sys (a.label w)) {acts : List Act} {w w' : World σ}
    (hb : w.sys.store.os.Below w.top) (h : Recorded ps P note start w.sys w.log)
    (hrun : schedule ps ok note acts w = some w') :
    w'.sys.store.os.Below w'.top ∧ Recorded ps P note start w'.sys w'.log :=
  schedule_induct (R := fun w => Recorded ps P note start w.sys w.log)
    (fun w a _ _ h hcheck hstep => .step h hstep (hok w a hcheck)) hb h hrun

/-- A run from the start that ends in a state with a decidable property. -/
theorem schedule_reaches (ps : PageSize) {P : System → Label → Prop} (ok : World σ → Act → Bool)
    (note : σ → System → Label → System → σ) (start : σ) (acts : List Act)
    (check : World σ → Bool) (hok : ∀ w a, ok w a = true → P w.sys (a.label w))
    (hrun : (schedule ps ok note acts (World.init start)).any check = true) :
    ∃ w : World σ, Recorded ps P note start w.sys w.log ∧ check w = true := by
  rw [Option.any_eq_true] at hrun
  obtain ⟨w, hw, hcheck⟩ := hrun
  exact ⟨w, (schedule_recorded hok (fun x hx => by cases hx) .init hw).2, hcheck⟩

/-- The thread that acts. -/
def Act.thread : Act → Nat
  | .spawn t | .call t _ | .step t _ | .guardExit t | .finish t => t

theorem Act.exec_other {w : World σ} {a : Act} {sys : System}
    (h : exec ps w.sys (a.label w) = some sys) {u : Nat} (hu : u ≠ a.thread) :
    sys.threads u = w.sys.threads u := by
  have hset : ∀ (s : Store) (th : Thread),
      (w.sys.setThread a.thread s th).threads u = w.sys.threads u :=
    fun _ _ => Function.update_of_ne hu _ _
  cases a with
  | spawn t | finish t =>
      cases h
      exact hset _ _
  | call t c =>
      simp only [Act.label, exec] at h
      split at h <;> (cases h; exact hset _ _)
  | guardExit t =>
      simp only [Act.label, exec] at h
      split at h <;> (cases h; exact hset _ _)
  | step t maps =>
      simp only [Act.label, exec, Option.bind_eq_bind, Option.bind_eq_some_iff] at h
      obtain ⟨_, _, h⟩ := h
      cases h
      exact hset _ _

theorem schedule_other {ok : World σ → Act → Bool} {note : σ → System → Label → System → σ}
    {acts : List Act} {w w' : World σ} (h : schedule ps ok note acts w = some w') {u : Nat}
    (hu : ∀ a ∈ acts, u ≠ a.thread) : w'.sys.threads u = w.sys.threads u := by
  induction acts generalizing w with
  | nil =>
      cases h
      rfl
  | cons a as ih =>
      unfold schedule at h
      split at h
      · rw [Option.bind_eq_some_iff] at h
        obtain ⟨sys, hexec, h⟩ := h
        exact (ih h fun b hb => hu b (List.mem_cons_of_mem _ hb)).trans
          (Act.exec_other hexec (hu a List.mem_cons_self))
      · cases h

/-- No thread is inside a call: those that have acted are checked. -/
def World.quiet (acts : List Act) (w : World σ) : Bool :=
  acts.all (fun a => (w.sys.threads a.thread).pc == .idle)

/-- Then no thread is, if none was before. -/
theorem World.quiet_idle {ok : World σ → Act → Bool} {note : σ → System → Label → System → σ}
    {acts : List Act} {w w' : World σ} (h : schedule ps ok note acts w = some w')
    (hidle : ∀ t, (w.sys.threads t).pc = .idle) (hquiet : w'.quiet acts = true) (t : Nat) :
    (w'.sys.threads t).pc = .idle := by
  rw [World.quiet, List.all_eq_true] at hquiet
  by_cases ht : ∃ a ∈ acts, t = a.thread
  · obtain ⟨a, ha, rfl⟩ := ht
    exact eq_of_beq (hquiet a ha)
  · rw [schedule_other h fun a ha hta => ht ⟨a, ha, hta⟩]
    exact hidle t

/-- A run that ends without a call in progress. -/
theorem schedule_reaches_quiet (ps : PageSize) {P : System → Label → Prop}
    (ok : World σ → Act → Bool) (note : σ → System → Label → System → σ) (start : σ)
    (acts : List Act) (check : World σ → Bool)
    (hok : ∀ w a, ok w a = true → P w.sys (a.label w))
    (hrun : (schedule ps ok note acts (World.init start)).any
      (fun w => w.quiet acts && check w) = true) :
    ∃ w : World σ, Recorded ps P note start w.sys w.log ∧ (∀ t, (w.sys.threads t).pc = .idle) ∧
      check w = true := by
  rw [Option.any_eq_true] at hrun
  obtain ⟨w, hw, hcheck⟩ := hrun
  rw [Bool.and_eq_true] at hcheck
  exact ⟨w, (schedule_recorded hok (fun x hx => by cases hx) .init hw).2,
    World.quiet_idle hw (fun _ => rfl) hcheck.1, hcheck.2⟩

/-- The same without condition and record. -/
theorem schedule_reachable (ps : PageSize) (acts : List Act) (check : System → Bool)
    (hrun : (schedule ps (fun _ _ => true) (fun _ _ _ _ => ()) acts (World.init ())).any
      (fun w => check w.sys) = true) : ∃ sys, Reachable ps sys ∧ check sys = true := by
  obtain ⟨w, h, hcheck⟩ := schedule_reaches (P := fun _ _ => True) ps _ _ () acts _
    (fun _ _ _ => trivial) hrun
  exact ⟨w.sys, h.reachableBy.reachable, hcheck⟩

end Sound

/-- The first allocation of a thread when nothing is mapped yet: its heap is
mapped and linked, the sweep finds nothing, and a segment is mapped and
registered. -/
def firstMalloc (t size : Nat) : List Act :=
  [.spawn t, .call t (.malloc size), .step t true, .step t false, .step t false, .step t false,
    .step t false, .step t true, .step t true]

/-- A thread with one page exits: the page is handed over, and the heap is unlinked
and unmapped. -/
def exitActs (t : Nat) : List Act :=
  [.guardExit t, .step t false, .step t false, .step t false, .step t false, .finish t]

end HMalloc
