import HMalloc.Lib.AtomicMax
import HMalloc.Os

/-!
The accounting of `os.cpp` under contention. `account_map` adds to
`g_bytes_mapped`, and then raises `g_peak_mapped` to the sum it has got in a loop
of compare-exchange, both atomics being free for all threads in between. Here
every atomic operation is a step of its own and any number of threads take them
in any order. The peak is exact as soon as no thread is in its loop, as long as
the bytes accounted for at one time fit the counter.
-/

namespace HMalloc

open AtomicMax

/-- Where a thread is in `account_map` or `account_unmap`: the operation it comes
to next. -/
inductive AccountPc where
  | idle
  | fetchAdd (n : Nat)
  | load (now : Nat)
  | exchange (now prev : Nat)
  | countMap
  | fetchSub (n : Nat)
  | countUnmap
  deriving DecidableEq

/-- The thread is between its `fetch_add` and the end of its loop. -/
def AccountPc.raising : AccountPc → Bool
  | .load _ | .exchange _ _ => true
  | _ => false

/-- The atomics of `os.cpp` and the threads that work on them. -/
structure Accounting where
  bytesMapped : Nat
  peakMapped : Nat
  mapCalls : Nat
  unmapCalls : Nat
  pc : Nat → AccountPc

def Accounting.init : Accounting where
  bytesMapped := 0
  peakMapped := 0
  mapCalls := 0
  unmapCalls := 0
  pc := fun _ => .idle

def Accounting.goto (a : Accounting) (t : Nat) (pc : AccountPc) : Accounting :=
  { a with pc := Function.update a.pc t pc }

/-- The next operation of a thread. A `compare_exchange_weak` may fail although the
peak is what the thread expects. -/
def Accounting.next (a : Accounting) (t : Nat) (spurious : Bool) : Accounting :=
  match a.pc t with
  | .idle => a
  | .fetchAdd n =>
      let now := Word.add 64 a.bytesMapped n
      { a with bytesMapped := now }.goto t (.load now)
  | .load now => a.goto t (.exchange now a.peakMapped)
  | .exchange now prev =>
      if now > prev then
        if a.peakMapped = prev ∧ spurious = false then
          { a with peakMapped := now }.goto t .countMap
        else a.goto t (.exchange now a.peakMapped)
      else a.goto t .countMap
  | .countMap => { a with mapCalls := Word.add 64 a.mapCalls 1 }.goto t .idle
  | .fetchSub n => { a with bytesMapped := Word.sub 64 a.bytesMapped n }.goto t .countUnmap
  | .countUnmap => { a with unmapCalls := Word.add 64 a.unmapCalls 1 }.goto t .idle

/-- A thread calls `account_map` or `account_unmap`, or goes on with its call. -/
inductive AccountAct where
  | map (t n : Nat)
  | unmap (t n : Nat)
  | step (t : Nat) (spurious : Bool)

def AccountAct.thread : AccountAct → Nat
  | .map t _ | .unmap t _ | .step t _ => t

def Accounting.exec (a : Accounting) : AccountAct → Accounting
  | .map t n => a.goto t (.fetchAdd n)
  | .unmap t n => a.goto t (.fetchSub n)
  | .step t spurious => a.next t spurious

/-- What has happened so far: the bytes that were mapped and not unmapped, the values
`g_bytes_mapped` has had, and whether the bytes ever were too many for it. -/
structure Ledger where
  live : Nat
  values : List Nat
  overflow : Bool

def Ledger.init : Ledger := ⟨0, [0], false⟩

def Ledger.note (l : Ledger) (a : Accounting) : AccountAct → Ledger
  | .map _ _ | .unmap _ _ => l
  | .step t _ =>
      match a.pc t with
      | .fetchAdd n => ⟨l.live + n, Word.add 64 a.bytesMapped n :: l.values,
          l.overflow || decide (2 ^ 64 ≤ l.live + n)⟩
      | .fetchSub n => ⟨l.live - n, Word.sub 64 a.bytesMapped n :: l.values, l.overflow⟩
      | _ => l

/-- A call has a 64-bit argument, and what is unmapped was mapped before. -/
def AccountOk (l : Ledger) (a : Accounting) : AccountAct → Prop
  | .map t n | .unmap t n => a.pc t = .idle ∧ n < 2 ^ 64
  | .step t _ => a.pc t ≠ .idle ∧ ∀ n, a.pc t = .fetchSub n → n ≤ l.live

/-- The states that any number of threads can reach, with what has happened. -/
inductive AccountRun : Accounting → Ledger → Prop where
  | init : AccountRun .init .init
  | step {a : Accounting} {l : Ledger} {act : AccountAct} (h : AccountRun a l)
      (hok : AccountOk l a act) : AccountRun (a.exec act) (l.note a act)

/-- A thread that runs alone does what the accounting of the sequential model
does. -/
def Os.accounting (os : Os) : Accounting where
  bytesMapped := os.bytesMapped
  peakMapped := os.peakMapped
  mapCalls := os.mapCalls
  unmapCalls := os.unmapCalls
  pc := fun _ => .idle

theorem Os.accountMap_alone (os : Os) (t n : Nat) :
    [.map t n, .step t false, .step t false, .step t false, .step t false].foldl Accounting.exec
      os.accounting = (os.accountMap n).accounting := by
  have hidle : ∀ pc, Function.update (Function.update (fun _ : Nat => AccountPc.idle) t pc)
      t .idle = fun _ => .idle := by
    intro pc
    rw [Function.update_idem, Function.update_eq_self]
  by_cases hraise : Word.add 64 os.bytesMapped n > os.peakMapped <;>
    simp [Accounting.exec, Accounting.next, Accounting.goto, Os.accounting, Os.accountMap, hraise,
      hidle]

theorem Os.accountUnmap_alone (os : Os) (t n : Nat) :
    [.unmap t n, .step t false, .step t false].foldl Accounting.exec os.accounting =
      (os.accountUnmap n).accounting := by
  simp [Accounting.exec, Accounting.next, Accounting.goto, Os.accounting, Os.accountUnmap]

/-- The loop of a thread, as a maximum kept by compare-and-swap. -/
def AccountPc.phase : AccountPc → Phase Nat
  | .load now => .load now
  | .exchange now prev => .loop now prev
  | _ => .out

theorem AccountPc.phase_of_not_raising {pc : AccountPc} (h : pc.raising = false) :
    pc.phase = .out := by
  cases pc with
  | load | exchange => cases h
  | idle | fetchAdd | countMap | fetchSub | countUnmap => rfl

/-- Every sum that a thread has got is offered to the peak, and without an overflow
`g_bytes_mapped` was never above one of them. -/
structure AccountInv (a : Accounting) (l : Ledger) (offered : Set Nat) : Prop where
  covers : Covers offered a.peakMapped (AccountPc.phase ∘ a.pc)
  values : ∀ v ∈ offered, v ∈ l.values
  now : a.bytesMapped ∈ l.values
  exact : l.overflow = false → a.bytesMapped = l.live ∧ l.live < 2 ^ 64 ∧
    ∀ v ∈ l.values, ∃ w ∈ offered, v ≤ w

section Steps

variable {a : Accounting} {l : Ledger} {offered : Set Nat} {t : Nat}

theorem AccountInv.init : AccountInv .init .init {0} where
  covers := Covers.init 0
  values := fun v hv => List.mem_singleton.mpr hv
  now := List.mem_singleton.mpr rfl
  exact := fun _ => ⟨rfl, by decide, fun v hv => ⟨0, rfl, by simp_all [Ledger.init]⟩⟩

/-- A step that neither the peak nor `g_bytes_mapped` notices. -/
theorem AccountInv.move (h : AccountInv a l offered) {a' : Accounting} {pc : AccountPc}
    (hbytes : a'.bytesMapped = a.bytesMapped) (hpeak : a'.peakMapped = a.peakMapped)
    (hpc : a'.pc = Function.update a.pc t pc) (hout : (a.pc t).raising = false)
    (hout' : pc.raising = false) : AccountInv a' l offered where
  covers := by
    have hsame : AccountPc.phase ∘ a'.pc = AccountPc.phase ∘ a.pc := by
      rw [hpc, Function.comp_update, AccountPc.phase_of_not_raising hout',
        ← AccountPc.phase_of_not_raising hout]
      exact Function.update_eq_self t _
    rw [hsame, hpeak]
    exact h.covers
  values := h.values
  now := hbytes ▸ h.now
  exact := hbytes ▸ h.exact

/-- `g_bytes_mapped.fetch_add`. -/
theorem AccountInv.fetchAdd (h : AccountInv a l offered) {n : Nat} (hpc : a.pc t = .fetchAdd n)
    (spurious : Bool) : AccountInv (a.next t spurious) (l.note a (.step t spurious))
      (insert (Word.add 64 a.bytesMapped n) offered) := by
  have hphase : (AccountPc.phase ∘ a.pc) t = .out := by
    rw [Function.comp_apply, hpc]
    rfl
  simp only [Accounting.next, Ledger.note, hpc]
  refine ⟨?_, ?_, List.mem_cons_self, ?_⟩
  · have hcovers := h.covers.offer hphase (Word.add 64 a.bytesMapped n)
    rwa [← show (AccountPc.load (Word.add 64 a.bytesMapped n)).phase = .load _ from rfl,
      ← Function.comp_update] at hcovers
  · rintro v (rfl | hv)
    · exact List.mem_cons_self
    · exact List.mem_cons_of_mem _ (h.values v hv)
  · intro hover
    simp only [Bool.or_eq_false_iff, decide_eq_false_iff_not, Nat.not_le] at hover
    obtain ⟨hbytes, _, hvalues⟩ := h.exact hover.1
    refine ⟨?_, hover.2, fun v hv => ?_⟩
    · change Word.add 64 a.bytesMapped n = l.live + n
      rw [hbytes, Word.add_eq hover.2]
    · rcases List.mem_cons.mp hv with rfl | hv
      · exact ⟨_, Set.mem_insert _ _, Nat.le_refl _⟩
      · obtain ⟨w, hw, hle⟩ := hvalues v hv
        exact ⟨w, Set.mem_insert_of_mem _ hw, hle⟩

/-- `g_bytes_mapped.fetch_sub`. -/
theorem AccountInv.fetchSub (h : AccountInv a l offered) {n : Nat} (hpc : a.pc t = .fetchSub n)
    (hn : n ≤ l.live) (spurious : Bool) :
    AccountInv (a.next t spurious) (l.note a (.step t spurious)) offered := by
  have hphase : AccountPc.phase ∘ Function.update a.pc t .countUnmap = AccountPc.phase ∘ a.pc := by
    rw [Function.comp_update]
    refine (congrArg _ ?_).trans (Function.update_eq_self t _)
    rw [Function.comp_apply, hpc]
    rfl
  simp only [Accounting.next, Ledger.note, hpc]
  refine ⟨?_, fun v hv => List.mem_cons_of_mem _ (h.values v hv), List.mem_cons_self, ?_⟩
  · change Covers offered a.peakMapped (AccountPc.phase ∘ Function.update a.pc t .countUnmap)
    rw [hphase]
    exact h.covers
  · intro hover
    obtain ⟨hbytes, hlt, hvalues⟩ := h.exact hover
    have hsub : Word.sub 64 a.bytesMapped n = l.live - n := by
      rw [hbytes, Word.sub_eq hlt hn]
    refine ⟨hsub, Nat.lt_of_le_of_lt (Nat.sub_le _ _) hlt, fun v hv => ?_⟩
    rcases List.mem_cons.mp hv with rfl | hv
    · obtain ⟨w, hw, hle⟩ := hvalues a.bytesMapped h.now
      refine ⟨w, hw, Nat.le_trans ?_ hle⟩
      rw [hsub, hbytes]
      exact Nat.sub_le _ _
    · exact hvalues v hv

/-- `g_peak_mapped.load`, and a `compare_exchange_weak` that fails. -/
theorem AccountInv.load (h : AccountInv a l offered) {now : Nat}
    (hpc : (a.pc t).phase.carries = some now) :
    AccountInv (a.goto t (.exchange now a.peakMapped)) l offered := by
  refine ⟨?_, h.values, h.now, h.exact⟩
  have hcovers := h.covers.load hpc
  rwa [← show (AccountPc.exchange now a.peakMapped).phase = .loop _ _ from rfl,
    ← Function.comp_update] at hcovers

/-- One round of the loop. -/
theorem AccountInv.exchange (h : AccountInv a l offered) {now prev : Nat}
    (hpc : a.pc t = .exchange now prev) (spurious : Bool) :
    AccountInv (a.next t spurious) l offered := by
  have hphase : (AccountPc.phase ∘ a.pc) t = .loop now prev := by
    rw [Function.comp_apply, hpc]
    rfl
  simp only [Accounting.next, hpc]
  split
  · rename_i hlt
    split
    · rename_i heq
      refine ⟨?_, h.values, h.now, h.exact⟩
      have hcovers := h.covers.swap hphase (heq.1 ▸ hlt)
      rwa [← show AccountPc.countMap.phase = .out from rfl, ← Function.comp_update] at hcovers
    · exact h.load (by rw [hpc]; rfl)
  · rename_i hle
    refine ⟨?_, h.values, h.now, h.exact⟩
    have hcovers := h.covers.leave hphase (Nat.not_lt.mp hle)
    rwa [← show AccountPc.countMap.phase = .out from rfl, ← Function.comp_update] at hcovers

theorem AccountInv.step (h : AccountInv a l offered) {act : AccountAct} (hok : AccountOk l a act) :
    ∃ offered', AccountInv (a.exec act) (l.note a act) offered' := by
  cases act with
  | map t n | unmap t n =>
      exact ⟨offered, h.move rfl rfl rfl (by rw [hok.1]; rfl) rfl⟩
  | step t spurious =>
      obtain ⟨hbusy, hmapped⟩ := hok
      have hsilent : ∀ {pc : AccountPc}, a.pc t = pc → (∀ n, pc ≠ .fetchAdd n) →
          (∀ n, pc ≠ .fetchSub n) → l.note a (.step t spurious) = l := by
        intro pc hpc hadd hsub
        cases pc with
        | fetchAdd n => exact absurd rfl (hadd n)
        | fetchSub n => exact absurd rfl (hsub n)
        | idle | load | exchange | countMap | countUnmap => simp only [Ledger.note, hpc]
      change ∃ offered', AccountInv (a.next t spurious) (l.note a (.step t spurious)) offered'
      cases hpc : a.pc t with
      | idle => exact absurd hpc hbusy
      | fetchAdd n => exact ⟨_, h.fetchAdd hpc spurious⟩
      | fetchSub n => exact ⟨offered, h.fetchSub hpc (hmapped n hpc) spurious⟩
      | load now =>
          rw [hsilent hpc (by simp) (by simp)]
          refine ⟨offered, ?_⟩
          simp only [Accounting.next, hpc]
          exact h.load (by rw [hpc]; rfl)
      | exchange now prev =>
          rw [hsilent hpc (by simp) (by simp)]
          exact ⟨offered, h.exchange hpc spurious⟩
      | countMap | countUnmap =>
          rw [hsilent hpc (by simp) (by simp)]
          refine ⟨offered, ?_⟩
          simp only [Accounting.next, hpc]
          exact h.move rfl rfl rfl (by rw [hpc]; rfl) rfl

theorem AccountRun.inv (h : AccountRun a l) : ∃ offered, AccountInv a l offered := by
  induction h with
  | init => exact ⟨{0}, AccountInv.init⟩
  | step _ hok ih =>
      obtain ⟨offered, hinv⟩ := ih
      exact hinv.step hok

/-- An act is one of its thread only. -/
theorem Accounting.exec_pc_of_ne (a : Accounting) {act : AccountAct} {t : Nat}
    (ht : t ≠ act.thread) : (a.exec act).pc t = a.pc t := by
  have hgoto : ∀ (b : Accounting) (pc : AccountPc), b.pc = a.pc →
      (b.goto act.thread pc).pc t = a.pc t := by
    intro b pc hb
    change Function.update b.pc act.thread pc t = a.pc t
    rw [Function.update_of_ne ht, hb]
  cases act with
  | map u n | unmap u n => exact hgoto a _ rfl
  | step u spurious =>
      change (a.next u spurious).pc t = a.pc t
      unfold Accounting.next
      cases a.pc u with
      | idle => rfl
      | exchange now prev =>
          dsimp only
          split
          · split <;> exact hgoto _ _ rfl
          · exact hgoto _ _ rfl
      | fetchAdd | load | countMap | fetchSub | countUnmap => exact hgoto _ _ rfl

/-- The peak is replaced only by something larger. -/
theorem Accounting.peak_le_exec (a : Accounting) (act : AccountAct) :
    a.peakMapped ≤ (a.exec act).peakMapped := by
  cases act with
  | map t n | unmap t n => exact Nat.le_refl _
  | step t spurious =>
      change a.peakMapped ≤ (a.next t spurious).peakMapped
      unfold Accounting.next
      cases a.pc t with
      | exchange now prev =>
          dsimp only
          split
          · split
            · rename_i hlt heq
              exact heq.1 ▸ Nat.le_of_lt hlt
            · exact Nat.le_refl _
          · exact Nat.le_refl _
      | idle | fetchAdd | load | countMap | fetchSub | countUnmap => exact Nat.le_refl _

end Steps

/-- The peak counter under contention. Any number of threads run `account_map` and
`account_unmap` with any amounts, what is unmapped having been mapped before, in
any interleaving of their atomic steps. The peak never decreases and never
exceeds the largest value that `g_bytes_mapped` has had; and unless the bytes
accounted for at one time were too many for the counter, it is that value
whenever no thread is between its `fetch_add` and the end of its loop. -/
theorem peak_exact {a : Accounting} {l : Ledger} (h : AccountRun a l) :
    (∀ act, a.peakMapped ≤ (a.exec act).peakMapped) ∧
    (∃ v ∈ l.values, a.peakMapped ≤ v) ∧
    (l.overflow = false → (∀ t, (a.pc t).raising = false) →
      IsGreatest {v | v ∈ l.values} a.peakMapped) := by
  obtain ⟨offered, hinv⟩ := h.inv
  have htaken := hinv.values a.peakMapped hinv.covers.taken
  refine ⟨a.peak_le_exec, ⟨_, htaken, Nat.le_refl _⟩, fun hover hquiet => ⟨htaken, fun v hv => ?_⟩⟩
  have hgreatest := hinv.covers.greatest (fun t => by
    rw [Function.comp_apply, AccountPc.phase_of_not_raising (hquiet t)]
    rfl)
  obtain ⟨w, hw, hle⟩ := (hinv.exact hover).2.2 v hv
  exact hle.trans (hgreatest.2 hw)

def accountReady (l : Ledger) (a : Accounting) : AccountAct → Bool
  | .map t n | .unmap t n => a.pc t == .idle && decide (n < 2 ^ 64)
  | .step t _ =>
      match a.pc t with
      | .idle => false
      | .fetchSub n => decide (n ≤ l.live)
      | _ => true

theorem accountReady_ok {l : Ledger} {a : Accounting} {act : AccountAct}
    (h : accountReady l a act = true) : AccountOk l a act := by
  cases act with
  | map t n | unmap t n =>
      simp only [accountReady, Bool.and_eq_true, beq_iff_eq, decide_eq_true_eq] at h
      exact h
  | step t spurious =>
      simp only [accountReady] at h
      cases hpc : a.pc t with
      | idle => simp [hpc] at h
      | fetchSub n =>
          simp only [hpc, decide_eq_true_eq] at h
          simp [AccountOk, hpc, h]
      | fetchAdd | load | exchange | countMap | countUnmap => simp [AccountOk, hpc]

/-- Runs a list of acts as long as they are allowed. -/
def accountSchedule : List AccountAct → Accounting × Ledger → Option (Accounting × Ledger)
  | [], w => some w
  | act :: acts, (a, l) =>
      if accountReady l a act then accountSchedule acts (a.exec act, l.note a act) else none

/-- A computed run, and the threads that are not part of it. -/
theorem accountSchedule_run {acts : List AccountAct} {a : Accounting} {l : Ledger}
    {w : Accounting × Ledger} (h : AccountRun a l) (hrun : accountSchedule acts (a, l) = some w) :
    AccountRun w.1 w.2 ∧ ∀ t ∉ acts.map AccountAct.thread, w.1.pc t = a.pc t := by
  induction acts generalizing a l with
  | nil =>
      cases hrun
      exact ⟨h, fun _ _ => rfl⟩
  | cons act acts ih =>
      unfold accountSchedule at hrun
      split at hrun
      · rename_i hready
        obtain ⟨hw, hrest⟩ := ih (h.step (accountReady_ok hready)) hrun
        refine ⟨hw, fun t ht => ?_⟩
        simp only [List.map_cons, List.mem_cons, not_or] at ht
        rw [hrest t ht.2]
        exact a.exec_pc_of_ne ht.1
      · cases hrun

/-- The end of a computed run, if all its threads are outside their loops. -/
theorem accountSchedule_quiet (acts : List AccountAct) (check : Accounting × Ledger → Bool)
    (h : (accountSchedule acts (.init, .init)).any (fun w =>
      (acts.map AccountAct.thread).all (fun t => !(w.1.pc t).raising) && check w) = true) :
    ∃ a l, AccountRun a l ∧ (∀ t, (a.pc t).raising = false) ∧ check (a, l) = true := by
  simp only [Option.any_eq_true, Bool.and_eq_true, List.all_eq_true, Bool.not_eq_true'] at h
  obtain ⟨⟨a, l⟩, hrun, hquiet, hcheck⟩ := h
  obtain ⟨hreach, hrest⟩ := accountSchedule_run .init hrun
  refine ⟨a, l, hreach, fun t => ?_, hcheck⟩
  by_cases ht : t ∈ acts.map AccountAct.thread
  · exact hquiet t ht
  · rw [hrest t ht]
    rfl

/-- A slow thread comes to its loop with an old sum, after a faster one. -/
theorem peak_exact_late : ∃ a l, AccountRun a l ∧ l.overflow = false ∧
    (∀ t, (a.pc t).raising = false) ∧ IsGreatest {v | v ∈ l.values} a.peakMapped ∧
    a.peakMapped = 15 := by
  obtain ⟨a, l, hrun, hquiet, hcheck⟩ := accountSchedule_quiet
    [.map 0 10, .map 1 5, .step 0 false, .step 0 false, .step 1 false, .step 1 false,
      .step 1 true, .step 1 false, .step 0 false, .step 0 false, .step 0 false, .step 1 false]
    (fun w => !w.2.overflow && w.1.peakMapped == 15) (by decide +kernel)
  simp only [Bool.and_eq_true, Bool.not_eq_true', beq_iff_eq] at hcheck
  exact ⟨a, l, hrun, hcheck.1, hquiet, (peak_exact hrun).2.2 hcheck.1 hquiet, hcheck.2⟩

/-- Too many bytes for the counter: 5 bytes are mapped, then `2^64 - 5`, and the 5
are unmapped. The sum wraps to 0, which is no new peak, and the difference wraps to
`2^64 - 5`, which no thread offers to the peak. -/
theorem peak_lost_on_overflow : ∃ a l, AccountRun a l ∧ (∀ t, (a.pc t).raising = false) ∧
    a.peakMapped = 5 ∧ a.bytesMapped = 2 ^ 64 - 5 ∧ a.bytesMapped ∈ l.values := by
  obtain ⟨a, l, hrun, hquiet, hcheck⟩ := accountSchedule_quiet
    [.map 0 5, .step 0 false, .step 0 false, .step 0 false, .step 0 false,
      .map 0 (2 ^ 64 - 5), .step 0 false, .step 0 false, .step 0 false, .step 0 false,
      .unmap 0 5, .step 0 false, .step 0 false]
    (fun w => w.1.peakMapped == 5 && w.1.bytesMapped == 2 ^ 64 - 5) (by decide +kernel)
  simp only [Bool.and_eq_true, beq_iff_eq] at hcheck
  obtain ⟨offered, hinv⟩ := hrun.inv
  exact ⟨a, l, hrun, hquiet, hcheck.1, hcheck.2, hinv.now⟩

end HMalloc
