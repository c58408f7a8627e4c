import HMalloc.Lib.Ranking
import HMalloc.SlowRuns

/-!
Calls return. While a thread is in a call its state has a rank, which the other
threads cannot raise and every step of its own lowers, but for a
compare-exchange of `heap_free_remote` that fails. The rank has two parts: how
far the call is from its last part, and how many steps it can take before it
gets there. The walk and the sweep are the two parts with a loop; their steps
are those that `SlowLog` bounds.
-/

namespace HMalloc

open Bytes Linked

/-- The steps a call can take from a program counter of its last part on. -/
def Pc.late : Pc → Option Nat
  | .idle => some 0
  | .unmapLarge .. | .remote .. | .unmapSegment _ (.freed _) => some 1
  | .unregisterSegment _ (.freed _) => some 2
  | .release .. => some 3
  | .free .. => some 4
  | .registerLarge .. => some 5
  | .large .. => some 6
  | _ => none

/-- A compare-exchange that failed and is made again. -/
def Retries (pc pc' : Pc) : Prop :=
  ∃ p head now result, pc = .remote p head result ∧ pc' = .remote p now result

/-- The rank of a call. -/
inductive CallAt (t : Nat) (sys : System) (G : Ghost) : ℕ ×ₗ ℕ → Prop where
  | late {n : Nat} (hpc : (sys.threads t).pc.late = some n) : CallAt t sys G (toLex (0, n))
  | slow {h c : Nat} {q : Request} {v : HeapView} {log : SlowLog}
      (hat : SlowAt t h q c v G log sys)
      (hgoal : (sys.threads t).pc.goal = some (.small q c)) :
      CallAt t sys G
        (toLex (2 - log.acquires, (v.cls c).length + 3 * log.waiting + 4 - log.steps))
  | small {q : Request} {c h : Nat} (hpc : (sys.threads t).pc = .small q c)
      (hheap : (sys.threads t).heap = some h) : CallAt t sys G (toLex (3, 0))
  | linking {q : Request} {c h : Nat} (hpc : (sys.threads t).pc = .linkHeap q c h) :
      CallAt t sys G (toLex (4, 0))
  | first {q : Request} {c : Nat} (hpc : (sys.threads t).pc = .small q c)
      (hheap : (sys.threads t).heap = none) : CallAt t sys G (toLex (5, 0))

section Own

variable {ps : PageSize} {t : Nat} {sys : System} {G G' : Ghost} {o : Oracle} {s s' : Store}
  {th th' : Thread}

theorem Got.late {b : Nat} (h : Got th b) : ∃ n, th.pc.late = some n := by
  rcases h with ⟨hpc, _⟩ | ⟨old, hpc⟩ <;> rw [hpc] <;> exact ⟨_, rfl⟩

theorem SlowEnd.late {h c : Nat} {v : HeapView} {log : SlowLog} (hend : SlowEnd t h c v log sys) :
    ∃ n, (sys.threads t).pc.late = some n := by
  cases hend with
  | found _ _ _ hgot => exact hgot.late
  | fresh _ _ _ hgot => exact hgot.late
  | refused _ _ _ hidle =>
      rw [hidle]
      exact ⟨_, rfl⟩

theorem deliver_late (q : Request) (p usable : Nat) (origin : Origin) :
    ∃ n, (deliver s t th q p usable origin).2.pc.late = some n ∧ n < 5 := by
  cases ho : q.old with
  | none =>
      rw [deliver_of_new _ _ _ _ _ _ _ ho]
      exact ⟨0, rfl, by decide⟩
  | some r =>
      rw [deliver_of_old _ _ _ _ _ _ _ ho]
      exact ⟨4, rfl, by decide⟩

/-- A step in the last part of a call. -/
theorem late_own {n : Nat} (hlate : th.pc.late = some n) (hbusy : th.pc ≠ .idle)
    (hrun : stepThread ps o s t th = some (s', th')) :
    (∃ m, th'.pc.late = some m ∧ m < n) ∨ Retries th.pc th'.pc := by
  cases stepThread_cases hrun with
  | idle hpc => exact absurd hpc hbusy
  | @unregisterSegment b after r hpc =>
      rw [hpc] at hlate
      cases after with
      | destroying | sweeping => cases hlate
      | freed result =>
          cases hlate
          exact Or.inl ⟨1, rfl, by decide⟩
  | @unmapSegment b after _ _ hpc hafter =>
      rw [hpc] at hlate
      cases after with
      | destroying | sweeping => cases hlate
      | freed result =>
          cases hlate
          cases hafter
          exact Or.inl ⟨0, rfl, by decide⟩
  | largeRefused hpc =>
      rw [hpc] at hlate
      cases hlate
      rw [(failAlloc_eq s th _).2]
      exact Or.inl ⟨0, rfl, by decide⟩
  | mapLarge hpc =>
      rw [hpc] at hlate
      cases hlate
      exact Or.inl ⟨5, rfl, by decide⟩
  | registerLarge hpc =>
      rw [hpc] at hlate
      cases hlate
      exact Or.inl (deliver_late ..)
  | dropLarge hpc | freeRemote hpc =>
      rw [hpc] at hlate
      cases hlate
      exact Or.inl ⟨1, rfl, by decide⟩
  | freeDrained hpc =>
      rw [hpc] at hlate
      cases hlate
      exact Or.inl ⟨3, rfl, by decide⟩
  | freeLocal hpc | exchange hpc | unmapLarge hpc =>
      rw [hpc] at hlate
      cases hlate
      exact Or.inl ⟨0, rfl, by decide⟩
  | retry hpc => exact Or.inr ⟨_, _, _, _, hpc, rfl⟩
  | @release pg result dead _ _ _ _ hpc _ _ hafter =>
      rw [hpc] at hlate
      cases hlate
      refine Or.inl ?_
      cases dead with
      | none =>
          cases hafter
          exact ⟨0, rfl, by decide⟩
      | some b =>
          cases hafter
          exact ⟨2, rfl, by decide⟩
  | createHeap hpc | serve hpc | enterWalk hpc | enterAcquire hpc | linkHeap hpc | walkServe hpc
  | walkNext hpc | walkEnd hpc | lock hpc | acquire hpc | sweepOn hpc | sweepDrop hpc | sweepMap hpc
  | sweepAcquire hpc | segmentRefused hpc | mapSegment hpc | registerSegment hpc | destroy hpc
  | handRelease hpc | handAbandon hpc | unlinkHeap hpc | unmapHeap hpc =>
      rw [hpc] at hlate
      cases hlate

variable {h c : Nat} {q : Request} {v : HeapView} {log : SlowLog}

/-- The thread is still in `heap_malloc_slow`, or has left it. -/
theorem SlowAt.goal_or_end (hat : SlowAt t h q c v G log sys) :
    (sys.threads t).pc.goal = some (.small q c) ∨ SlowEnd t h c v log sys := by
  cases hat with
  | walking hv | entering hv =>
      rw [hv.pc]
      exact Or.inl rfl
  | asking hv hpc =>
      rw [hv.pc]
      cases hpc <;> exact Or.inl rfl
  | ended hend => exact Or.inr hend

/-- The central heap is asked at most once. -/
theorem SlowAt.acquires_le (hat : SlowAt t h q c v G log sys)
    (hgoal : (sys.threads t).pc.goal = some (.small q c)) :
    log.acquires ≤ 1 ∧ ((∃ q' c', (sys.threads t).pc = .acquire q' c') → log.acquires = 0) := by
  cases hat with
  | walking _ _ _ hnone | entering _ _ hnone => exact ⟨by omega, fun _ => hnone⟩
  | asking hv hpc _ hone =>
      refine ⟨by omega, ?_⟩
      rintro ⟨q', c', hacquire⟩
      rw [← hv.pc, hacquire] at hpc
      cases hpc
  | ended hend =>
      rw [hend.goal] at hgoal
      cases hgoal

theorem SlowLog.note_acquires (log : SlowLog) (ps : PageSize) (o : Oracle) (s : Store) (pc : Pc) :
    (log.note ps o s pc).steps = log.steps + 1 ∧
      ((∃ q c, pc = .acquire q c) ∧ (log.note ps o s pc).acquires = log.acquires + 1 ∨
        (log.note ps o s pc).acquires = log.acquires ∧
          (log.note ps o s pc).waiting = log.waiting) := by
  cases pc <;> first
    | exact ⟨rfl, Or.inl ⟨⟨_, _, rfl⟩, rfl⟩⟩
    | exact ⟨rfl, Or.inr ⟨rfl, rfl⟩⟩

/-- A step in `heap_malloc_slow`. -/
theorem slow_own (hinv : SysInv ps sys G) (hat : SlowAt t h q c v G log sys)
    (hgoal : (sys.threads t).pc.goal = some (.small q c)) (hown : OwnStep ps t sys G o s' th' G') :
    ∃ r, CallAt t (sys.setThread t s' th') G' r ∧
      r < toLex (2 - log.acquires, (v.cls c).length + 3 * log.waiting + 4 - log.steps) := by
  have hat' := hat.own hinv hgoal hown
  obtain ⟨hle, hnone⟩ := hat.acquires_le hgoal
  rcases hat'.goal_or_end with hgoal' | hend
  · refine ⟨_, .slow hat' hgoal', ?_⟩
    obtain ⟨hle', _⟩ := hat'.acquires_le hgoal'
    have hbound := hat'.bound
    obtain ⟨hsteps, ⟨hacquire, hmore⟩ | ⟨hsame, hwaiting⟩⟩ :=
      log.note_acquires ps o sys.store (sys.threads t).pc
    · exact Prod.Lex.toLex_lt_toLex.mpr (Or.inl (by omega))
    · rw [hsteps, hwaiting] at hbound
      refine Prod.Lex.toLex_lt_toLex.mpr (Or.inr ⟨by rw [hsame], ?_⟩)
      simp only [hsteps, hwaiting]
      omega
  · obtain ⟨n, hlate⟩ := hend.late
    exact ⟨_, .late hlate, Prod.Lex.toLex_lt_toLex.mpr (Or.inl (by simp only; omega))⟩

/-- A step of `heap_malloc` on the heap of the thread. -/
theorem small_own (hinv : SysInv ps sys G) (hpc : (sys.threads t).pc = .small q c)
    (hheap : (sys.threads t).heap = some h) (hown : OwnStep ps t sys G o s' th' G') :
    ∃ r, CallAt t (sys.setThread t s' th') G' r ∧ r < toLex (3, 0) := by
  have hinv' := hinv.setThread hown.outcome
  have hrun := hown.run
  unfold stepThread at hrun
  rw [hpc] at hrun
  dsimp only at hrun
  rw [stepSmall_some ps o sys.store t q c hheap] at hrun
  have hslow : s' = sys.store → th' = { sys.threads t with pc := slowEntry sys.store h q c } →
      ∃ r, CallAt t (sys.setThread t s' th') G' r ∧ r < toLex (3, 0) := by
    rintro rfl rfl
    have hv := hinv'.viewed_entry (t := t) (h := h) (q := q) (c := c)
      (by simpa [System.setThread] using hheap) (by simp [System.setThread])
    refine ⟨_, .slow (.start hv) ?_, Prod.Lex.toLex_lt_toLex.mpr (Or.inl (show 2 < 3 by decide))⟩
    simp only [System.setThread, Function.update_self]
    unfold slowEntry
    split <;> rfl
  split at hrun
  · rw [Option.bind_eq_some_iff] at hrun
    obtain ⟨⟨b, s₁⟩, _, hrun⟩ := hrun
    obtain ⟨n, hlate⟩ := (deliverBlock_got (Option.some.inj hrun)).1.late
    refine ⟨_, .late (n := n) ?_, Prod.Lex.toLex_lt_toLex.mpr (Or.inl (show 0 < 3 by decide))⟩
    simpa [System.setThread] using hlate
  · split at hrun
    · rename_i hne
      cases hrun
      exact hslow rfl (by rw [slowEntry, if_neg hne])
    · rename_i hempty
      cases hrun
      exact hslow rfl (by rw [slowEntry, if_pos (not_not.mp hempty)])

/-- A step of a call lowers its rank, unless an exchange is made again. -/
theorem CallAt.own {r : ℕ ×ₗ ℕ} (hat : CallAt t sys G r) (hinv : SysInv ps sys G)
    (hown : OwnStep ps t sys G o s' th' G') :
    (∃ r', CallAt t (sys.setThread t s' th') G' r' ∧ r' < r) ∨
      Retries (sys.threads t).pc th'.pc ∧ CallAt t (sys.setThread t s' th') G' r := by
  have hself : (sys.setThread t s' th').threads t = th' := Function.update_self ..
  cases hat with
  | @late n hlate =>
      rcases late_own hlate hown.busy hown.run with ⟨m, hm, hlt⟩ | hretry
      · refine Or.inl ⟨_, .late (n := m) (by rw [hself]; exact hm), ?_⟩
        exact Prod.Lex.toLex_lt_toLex.mpr (Or.inr ⟨rfl, hlt⟩)
      · refine Or.inr ⟨hretry, .late ?_⟩
        obtain ⟨p, head, now, result, hpc, hpc'⟩ := hretry
        rw [hself, ← hlate, hpc, hpc']
        rfl
  | slow hslow hgoal => exact Or.inl (slow_own hinv hslow hgoal hown)
  | small hpc hheap => exact Or.inl (small_own hinv hpc hheap hown)
  | @linking q c h hpc =>
      have hrun := hown.run
      unfold stepThread at hrun
      rw [hpc] at hrun
      cases hrun
      refine Or.inl ⟨_, .small (q := q) (c := c) (h := h) (by rw [hself])
        (by rw [hself]), ?_⟩
      exact Prod.Lex.toLex_lt_toLex.mpr (Or.inl (by decide))
  | @first q c hpc hheap =>
      have hrun := hown.run
      unfold stepThread at hrun
      rw [hpc] at hrun
      simp only [stepSmall, hheap] at hrun
      split at hrun
      · cases hrun
      · rename_i base os _
        cases hrun
        refine Or.inl ⟨_, .linking (q := q) (c := c) (h := base) (by rw [hself]), ?_⟩
        exact Prod.Lex.toLex_lt_toLex.mpr (Or.inl (by decide))

/-- The other threads do not change the rank of a call. -/
theorem CallAt.other {r : ℕ ×ₗ ℕ} {sys' : System} (hat : CallAt t sys G r) (hinv : SysInv ps sys G)
    (hby : Bystander ps t sys G sys' G') : CallAt t sys' G' r := by
  have hpc := hby.pc
  have hheap := hby.heap
  cases hat with
  | late hlate => exact .late (by rw [hpc]; exact hlate)
  | slow hslow hgoal => exact .slow (hslow.other hinv hgoal hby) (by rw [hpc]; exact hgoal)
  | small h₁ h₂ => exact .small (hpc.trans h₁) (hheap.trans h₂)
  | linking h₁ => exact .linking (hpc.trans h₁)
  | first h₁ h₂ => exact .first (hpc.trans h₁) (hheap.trans h₂)

end Own

section Calls

variable {ps : PageSize} {t : Nat} {call : Call} {sys₀ sys : System} {G : Ghost}

/-- A call has a rank from its first part to its return. -/
theorem During.callAt (h : During ps t call sys₀ sys) (hr : Reachable ps sys₀) :
    ∃ G r, SysInv ps sys G ∧ CallAt t sys G r := by
  induction h with
  | @start sys hstep =>
      obtain ⟨G, hinv⟩ := (hr.step hstep).inv
      obtain ⟨_, hrun⟩ := hstep
      rw [exec_call] at hrun
      have hself : ∀ s th, (sys₀.setThread t s th).threads t = th :=
        fun s th => Function.update_self ..
      have hstarts := enter_starts ps sys₀.store call
      cases hentry : enter ps sys₀.store call with
      | ret result =>
          rw [hentry] at hrun
          cases hrun
          exact ⟨G, _, hinv, .late (n := 0) (by rw [hself]; rfl)⟩
      | goto pc =>
          rw [hentry] at hrun hstarts
          cases hrun
          rcases hstarts with ⟨q, c, rfl⟩ | ⟨q, offset, size, rfl⟩ | ⟨x, rfl⟩
          · cases hheap : (sys₀.threads t).heap with
            | none => exact ⟨G, _, hinv, .first (by rw [hself]; rfl) (by rw [hself]; exact hheap)⟩
            | some h => exact ⟨G, _, hinv, .small (by rw [hself]; rfl) (by rw [hself]; exact hheap)⟩
          · exact ⟨G, _, hinv, .late (n := 6) (by rw [hself]; rfl)⟩
          · exact ⟨G, _, hinv, .late (n := 4) (by rw [hself]; rfl)⟩
  | step _ hbusy hstep ih =>
      obtain ⟨G, r, hinv, hat⟩ := ih
      rcases hinv.busy hbusy hstep with ⟨o, s', th', G', _, hown, rfl⟩ | ⟨G', hby⟩
      · rcases hat.own hinv hown with ⟨r', hat', _⟩ | ⟨_, hat'⟩
        · exact ⟨G', r', hinv.setThread hown.outcome, hat'⟩
        · exact ⟨G', r, hinv.setThread hown.outcome, hat'⟩
      · exact ⟨G', r, hby.inv, hat.other hinv hby⟩

/-- Where a thread in a call is. -/
theorem CallAt.busy {r : ℕ ×ₗ ℕ} (hat : CallAt t sys G r) (hbusy : (sys.threads t).pc ≠ .idle) :
    (sys.threads t).pc.goal ≠ none ∨ (sys.threads t).pc.isFree = true := by
  cases hat with
  | late hlate =>
      revert hlate hbusy
      generalize (sys.threads t).pc = pc
      intro hbusy hlate
      cases pc with
      | idle => exact absurd rfl hbusy
      | unregisterSegment b after | unmapSegment b after =>
          cases after <;> first
            | exact Or.inr rfl
            | cases hlate
      | large | registerLarge => exact Or.inl (by simp [Pc.goal])
      | free | remote | release | unmapLarge => exact Or.inr rfl
      | _ => cases hlate
  | slow _ hgoal => exact Or.inl (by rw [hgoal]; simp)
  | small hpc | linking hpc | first hpc =>
      rw [hpc]
      exact Or.inl (by simp [Pc.goal])

/-- A call that does not return is left without a turn from some time on, or
makes its compare-exchange again at every turn. -/
theorem During.returns (h : During ps t call sys₀ sys) (hr : Reachable ps sys₀)
    {run : Nat → System} {label : Nat → Label} (hstart : run 0 = sys)
    (hrun : ∀ n, Step ps (run n) (label n) (run (n + 1)))
    (hbusy : ∀ n, ((run n).threads t).pc ≠ .idle) :
    ∃ m, ∀ n, m ≤ n → ∀ o, label n = .step t o →
      Retries ((run n).threads t).pc ((run (n + 1)).threads t).pc := by
  let R : System → ℕ ×ₗ ℕ → Prop := fun sys r => ∃ G, SysInv ps sys G ∧ CallAt t sys G r
  let counts : Nat → Prop := fun n => ∃ o, label n = .step t o ∧
    ¬ Retries ((run n).threads t).pc ((run (n + 1)).threads t).pc
  have hlowers : Ranking.Lowers run counts R := by
    constructor
    rintro n r ⟨G, hinv, hat⟩
    have hstep := hrun n
    by_cases hturn : ∃ o, label n = .step t o
    · obtain ⟨o, hlabel⟩ := hturn
      rw [hlabel] at hstep
      obtain ⟨s', th', G', hown, hnext⟩ := hinv.own_step hstep
      have hinv' := hinv.setThread hown.outcome
      simp only [counts, R, hnext]
      rcases hat.own hinv hown with ⟨r', hat', hlt⟩ | ⟨hretry, hat'⟩
      · exact ⟨r', ⟨G', hinv', hat'⟩, hlt.le, fun _ => hlt⟩
      · refine ⟨r, ⟨G', hinv', hat'⟩, le_rfl, ?_⟩
        rintro ⟨_, _, hnot⟩
        simp only [System.setThread, Function.update_self] at hnot
        exact absurd hretry hnot
    · rcases hinv.busy (hbusy n) hstep with ⟨o, _, _, _, hlabel, _⟩ | ⟨G', hby⟩
      · exact absurd ⟨o, hlabel⟩ hturn
      · refine ⟨r, ⟨G', hby.inv, hat.other hinv hby⟩, le_rfl, ?_⟩
        rintro ⟨o, hlabel, _⟩
        exact absurd ⟨o, hlabel⟩ hturn
  obtain ⟨G, r, hinv, hat⟩ := h.callAt hr
  obtain ⟨m, hm⟩ := hlowers.finite (n := 0) (r := r) ⟨G, hstart ▸ hinv, hstart ▸ hat⟩
  refine ⟨m, fun n hn o hlabel => ?_⟩
  by_contra hnot
  exact hm n hn ⟨o, hlabel, hnot⟩

end Calls

end HMalloc
