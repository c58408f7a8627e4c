import HMalloc.Process

/-!
What the functions of the override answer. They add to the calls of this allocator
what the standard asks of them: `posix_memalign` tells bad arguments from a lack of
memory and stores no null pointer, `operator new` returns none, and a request for
nothing gets a block. In every run of a process every answer keeps its contract.
-/

namespace HMalloc

open Bytes

/-- A live block that is aligned and long enough. -/
def Store.Block (s : Store) (alignment size p : Nat) : Prop :=
  alignment ∣ p ∧ size ≤ usableSize s p ∧ ∃ g, Live s p g

/-- The contract of each function. -/
def EntryPoint.Meets (ps : PageSize) (s : Store) : EntryPoint → Answer → Prop
  | .malloc size, .pointer p | .realloc _ size, .pointer p =>
      p = 0 ∨ s.Block allocAlign size p
  | .calloc nmemb size, .pointer p => p = 0 ∨ s.Block allocAlign (nmemb * size) p
  | .alignedAlloc alignment size, .pointer p | .memalign alignment size, .pointer p =>
      p = 0 ∨ s.Block alignment size p
  | .valloc size, .pointer p => p = 0 ∨ s.Block ps.bytes size p
  | .posixMemalign out alignment size, .stored out' p =>
      out' = out ∧ p ≠ 0 ∧ s.Block alignment (max size 1) p
  | .posixMemalign out alignment _, .error e =>
      e = .einval ↔ out = 0 ∨ alignment < 8 ∨ ¬ ∃ k, alignment = 2 ^ k
  | .mallocUsableSize p, .size n =>
      (∃ g, s.grants p = some g ∧ g.holder = .client ∧ n = g.usable) ∨
        (n = 0 ∧ ∀ g, s.grants p = some g → g.holder ≠ .client)
  | .new size, .pointer p => p ≠ 0 ∧ s.Block allocAlign (max size 1) p
  | .newAligned size alignment, .pointer p => p ≠ 0 ∧ s.Block alignment (max size 1) p
  | .new _, .badAlloc | .newAligned _ _, .badAlloc => True
  | .newNothrow size, .pointer p => p = 0 ∨ s.Block allocAlign (max size 1) p
  | .free _, .nothing | .delete _, .nothing => True
  | _, _ => False

theorem atLeastOne_eq (size : Nat) : atLeastOne size = max size 1 := by
  unfold atLeastOne
  split <;> omega

section Answers

variable {ps : PageSize} {real : Bool} {sys : System} {pr pr' : Process} {l : ProcessLabel}
  {a : Answer} {t : Nat} {e : EntryPoint}

/-- The answer to a call of this allocator. -/
theorem Answered.meets (h : Answered ps real sys t e a) : e.Meets ps sys.store a := by
  obtain ⟨call, sys₀, hreach, hstart, hreturns, rfl⟩ := h
  generalize (sys.threads t).result = p at hreturns
  have hcontract : (∀ ptr, call ≠ .free ptr) → p = 0 ∨ sys.store.Block call.alignment call.size p :=
    hreturns.contract hreach
  cases e with
  | free | delete => trivial
  | malloc | calloc | alignedAlloc | memalign | valloc =>
      cases hstart
      exact hcontract (by simp)
  | realloc ptr size =>
      rcases checkedRealloc_dispatch hstart with
        ⟨_, hcall⟩ | ⟨_, _, hcall⟩ | hcall | ⟨_, hcall⟩ <;> cases hcall
      · exact hcontract (by simp)
      · exact hcontract (by simp)
  | newNothrow size =>
      cases hstart
      have hblock := hcontract (by simp)
      rw [Call.size, atLeastOne_eq] at hblock
      exact hblock
  | new size =>
      cases hstart
      have hblock := hcontract (by simp)
      rw [Call.size, atLeastOne_eq] at hblock
      by_cases hp : p = 0
      · rw [show (EntryPoint.new size).finish p = .badAlloc from if_pos hp]
        trivial
      · rw [show (EntryPoint.new size).finish p = .pointer p from if_neg hp]
        exact ⟨hp, hblock.resolve_left hp⟩
  | newAligned size alignment =>
      cases hstart
      have hblock := hcontract (by simp)
      rw [Call.size, atLeastOne_eq] at hblock
      by_cases hp : p = 0
      · rw [show (EntryPoint.newAligned size alignment).finish p = .badAlloc from if_pos hp]
        trivial
      · rw [show (EntryPoint.newAligned size alignment).finish p = .pointer p from if_neg hp]
        exact ⟨hp, hblock.resolve_left hp⟩
  | posixMemalign out alignment size =>
      obtain ⟨hout, hlow, hpow, rfl⟩ := doPosixMemalign_hm (Option.some.inj hstart)
      have hblock := hcontract (by simp)
      rw [Call.size, atLeastOne_eq] at hblock
      by_cases hp : p = 0
      · -- The arguments were good, so the error is a lack of memory.
        rw [show (EntryPoint.posixMemalign out alignment size).finish p = .error .enomem from
          if_pos hp]
        refine iff_of_false (by simp) ?_
        rintro (hzero | hlt | hnot)
        · exact hout hzero
        · omega
        · exact hnot hpow
      · rw [show (EntryPoint.posixMemalign out alignment size).finish p = .stored out p from
          if_neg hp]
        exact ⟨rfl, hp, hblock.resolve_left hp⟩
  | mallocUsableSize p =>
      rcases checkedUsable_dispatch hstart with ⟨_, _, hcall⟩ | ⟨_, hcall⟩ | ⟨_, hcall⟩ <;>
        cases hcall

/-- An answer without a call. -/
theorem ReachableBy.meets_at_once (h : ReachableBy ps (TableFound ps) sys)
    (hok : EntryOk sys.store e) (hstart : e.start ps real sys.store = some (.answer a)) :
    e.Meets ps sys.store a := by
  cases e with
  | malloc | calloc | alignedAlloc | memalign | valloc | new | newNothrow | newAligned =>
      cases hstart
  | free p | delete p =>
      rcases checkedFree_dispatch hstart with ⟨_, _, ha⟩ | ha | ⟨_, ha⟩ <;> cases ha
      trivial
  | realloc p size =>
      rcases checkedRealloc_dispatch hstart with ⟨_, ha⟩ | ⟨_, _, ha⟩ | ha | ⟨_, ha⟩ <;> cases ha
      exact Or.inl rfl
  | posixMemalign out alignment size =>
      have hstart := Option.some.inj hstart
      unfold doPosixMemalign at hstart
      split at hstart
      · rename_i hout
        cases hstart
        exact iff_of_true rfl (Or.inl hout)
      · split at hstart
        · rename_i hbad
          cases hstart
          refine iff_of_true rfl (Or.inr ?_)
          rcases hbad with hlow | hbits
          · exact Or.inl hlow
          · exact Or.inr (isPow2_test.mp (Or.inr hbits))
        · cases hstart
  | mallocUsableSize p =>
      obtain ⟨G, hinv⟩ := h.reachable.inv
      rcases checkedUsable_dispatch hstart with ⟨hne, hours, ha⟩ | ⟨hnone, ha⟩ | ⟨_, ha⟩ <;>
        cases ha
      · obtain ⟨g, hg, hh⟩ := h.client_of_ours hok hne hours
        exact Or.inl ⟨g, hg, hh, hinv.data.inv.usableSize_eq hg⟩
      · refine Or.inr ⟨rfl, fun g hg hh => ?_⟩
        rcases hnone with hzero | hforeign
        · exact hinv.data.inv.grant_ne_zero hg hzero
        · cases hforeign.symm.trans (h.ours_of_client hg hh)

/-- Every answer keeps the contract of its function, in every run of a process in
which every registration of a region finds a table or is given its first one, and no
pointer of the real allocator that is passed in is in the window of a large region
shorter than a segment. -/
theorem override_answers_keep_contract (h : ProcessReachable ps real pr)
    (hstep : ProcessStep ps real pr l pr' (some a)) :
    ∃ t e, (l = .enter t e ∨ (∃ o, l = .step t o) ∧ pr.inside t = some e) ∧
      e.Meets ps pr'.sys.store a := by
  rcases (h.inv.step hstep).2 a rfl with ⟨t, e, hl, rfl, hok, hstart⟩ | ⟨t, e, hl, hanswered⟩
  · exact ⟨t, e, Or.inl hl, h.inv.reachable.meets_at_once hok hstart⟩
  · exact ⟨t, e, hl, hanswered.meets⟩

/-- A process has taken its first block and asks for its size. -/
theorem override_answers_keep_contract_size : ∃ pr n, ProcessReachable page4k true pr ∧
    ProcessStep page4k true pr (.enter 0 (.mallocUsableSize (2 ^ 43 + 63 * pageSize))) pr
      (some (.size n)) ∧
    EntryPoint.Meets page4k pr.sys.store (.mallocUsableSize (2 ^ 43 + 63 * pageSize))
      (.size n) := by
  obtain ⟨w, hrun, hcheck⟩ := schedule_reaches page4k (mallocReady page4k) (fun _ _ _ _ => ()) ()
    (firstMalloc 0 16)
    (fun w => w.sys.store.grants (2 ^ 43 + 63 * pageSize) ==
      some ⟨16, 16, .client, .small ⟨2 ^ 43, 63⟩ 0⟩ && (w.sys.threads 0).status == .running &&
      (w.sys.threads 0).pc == .idle)
    (fun _ _ => mallocReady_ok) (by decide +kernel)
  obtain ⟨pr, hpr, hsys⟩ := hrun.reachableBy.process true
  simp only [← hsys, Bool.and_eq_true, beq_iff_eq] at hcheck
  obtain ⟨⟨hg, hrunning⟩, hidle⟩ := hcheck
  have hours := hpr.inv.reachable.ours_of_client hg rfl
  have hstep : ProcessStep page4k true pr (.enter 0 (.mallocUsableSize (2 ^ 43 + 63 * pageSize)))
      pr (some (.size (usableSize pr.sys.store (2 ^ 43 + 63 * pageSize)))) := by
    refine ⟨⟨hrunning, hidle, Or.inr (Or.inl ⟨_, hg, rfl⟩)⟩, ?_⟩
    rw [Process.exec, EntryPoint.start, (RoutedHome.of_owns (by decide) hours true).usable]
    rfl
  obtain ⟨t, e, hl, hmeets⟩ := override_answers_keep_contract hpr hstep
  refine ⟨pr, _, hpr, hstep, ?_⟩
  rcases hl with hl | ⟨⟨o, hl⟩, _⟩ <;> cases hl
  exact hmeets

end Answers

end HMalloc
