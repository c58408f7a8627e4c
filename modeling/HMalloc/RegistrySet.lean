import HMalloc.Registry

/-!
The registry refines a finite set of region bases. Each operation is specified
once on a registry that satisfies its representation invariant; the statement
about whole sequences of calls follows by induction on the sequence.
-/

namespace HMalloc

theorem Registry.Ok.next_eq {r : Registry} (h : r.Ok) :
    nextSlot r.cap = Probe.cyclic r.cap := by
  obtain ⟨m, _, hm⟩ := h.cap_pow
  exact nextSlot_eq hm

theorem Registry.Ok.index_lt {r : Registry} (h : r.Ok) (key : Nat) :
    indexOf (r.cap - 1) key < r.cap := by
  obtain ⟨m, _, hm⟩ := h.cap_pow
  exact indexOf_lt hm key

theorem Registry.Ok.cap_ge {r : Registry} (h : r.Ok) : 1024 ≤ r.cap := by
  obtain ⟨m, hm, hcap⟩ := h.cap_pow
  rw [hcap, show 1024 = 2 ^ 10 by rfl]
  exact Nat.pow_le_pow_right (by omega) hm

/-- Some slot is empty, which is what every probe loop relies on. -/
def Registry.HasRoom (r : Registry) : Prop := ∃ j < r.cap, r.cells j = emptySlot

theorem Registry.Ok.room_of_load {r : Registry} (h : r.Ok)
    (hload : (r.size + r.tombs) * 10 ≤ r.cap * 7) : r.HasRoom := by
  have hcap := h.cap_ge
  apply exists_empty_slot
  rw [← h.size_eq, ← h.tombs_eq]
  omega

/-- The search of `region_owns` and `region_unregister`: it ends on the slot of
the key, or on an empty slot when the key is absent and there is one. -/
theorem Registry.Ok.findSlot_spec {r : Registry} (h : r.Ok) {k : Nat}
    (hroom : r.HasRoom ∨ r.Holds k) (hk : segmentSize ∣ k) :
    ∃ j < r.cap, findSlot r k = some j ∧
      ((r.Holds k ∧ r.cells j = k ∧ k ≠ emptySlot) ∨
        (¬ r.Holds k ∧ r.cells j = emptySlot)) := by
  unfold findSlot
  rw [h.next_eq]
  by_cases hlive : isLive k = true
  · obtain ⟨he, ht⟩ := isLive_iff.mp hlive
    by_cases hp : Probe.Present r.cells r.cap k
    · obtain ⟨j, hj, hcell⟩ := hp
      refine ⟨j, hj, h.sound.scan_present (h.index_lt k) he ht hj hcell, Or.inl ?_⟩
      exact ⟨⟨h.slots_ne, hlive, j, hj, hcell⟩, hcell, he⟩
    · have hroom := hroom.resolve_right (fun hh => hp hh.2.2)
      obtain ⟨j, hj, hscan, hempty, _⟩ := Probe.scan_absent (h.index_lt k) hroom hp
      exact ⟨j, hj, hscan, Or.inr ⟨fun hh => hp hh.2.2, hempty⟩⟩
  · -- Only null is left: an aligned key is never the tombstone.
    have hzero : k = emptySlot := by
      by_contra hne
      exact hlive (isLive_iff.mpr ⟨hne, dvd_ne_tomb hk⟩)
    obtain ⟨e, he, hempty⟩ := hroom.resolve_right (fun hh => hlive hh.2.1)
    have hsome : (Probe.scan (Probe.stopAt emptySlot k) (Probe.cyclic r.cap) r.cells
        r.cap (indexOf (r.cap - 1) k)).isSome :=
      (Probe.scan_isSome_iff _ _ (h.index_lt k)).mpr
        ⟨e, he, by simp [Probe.stopAt, hempty]⟩
    obtain ⟨j, hj⟩ := Option.isSome_iff_exists.mp hsome
    obtain ⟨t, _, hjt, hstop, _⟩ := Probe.scan_some (h.index_lt k) hj
    refine ⟨j, ?_, hj, Or.inr ⟨fun hh => hlive hh.2.1, ?_⟩⟩
    · rw [hjt]
      exact Nat.mod_lt _ (by have := h.cap_ge; omega)
    · simpa [Probe.stopAt, hzero] using hstop

theorem Registry.Ok.owns_spec {r : Registry} (h : r.Ok) {k : Nat}
    (hroom : r.HasRoom ∨ r.Holds k) (hk : segmentSize ∣ k) :
    ∃ b, regionOwns r k = some b ∧ (b = true ↔ r.Holds k) := by
  obtain ⟨j, _, hfind, hend⟩ := h.findSlot_spec hroom hk
  refine ⟨decide (r.cells j ≠ emptySlot), ?_, ?_⟩
  · simp [regionOwns, h.slots_ne, hfind]
  · rcases hend with ⟨hh, hcell, hne⟩ | ⟨hh, hcell⟩
    · simp [hcell, hne, hh]
    · simp [hcell, hh]

theorem holds_iff_of_update {r : Registry} {j v k : Nat} {cells : Nat → Nat}
    (hcells : cells = Function.update r.cells j v) (hj : j < r.cap)
    (hold : r.cells j ≠ k) :
    Probe.Present cells r.cap k ↔ v = k ∨ Probe.Present r.cells r.cap k := by
  subst hcells
  constructor
  · rintro ⟨i, hi, hcell⟩
    by_cases hij : i = j
    · subst hij
      rw [Function.update_self] at hcell
      exact Or.inl hcell
    · rw [Function.update_of_ne hij] at hcell
      exact Or.inr ⟨i, hi, hcell⟩
  · rintro (rfl | ⟨i, hi, hcell⟩)
    · exact ⟨j, hj, Function.update_self j v r.cells⟩
    · have hij : i ≠ j := by
        rintro rfl
        exact hold hcell
      exact ⟨i, hi, by rw [Function.update_of_ne hij, hcell]⟩

/-- `region_unregister` removes the key and nothing else; an absent key leaves
the registry as it is. -/
theorem Registry.Ok.unregister_spec {r : Registry} (h : r.Ok) {k : Nat}
    (hroom : r.HasRoom ∨ r.Holds k) (hk : segmentSize ∣ k) :
    ∃ r', regionUnregister r k = some r' ∧ r'.Ok ∧ r'.cap = r.cap ∧
      r'.size + r'.tombs = r.size + r.tombs ∧
      (∀ k', r'.Holds k' ↔ r.Holds k' ∧ k' ≠ k) ∧
      (¬ r.Holds k → r' = r) := by
  obtain ⟨j, hj, hfind, hend⟩ := h.findSlot_spec hroom hk
  rcases hend with ⟨hh, hcell, hne⟩ | ⟨hh, hcell⟩
  · have hnz : r.cells j ≠ emptySlot := by rw [hcell]; exact hne
    have hlive : isLive (r.cells j) = true := by rw [hcell]; exact hh.2.1
    have hnt : (r.cells j == tomb) = false := by
      simpa using (isLive_iff.mp hlive).2
    have hl := liveSlots_update r.cells hj tomb
    have ht := tombSlots_update r.cells hj tomb
    rw [hlive, not_live_tomb] at hl
    rw [hnt] at ht
    simp only [Bool.toNat_true, Bool.toNat_false, beq_self_eq_true, Nat.add_zero] at hl ht
    have hsize := h.size_eq
    have htombs := h.tombs_eq
    refine ⟨{ r with cells := Function.update r.cells j tomb, size := r.size - 1,
                     tombs := r.tombs + 1 },
      by simp [regionUnregister, h.slots_ne, hfind, hnz], ?_, rfl, ?_, ?_, ?_⟩
    · refine ⟨h.slots_ne, h.cap_pow, h.sound.delete (by decide), ?_, ?_, ?_⟩
      · intro i hi hlive'
        by_cases hij : i = j
        · subst hij
          simp [Function.update_self, not_live_tomb] at hlive'
        · simp only [Function.update_of_ne hij] at hlive' ⊢
          exact h.keys i hi hlive'
      · simp only
        omega
      · simp only
        omega
    · simp only
      omega
    · intro k'
      constructor
      · rintro ⟨_, hlive', i, hi, hcell'⟩
        simp only at hi hcell'
        by_cases hij : i = j
        · subst hij
          rw [Function.update_self] at hcell'
          rw [← hcell', not_live_tomb] at hlive'
          cases hlive'
        · rw [Function.update_of_ne hij] at hcell'
          refine ⟨⟨h.slots_ne, hlive', i, hi, hcell'⟩, ?_⟩
          rintro rfl
          exact hij (h.sound.inj i hi j hj (hcell'.trans hcell.symm)
            (by rw [hcell']; exact hne) (by rw [hcell']; exact (isLive_iff.mp hlive').2))
      · rintro ⟨⟨_, hlive', i, hi, hcell'⟩, hkk⟩
        refine ⟨h.slots_ne, hlive', i, hi, ?_⟩
        have hij : i ≠ j := by
          rintro rfl
          exact hkk (hcell'.symm.trans hcell)
        simp only [Function.update_of_ne hij]
        exact hcell'
    · intro hnot
      exact absurd hh hnot
  · refine ⟨r, by simp [regionUnregister, h.slots_ne, hfind, hcell], h, rfl, rfl, ?_, ?_⟩
    · intro k'
      constructor
      · intro h'
        refine ⟨h', ?_⟩
        rintro rfl
        exact hh h'
      · exact And.left
    · exact fun _ => rfl

/-- The loop of `region_register` follows the search and, on the way, picks up
the first tombstone. -/
private theorem registerProbe_of_scan {cells : Nat → Nat} {cap key fuel i j : Nat}
    (firstTomb : Option Nat) (hi : i < cap) (hnext : nextSlot cap = Probe.cyclic cap)
    (h : Probe.scan (Probe.stopAt emptySlot key) (Probe.cyclic cap) cells fuel i = some j) :
    if cells j = emptySlot then
      ∃ found, registerProbe cells cap key fuel i firstTomb = some (.free j found) ∧
        (found = firstTomb ∨
          ∃ u < fuel, found = some ((i + u) % cap) ∧ cells ((i + u) % cap) = tomb ∧
            ∀ v < u, cells ((i + v) % cap) ≠ emptySlot)
    else registerProbe cells cap key fuel i firstTomb = some .present := by
  induction fuel generalizing i firstTomb with
  | zero => simp [Probe.scan] at h
  | succ fuel ih =>
      unfold Probe.scan at h
      unfold registerProbe
      by_cases hz : cells i = emptySlot
      · rw [if_pos (by simp [Probe.stopAt, hz])] at h
        cases h
        rw [if_pos hz, if_pos hz]
        exact ⟨firstTomb, rfl, Or.inl rfl⟩
      · rw [if_neg hz]
        by_cases hkey : cells i = key
        · rw [if_pos (by simp [Probe.stopAt, hkey])] at h
          cases h
          rw [if_neg hz, if_pos hkey]
        · rw [if_neg (by simp [Probe.stopAt, hz, hkey])] at h
          rw [if_neg hkey, hnext]
          have hlt : Probe.cyclic cap i < cap := Nat.mod_lt _ (by omega)
          have hshift (u : Nat) : (Probe.cyclic cap i + u) % cap = (i + (u + 1)) % cap := by
            unfold Probe.cyclic
            rw [Nat.mod_add_mod]
            congr 1
            omega
          have hrec := ih
            (if cells i = tomb ∧ firstTomb = none then some i else firstTomb) hlt h
          split at hrec
          · rename_i hend
            rw [if_pos hend]
            obtain ⟨found, hrun, hfound⟩ := hrec
            refine ⟨found, hrun, ?_⟩
            rcases hfound with hsame | ⟨u, hu, hfu, htomb, hpath⟩
            · split at hsame
              · rename_i ht
                refine Or.inr ⟨0, by omega, ?_, ?_, by omega⟩
                · rw [hsame, Nat.add_zero, Nat.mod_eq_of_lt hi]
                · rw [Nat.add_zero, Nat.mod_eq_of_lt hi]
                  exact ht.1
              · exact Or.inl hsame
            · refine Or.inr ⟨u + 1, by omega, by rw [hfu, hshift],
                by rw [← hshift]; exact htomb, ?_⟩
              intro v hv
              cases v with
              | zero =>
                  rw [Nat.add_zero, Nat.mod_eq_of_lt hi]
                  exact hz
              | succ v =>
                  rw [← hshift]
                  exact hpath v (by omega)
          · rename_i hend
            rw [if_neg hend]
            exact hrec

/-- Storing a new key in a free slot `j` of its probe path, with the counters
adjusted as `region_register` adjusts them. -/
private theorem store_ok {r : Registry} (h : r.Ok) {k j : Nat} (newTombs : Nat)
    (hkey : IsKey k) (habs : ¬ Probe.Present r.cells r.cap k) (hj : j < r.cap)
    (hfree : isLive (r.cells j) = false)
    (hreach : Probe.Reaches emptySlot r.cells r.cap (indexOf (r.cap - 1) k) j)
    (htombs : newTombs + (r.cells j == tomb).toNat = r.tombs) :
    let r' := { r with cells := Function.update r.cells j k, tombs := newTombs,
                       size := r.size + 1 }
    r'.Ok ∧ ∀ k', r'.Holds k' ↔ k' = k ∨ r.Holds k' := by
  have hlive := hkey.live
  obtain ⟨hne, hnt⟩ := isLive_iff.mp hlive
  have hl := liveSlots_update r.cells hj k
  have ht := tombSlots_update r.cells hj k
  have hkt : (k == tomb) = false := by simpa using hnt
  rw [hfree, hlive] at hl
  rw [hkt] at ht
  simp only [Bool.toNat_true, Bool.toNat_false, Nat.add_zero] at hl ht
  have hsize := h.size_eq
  have htombs' := h.tombs_eq
  refine ⟨⟨h.slots_ne, h.cap_pow, h.sound.insert hne habs hreach, ?_, ?_, ?_⟩, ?_⟩
  · intro i hi hlive'
    by_cases hij : i = j
    · subst hij
      simpa only [Function.update_self] using hkey
    · simp only [Function.update_of_ne hij] at hlive' ⊢
      exact h.keys i hi hlive'
  · simp only
    omega
  · simp only
    omega
  · intro k'
    by_cases hlive' : isLive k' = true
    · have hold : r.cells j ≠ k' := by
        rintro rfl
        simp [hfree] at hlive'
      have hiff := holds_iff_of_update (r := r) (v := k) rfl hj hold
      simp only [Registry.Holds, hiff, hlive', h.slots_ne, ne_eq, not_false_eq_true,
        true_and]
      constructor
      · rintro (rfl | h')
        · exact Or.inl rfl
        · exact Or.inr h'
      · rintro (rfl | h')
        · exact Or.inl rfl
        · exact Or.inr h'
    · simp only [Registry.Holds, hlive', false_and, and_false, or_false, Bool.false_eq_true]
      constructor
      · exact False.elim
      · rintro rfl
        exact hlive' hlive

/-- The insertion part of `region_register` on a table with room, or of a key
that is there: the key is there afterwards, nothing else changes, and at most
one empty slot is used. -/
theorem Registry.Ok.registerKey_spec {r : Registry} (h : r.Ok) {k : Nat}
    (hroom : r.HasRoom ∨ r.Holds k) (hkey : IsKey k) :
    ∃ r', registerKey r k = some r' ∧ r'.Ok ∧ r'.cap = r.cap ∧
      r'.size + r'.tombs ≤ r.size + r.tombs + 1 ∧
      (∀ k', r'.Holds k' ↔ k' = k ∨ r.Holds k') ∧
      (r.Holds k → r' = r) := by
  have hlive := hkey.live
  obtain ⟨hne, hnt⟩ := isLive_iff.mp hlive
  by_cases hp : Probe.Present r.cells r.cap k
  · obtain ⟨j, hj, hcell⟩ := hp
    have hscan := h.sound.scan_present (h.index_lt k) hne hnt hj hcell
    have hprobe := registerProbe_of_scan none (h.index_lt k) h.next_eq hscan
    rw [if_neg (by rw [hcell]; exact hne)] at hprobe
    have hholds : r.Holds k := ⟨h.slots_ne, hlive, j, hj, hcell⟩
    refine ⟨r, by simp [registerKey, hprobe], h, rfl, by omega, ?_, fun _ => rfl⟩
    intro k'
    constructor
    · exact Or.inr
    · rintro (rfl | h')
      · exact hholds
      · exact h'
  · have hroom := hroom.resolve_right (fun hh => hp hh.2.2)
    obtain ⟨j, hj, hscan, hempty, hreach⟩ := Probe.scan_absent (h.index_lt k) hroom hp
    have hprobe := registerProbe_of_scan none (h.index_lt k) h.next_eq hscan
    rw [if_pos hempty] at hprobe
    obtain ⟨found, hrun, hfound⟩ := hprobe
    have hnot : r.Holds k → False := fun hh => hp hh.2.2
    rcases hfound with rfl | ⟨u, hu, rfl, htomb, hpath⟩
    · have hstore := store_ok h r.tombs hkey hp hj
        (by rw [hempty]; decide) hreach (by rw [hempty]; rfl)
      refine ⟨_, by simp [registerKey, hrun], hstore.1, rfl, by simp only; omega,
        hstore.2, fun hh => (hnot hh).elim⟩
    · have hslot : (indexOf (r.cap - 1) k + u) % r.cap < r.cap :=
        Nat.mod_lt _ (by have := h.cap_ge; omega)
      have hpos : 1 ≤ r.tombs := by
        rw [h.tombs_eq]
        exact List.countP_pos_iff.mpr
          ⟨_, List.mem_range.mpr hslot, by simpa using htomb⟩
      have hstore := store_ok h (r.tombs - 1) hkey hp hslot
        (by rw [htomb]; exact not_live_tomb) ⟨u, hu, rfl, hpath⟩
        (by rw [htomb]; simp only [beq_self_eq_true, Bool.toNat_true]; omega)
      refine ⟨_, by simp [registerKey, hrun], hstore.1, rfl, by simp only; omega,
        hstore.2, fun hh => (hnot hh).elim⟩

private theorem registerProbe_none {cells : Nat → Nat} {cap key fuel i : Nat}
    (firstTomb : Option Nat) (hnext : nextSlot cap = Probe.cyclic cap)
    (h : Probe.scan (Probe.stopAt emptySlot key) (Probe.cyclic cap) cells fuel i = none) :
    registerProbe cells cap key fuel i firstTomb = none := by
  induction fuel generalizing i firstTomb with
  | zero => rfl
  | succ fuel ih =>
      rw [Probe.scan] at h
      split at h
      · cases h
      · rename_i hstop
        simp only [Probe.stopAt, Bool.or_eq_true, beq_iff_eq, not_or] at hstop
        rw [registerProbe, if_neg hstop.1, if_neg hstop.2, hnext]
        exact ih _ h

/-- Without room, no loop that looks for an absent key ends. -/
theorem Registry.Ok.search_absent_full {r : Registry} (h : r.Ok) (hfull : ¬ r.HasRoom) {k : Nat}
    (hk : segmentSize ∣ k) (habs : ¬ r.Holds k) :
    findSlot r k = none ∧ registerKey r k = none := by
  have hscan : Probe.scan (Probe.stopAt emptySlot k) (Probe.cyclic r.cap) r.cells r.cap
      (indexOf (r.cap - 1) k) = none := by
    rw [← Option.not_isSome_iff_eq_none, Probe.scan_isSome_iff _ _ (h.index_lt k)]
    rintro ⟨j, hj, hstop⟩
    simp only [Probe.stopAt, Bool.or_eq_true, beq_iff_eq] at hstop
    rcases hstop with hempty | hcell
    · exact hfull ⟨j, hj, hempty⟩
    · by_cases hzero : k = emptySlot
      · exact hfull ⟨j, hj, hcell.trans hzero⟩
      · exact habs ⟨h.slots_ne, isLive_iff.mpr ⟨hzero, dvd_ne_tomb hk⟩, j, hj, hcell⟩
  constructor
  · rw [findSlot, h.next_eq, hscan]
  · simp [registerKey, registerProbe_none none h.next_eq hscan]

/-- `raw_insert` of a new key into a table with room and without tombstones. -/
theorem rawInsert_spec {cells : Nat → Nat} {cap m k : Nat} (hcap : cap = 2 ^ m)
    (hs : Probe.Sound emptySlot tomb (indexOf (cap - 1)) cells cap)
    (hroom : ∃ j < cap, cells j = emptySlot) (hk : isLive k = true)
    (habs : ¬ Probe.Present cells cap k) :
    ∃ j < cap, cells j = emptySlot ∧
      rawInsert cells cap k = some (Function.update cells j k) ∧
      Probe.Sound emptySlot tomb (indexOf (cap - 1)) (Function.update cells j k) cap := by
  have hhome := indexOf_lt hcap k
  obtain ⟨e, he, hempty⟩ := hroom
  have hsome := (Probe.scan_isSome_iff (· == emptySlot) cells hhome).mpr
    ⟨e, he, by simpa using hempty⟩
  obtain ⟨j, hj⟩ := Option.isSome_iff_exists.mp hsome
  obtain ⟨t, ht, hjt, hstop, hbefore⟩ := Probe.scan_some hhome hj
  have hjlt : j < cap := by
    rw [hjt]
    exact Nat.mod_lt _ (by omega)
  refine ⟨j, hjlt, by simpa using hstop, ?_, ?_⟩
  · simp [rawInsert, nextSlot_eq hcap, hj]
  · refine hs.insert (isLive_iff.mp hk).1 habs ⟨t, ht, hjt, ?_⟩
    intro u hu
    simpa using hbefore u hu

/-- What the rehash loop has built after `n` old slots: a table without
tombstones that holds exactly the keys of these slots. -/
structure Rehashed (old fresh : Nat → Nat) (newCap n : Nat) : Prop where
  sound : Probe.Sound emptySlot tomb (indexOf (newCap - 1)) fresh newCap
  from_old : ∀ j < newCap, fresh j ≠ emptySlot →
    isLive (fresh j) = true ∧ ∃ i < n, old i = fresh j
  to_new : ∀ i < n, isLive (old i) = true → Probe.Present fresh newCap (old i)
  count : liveSlots fresh newCap = liveSlots old n

theorem Rehashed.no_tomb {old fresh : Nat → Nat} {newCap n : Nat}
    (h : Rehashed old fresh newCap n) : tombSlots fresh newCap = 0 := by
  apply List.countP_eq_zero.mpr
  intro j hj htomb
  have heq : fresh j = tomb := by simpa using htomb
  have hlive := (h.from_old j (List.mem_range.mp hj) (by rw [heq]; decide)).1
  rw [heq, not_live_tomb] at hlive
  cases hlive

theorem liveSlots_succ (cells : Nat → Nat) (n : Nat) :
    liveSlots cells (n + 1) = liveSlots cells n + (isLive (cells n)).toNat := by
  unfold liveSlots
  rw [List.range_succ, List.countP_append, List.countP_singleton]
  cases isLive (cells n) <;> rfl

theorem liveSlots_mono (cells : Nat → Nat) {n n' : Nat} (h : n ≤ n') :
    liveSlots cells n ≤ liveSlots cells n' := by
  induction n', h using Nat.le_induction with
  | base => exact Nat.le_refl _
  | succ n' _ ih =>
      rw [liveSlots_succ]
      omega

/-- One round of the rehash loop. Only a live old slot is copied, and it is a
new key because the old table holds no key twice. -/
private theorem rehash_step {old fresh : Nat → Nat} {newCap m n oldCap : Nat}
    (hcap : newCap = 2 ^ m) (hr : Rehashed old fresh newCap n) (hn : n < oldCap)
    (hold : ∀ i < oldCap, ∀ j < oldCap, old i = old j → isLive (old i) = true → i = j)
    (hlive : isLive (old n) = true) (hfit : liveSlots old oldCap < newCap) :
    ∃ fresh', rawInsert fresh newCap (old n) = some fresh' ∧
      Rehashed old fresh' newCap (n + 1) := by
  have hmono := liveSlots_mono old (show n + 1 ≤ oldCap by omega)
  rw [liveSlots_succ, hlive, Bool.toNat_true] at hmono
  have hroom : ∃ j < newCap, fresh j = emptySlot := by
    apply exists_empty_slot
    rw [hr.no_tomb, hr.count]
    omega
  have habs : ¬ Probe.Present fresh newCap (old n) := by
    rintro ⟨j, hj, hcell⟩
    obtain ⟨_, i, hi, heq⟩ := hr.from_old j hj (by rw [hcell]; exact (isLive_iff.mp hlive).1)
    have := hold n hn i (by omega) (hcell.symm.trans heq.symm) hlive
    omega
  obtain ⟨j, hj, hempty, hrun, hsound⟩ := rawInsert_spec hcap hr.sound hroom hlive habs
  refine ⟨_, hrun, hsound, ?_, ?_, ?_⟩
  · intro i hi hne
    by_cases hij : i = j
    · subst hij
      rw [Function.update_self]
      exact ⟨hlive, n, by omega, rfl⟩
    · rw [Function.update_of_ne hij] at hne ⊢
      obtain ⟨hl, i', hi', heq⟩ := hr.from_old i hi hne
      exact ⟨hl, i', by omega, heq⟩
  · intro i hi hl
    by_cases hin : i = n
    · subst hin
      exact ⟨j, hj, Function.update_self j _ fresh⟩
    · obtain ⟨i', hi', hcell⟩ := hr.to_new i (by omega) hl
      have hne : i' ≠ j := by
        rintro rfl
        exact (isLive_iff.mp hl).1 (hcell.symm.trans hempty)
      exact ⟨i', hi', by rw [Function.update_of_ne hne, hcell]⟩
  · have hup := liveSlots_update fresh hj (old n)
    rw [hempty, hlive, hr.count, show isLive emptySlot = false by decide] at hup
    rw [liveSlots_succ, hlive]
    simpa using hup

/-- The whole loop copies the live slots, whatever the sizes of the tables, as
long as the new one has more slots than there are keys. -/
theorem rehash_spec {old : Nat → Nat} {newCap m oldCap : Nat} (hcap : newCap = 2 ^ m)
    (hold : ∀ i < oldCap, ∀ j < oldCap, old i = old j → isLive (old i) = true → i = j)
    (hfit : liveSlots old oldCap < newCap) :
    ∃ fresh, rehash old newCap oldCap = some fresh ∧ Rehashed old fresh newCap oldCap := by
  have hloop : ∀ n ≤ oldCap, ∃ fresh, rehash old newCap n = some fresh ∧
      Rehashed old fresh newCap n := by
    intro n
    induction n with
    | zero =>
        intro _
        refine ⟨_, rfl, Probe.sound_empty, fun _ _ hne => absurd rfl hne, by omega, ?_⟩
        have hzero : (List.range newCap).countP (fun _ => isLive emptySlot) = 0 := by
          apply List.countP_eq_zero.mpr
          intro _ _
          decide
        simpa [liveSlots] using hzero
    | succ n ih =>
        intro hn
        obtain ⟨fresh, hrun, hr⟩ := ih (by omega)
        simp only [rehash, hrun, Option.bind_eq_bind, Option.bind_some]
        by_cases hlive : isLive (old n) = true
        · rw [if_pos (isLive_iff.mp hlive)]
          exact rehash_step hcap hr (by omega) hold hlive hfit
        · rw [if_neg (fun h => hlive (isLive_iff.mpr h))]
          refine ⟨fresh, rfl, hr.sound, ?_, ?_, ?_⟩
          · intro j hj hne
            obtain ⟨hl, i, hi, heq⟩ := hr.from_old j hj hne
            exact ⟨hl, i, by omega, heq⟩
          · intro i hi hl
            have hin : i ≠ n := by
              rintro rfl
              exact hlive hl
            exact hr.to_new i (by omega) hl
          · rw [liveSlots_succ, hr.count]
            simp [hlive]
  exact hloop oldCap (Nat.le_refl _)

/-- A registry before its first table, or one that satisfies the invariant. -/
def Registry.Inv (r : Registry) : Prop :=
  (r.slots = 0 ∧ r.cap = 0 ∧ r.size = 0 ∧ r.tombs = 0) ∨ r.Ok

theorem Registry.inv_init : Registry.init.Inv := Or.inl ⟨rfl, rfl, rfl, rfl⟩

section Growth

variable {σ : Type} (src : TableSource σ)

/-- A successful `grow_locked` keeps the set of keys, clears the tombstones and
has the requested capacity. -/
theorem growLocked_ok {r : Registry} (hinv : r.Inv) (s : σ) (newCap : Nat) {m : Nat}
    (hm : 10 ≤ m) (hcap : newCap = 2 ^ m) (hfit : r.size < newCap)
    (halloc : (src.alloc s newCap).1 ≠ 0) :
    ∃ s' r', growLocked src s r newCap = some (s', r') ∧ r'.Ok ∧ r'.cap = newCap ∧
      r'.size = r.size ∧ r'.tombs = 0 ∧ ∀ k, r'.Holds k ↔ r.Holds k := by
  have hsize : r.size = liveSlots r.cells r.cap := by
    rcases hinv with ⟨_, hc, hz, _⟩ | hok
    · rw [hz, hc]
      rfl
    · exact hok.size_eq
  have hinj : ∀ i < r.cap, ∀ j < r.cap, r.cells i = r.cells j →
      isLive (r.cells i) = true → i = j := by
    rcases hinv with ⟨_, hc, _, _⟩ | hok
    · intro i hi
      omega
    · intro i hi j hj heq hlive
      obtain ⟨hne, hnt⟩ := isLive_iff.mp hlive
      exact hok.sound.inj i hi j hj heq hne hnt
  have hkeys : ∀ j < r.cap, isLive (r.cells j) = true → IsKey (r.cells j) := by
    rcases hinv with ⟨_, hc, _, _⟩ | hok
    · intro j hj
      omega
    · exact hok.keys
  obtain ⟨fresh, hrun, hr⟩ := rehash_spec hcap hinj (by rw [← hsize]; exact hfit)
  refine ⟨_, { r with slots := (src.alloc s newCap).1, cells := fresh, cap := newCap, tombs := 0 },
    by simp [growLocked, halloc, hrun]; rfl, ?_, rfl, rfl, rfl, ?_⟩
  · refine ⟨halloc, ⟨m, hm, hcap⟩, hr.sound, ?_, ?_, ?_⟩
    · intro j hj hlive
      obtain ⟨hl, i, hi, heq⟩ := hr.from_old j hj (isLive_iff.mp hlive).1
      change IsKey (fresh j)
      rw [← heq] at hl ⊢
      exact hkeys i hi hl
    · exact hsize.trans hr.count.symm
    · exact hr.no_tomb.symm
  · intro k
    constructor
    · rintro ⟨_, hlive, j, hj, hcell⟩
      simp only at hj hcell
      obtain ⟨_, i, hi, heq⟩ := hr.from_old j hj
        (by rw [hcell]; exact (isLive_iff.mp hlive).1)
      refine ⟨?_, hlive, i, hi, heq.trans hcell⟩
      rcases hinv with ⟨_, hc, _, _⟩ | hok
      · omega
      · exact hok.slots_ne
    · rintro ⟨_, hlive, j, hj, hcell⟩
      refine ⟨halloc, hlive, ?_⟩
      have := hr.to_new j hj (by rw [hcell]; exact hlive)
      rwa [hcell] at this

/-- A failed `grow_locked` keeps the old table. -/
theorem growLocked_fail {r : Registry} (s : σ) {newCap : Nat}
    (halloc : (src.alloc s newCap).1 = 0) :
    growLocked src s r newCap = some ((src.alloc s newCap).2, r) := by
  simp [growLocked, halloc]

/-- Tables can be allocated. -/
def TableSource.Succeeds : Prop := ∀ s cap, 0 < cap → (src.alloc s cap).1 ≠ 0

/-- At most seven tenths of the slots are occupied. -/
def Registry.Light (r : Registry) : Prop := (r.size + r.tombs) * 10 ≤ r.cap * 7

/-- After the two growth checks of `region_register` there is a table, the set
is the same, and one more slot may be occupied. -/
private theorem register_grow (hsrc : src.Succeeds) {r : Registry} (hinv : r.Inv)
    (hlight : r.Light) (s : σ) :
    ∃ s₁ r₁ s₂ r₂,
      growIfMissing src s r = some (s₁, r₁) ∧ growIfLoaded src s₁ r₁ = some (s₂, r₂) ∧
      r₂.Ok ∧ (r₂.size + r₂.tombs + 1) * 10 ≤ r₂.cap * 7 ∧
      ∀ k, r₂.Holds k ↔ r.Holds k := by
  have hfirst : ∃ s₁ r₁,
      growIfMissing src s r = some (s₁, r₁) ∧ r₁.Ok ∧ r₁.Light ∧ ∀ k, r₁.Holds k ↔ r.Holds k := by
    rcases hinv with ⟨hslots, hc, hz, ht⟩ | hok
    · obtain ⟨s', r', hrun, hok', hcap', hsize', htombs', hholds'⟩ :=
        growLocked_ok src (Or.inl ⟨hslots, hc, hz, ht⟩) s 1024 (m := 10)
          (by omega) rfl (by omega) (hsrc s 1024 (by omega))
      refine ⟨s', r', by rw [growIfMissing, if_pos hslots, hrun], hok', ?_, hholds'⟩
      unfold Registry.Light
      omega
    · exact ⟨s, r, if_neg hok.slots_ne, hok, hlight, fun _ => Iff.rfl⟩
  obtain ⟨s₁, r₁, hrun₁, hok₁, hlight₁, hholds₁⟩ := hfirst
  have hcap₁ := hok₁.cap_ge
  by_cases hload : (r₁.size + r₁.tombs + 1) * 10 ≥ r₁.cap * 7
  · obtain ⟨m, hm, hpow⟩ := hok₁.cap_pow
    have hnew : ∃ m', 10 ≤ m' ∧
        (if r₁.size * 2 ≥ r₁.cap then r₁.cap * 2 else r₁.cap) = 2 ^ m' := by
      split
      · exact ⟨m + 1, by omega, by rw [hpow, Nat.pow_succ]⟩
      · exact ⟨m, hm, hpow⟩
    obtain ⟨m', hm', hpow'⟩ := hnew
    have hfit : r₁.size < (if r₁.size * 2 ≥ r₁.cap then r₁.cap * 2 else r₁.cap) := by
      unfold Registry.Light at hlight₁
      split <;> omega
    obtain ⟨s₂, r₂, hrun₂, hok₂, hcap₂, hsize₂, htombs₂, hholds₂⟩ :=
      growLocked_ok src (Or.inr hok₁) s₁ _ hm' hpow' hfit (hsrc s₁ _ (by omega))
    refine ⟨s₁, r₁, s₂, r₂, hrun₁, by rw [growIfLoaded, if_pos hload, hrun₂], hok₂, ?_, ?_⟩
    · unfold Registry.Light at hlight₁
      rw [hcap₂, hsize₂, htombs₂]
      split <;> omega
    · intro k
      rw [hholds₂, hholds₁]
  · exact ⟨s₁, r₁, s₁, r₁, hrun₁, if_neg hload, hok₁, by omega, hholds₁⟩

/-- `region_register` with tables that can be allocated: the key is in the set
afterwards, nothing else changes. -/
theorem regionRegister_spec (hsrc : src.Succeeds) {r : Registry} (hinv : r.Inv)
    (hlight : r.Light) (s : σ) {k : Nat} (hkey : IsKey k) :
    ∃ s' r', regionRegister src s r k = some (s', r') ∧ r'.Ok ∧ r'.Light ∧
      ∀ k', r'.Holds k' ↔ k' = k ∨ r.Holds k' := by
  obtain ⟨s₁, r₁, s₂, r₂, hrun₁, hrun₂, hok₂, hload₂, hholds₂⟩ :=
    register_grow src hsrc hinv hlight s
  obtain ⟨r₃, hrun₃, hok₃, hcap₃, hcount₃, hholds₃, _⟩ :=
    hok₂.registerKey_spec (Or.inl (hok₂.room_of_load (by omega))) hkey
  refine ⟨s₂, r₃, ?_, hok₃, ?_, ?_⟩
  · simp [regionRegister, hrun₁, hrun₂, hok₂.slots_ne, hrun₃]
  · unfold Registry.Light
    omega
  · intro k'
    rw [hholds₃, hholds₂]

end Growth

/-- A call of the registry. -/
inductive RegistryOp where
  | register (key : Nat)
  | unregister (key : Nat)
  | owns (key : Nat)
  deriving DecidableEq

def RegistryOp.key : RegistryOp → Nat
  | .register k | .unregister k | .owns k => k

/-- One call; the result of a query does not change the registry. -/
def RegistryOp.run {σ : Type} (src : TableSource σ) (s : σ) (r : Registry) :
    RegistryOp → Option (σ × Registry)
  | .register k => regionRegister src s r k
  | .unregister k => (regionUnregister r k).map (fun r' => (s, r'))
  | .owns k => (regionOwns r k).map (fun _ => (s, r))

/-- A sequence of calls from the empty registry. -/
def runRegistry {σ : Type} (src : TableSource σ) (s : σ) (ops : List RegistryOp) :
    Option (σ × Registry) :=
  ops.foldlM (fun (s, r) op => op.run src s r) (s, Registry.init)

/-- The abstract registry: a finite set of keys. -/
def RegistryOp.apply (set : Finset Nat) : RegistryOp → Finset Nat
  | .register k => insert k set
  | .unregister k => set.erase k
  | .owns _ => set

def registered (ops : List RegistryOp) : Finset Nat := ops.foldl RegistryOp.apply ∅

/-- The set of a sequence of calls: the keys registered and not unregistered
since. -/
theorem mem_registered_iff (ops : List RegistryOp) (k : Nat) :
    k ∈ registered ops ↔
      ∃ earlier later, ops = earlier ++ .register k :: later ∧ .unregister k ∉ later := by
  induction ops using List.reverseRecOn with
  | nil => simp [registered]
  | append_singleton ops op ih =>
      have hlast : registered (ops ++ [op]) = op.apply (registered ops) := by
        simp [registered]
      -- A decomposition of `ops ++ [op]` at a registration ends with `op` itself
      -- or is one of `ops` with `op` behind it.
      have hsplit : (∃ earlier later, ops ++ [op] = earlier ++ .register k :: later ∧
            RegistryOp.unregister k ∉ later) ↔
          op = .register k ∨ (op ≠ .unregister k ∧
            ∃ earlier later, ops = earlier ++ .register k :: later ∧
              RegistryOp.unregister k ∉ later) := by
        constructor
        · rintro ⟨earlier, later, heq, hnot⟩
          rcases List.eq_nil_or_concat later with rfl | ⟨later, last, rfl⟩
          · have hop := List.append_inj_right' heq rfl
            exact Or.inl (by simpa using hop)
          · rw [List.concat_eq_append] at heq hnot
            rw [← List.cons_append, ← List.append_assoc] at heq
            obtain ⟨hops, hop⟩ := List.append_inj' heq rfl
            have hop' : op = last := by simpa using hop
            subst hop'
            simp only [List.mem_append, List.mem_singleton, not_or] at hnot
            exact Or.inr ⟨fun h => hnot.2 h.symm, earlier, later, hops, hnot.1⟩
        · rintro (rfl | ⟨hne, earlier, later, rfl, hnot⟩)
          · exact ⟨ops, [], rfl, by simp⟩
          · refine ⟨earlier, later ++ [op], by simp, ?_⟩
            simp only [List.mem_append, List.mem_singleton, not_or]
            exact ⟨hnot, fun h => hne h.symm⟩
      rw [hlast, hsplit, ← ih]
      cases op with
      | register k' =>
          simp only [RegistryOp.apply, Finset.mem_insert, RegistryOp.register.injEq, ne_eq,
            reduceCtorEq, not_false_eq_true, true_and]
          rw [eq_comm]
      | unregister k' =>
          simp only [RegistryOp.apply, Finset.mem_erase, reduceCtorEq, false_or, ne_eq,
            RegistryOp.unregister.injEq]
          rw [eq_comm]
      | owns k' => simp [RegistryOp.apply]

/-- The state a sequence of calls reaches, and the set it stands for. -/
private structure Refines (r : Registry) (set : Finset Nat) : Prop where
  inv : r.Inv
  light : r.Light
  holds : ∀ k, r.Holds k ↔ k ∈ set

private theorem Refines.owns {r : Registry} {set : Finset Nat} (h : Refines r set)
    {k : Nat} (hk : segmentSize ∣ k) :
    regionOwns r k = some (decide (k ∈ set)) := by
  rcases h.inv with ⟨hslots, _⟩ | hok
  · have hnot : k ∉ set := by
      rw [← h.holds]
      exact fun hh => hh.1 hslots
    simp [regionOwns, hslots, hnot]
  · obtain ⟨b, hrun, hb⟩ := hok.owns_spec (Or.inl (hok.room_of_load h.light)) hk
    rw [hrun, Option.some.injEq, Bool.eq_iff_iff, hb, h.holds, decide_eq_true_iff]

/-- One call keeps the refinement. -/
private theorem Refines.step {σ : Type} {src : TableSource σ} (hsrc : src.Succeeds)
    {r : Registry} {set : Finset Nat} (h : Refines r set) (s : σ) (op : RegistryOp)
    (hkey : IsKey op.key) :
    ∃ s' r', op.run src s r = some (s', r') ∧ Refines r' (op.apply set) := by
  cases op with
  | register k =>
      change IsKey k at hkey
      obtain ⟨s', r', hrun, hok, hlight, hholds⟩ :=
        regionRegister_spec src hsrc h.inv h.light s hkey
      refine ⟨s', r', hrun, Or.inr hok, hlight, ?_⟩
      intro k'
      rw [hholds, h.holds, RegistryOp.apply, Finset.mem_insert]
  | unregister k =>
      change IsKey k at hkey
      rcases h.inv with hnone | hok
      · refine ⟨s, r, by simp [RegistryOp.run, regionUnregister, hnone.1], h.inv, h.light, ?_⟩
        intro k'
        have hnot : ¬ r.Holds k' := fun hh => hh.1 hnone.1
        have hset : k' ∉ set := by rwa [← h.holds]
        simp [hnot, RegistryOp.apply, hset]
      · obtain ⟨r', hrun, hok', hcap, hcount, hholds, _⟩ :=
          hok.unregister_spec (Or.inl (hok.room_of_load h.light)) hkey.2.1
        refine ⟨s, r', by simp [RegistryOp.run, hrun], Or.inr hok', ?_, ?_⟩
        · have hlight := h.light
          unfold Registry.Light at hlight ⊢
          rw [hcount, hcap]
          exact hlight
        · intro k'
          rw [hholds, h.holds, RegistryOp.apply, Finset.mem_erase, and_comm]
  | owns k =>
      change IsKey k at hkey
      exact ⟨s, r, by simp [RegistryOp.run, h.owns hkey.2.1], h⟩

private theorem runRegistry_refines {σ : Type} {src : TableSource σ} (hsrc : src.Succeeds)
    (s : σ) (ops : List RegistryOp) (hkeys : ∀ op ∈ ops, IsKey op.key) :
    ∃ s' r, runRegistry src s ops = some (s', r) ∧ Refines r (registered ops) := by
  induction ops using List.reverseRecOn with
  | nil =>
      refine ⟨s, Registry.init, rfl, Registry.inv_init, Nat.le_refl _, ?_⟩
      intro k
      simp [Registry.Holds, Registry.init, registered]
  | append_singleton ops op ih =>
      obtain ⟨s₁, r₁, hrun₁, href₁⟩ := ih (fun op' h' => hkeys op' (by simp [h']))
      obtain ⟨s₂, r₂, hrun₂, href₂⟩ := href₁.step hsrc s₁ op (hkeys op (by simp))
      refine ⟨s₂, r₂, ?_, ?_⟩
      · unfold runRegistry at hrun₁ ⊢
        rw [List.foldlM_append, hrun₁]
        simp [hrun₂]
      · simpa [registered] using href₂

/-- After every sequence of calls on region bases, from the empty registry and
with tables that can be allocated, `region_owns` answers exactly whether the
key is in the set of keys registered and not unregistered since; no key takes
two slots, the two counters count, and the load bound that keeps an empty slot
for every probe loop holds. -/
theorem registry_refines_set {σ : Type} (src : TableSource σ) (hsrc : src.Succeeds)
    (s : σ) (ops : List RegistryOp) (hkeys : ∀ op ∈ ops, IsKey op.key) :
    ∃ s' r, runRegistry src s ops = some (s', r) ∧
      (∀ k, segmentSize ∣ k → regionOwns r k = some (decide (k ∈ registered ops))) ∧
      (∀ k, k ∈ registered ops ↔ ∃ earlier later,
        ops = earlier ++ .register k :: later ∧ .unregister k ∉ later) ∧
      (∀ i < r.cap, ∀ j < r.cap, r.cells i = r.cells j → isLive (r.cells i) = true → i = j) ∧
      r.size = liveSlots r.cells r.cap ∧ r.tombs = tombSlots r.cells r.cap ∧
      (r.size + r.tombs) * 10 ≤ r.cap * 7 ∧
      (r.slots ≠ 0 → ∃ j < r.cap, r.cells j = emptySlot) ∧
      (∀ k ∈ registered ops, registered (ops ++ [.register k]) = registered ops) ∧
      (∀ k ∉ registered ops, registered (ops ++ [.unregister k]) = registered ops) := by
  obtain ⟨s', r, hrun, href⟩ := runRegistry_refines hsrc s ops hkeys
  refine ⟨s', r, hrun, fun k hk => href.owns hk, mem_registered_iff ops, ?_, ?_, ?_,
    href.light, ?_, ?_, ?_⟩
  · rcases href.inv with ⟨_, hc, _⟩ | hok
    · intro i hi
      omega
    · intro i hi j hj heq hlive
      obtain ⟨hne, hnt⟩ := isLive_iff.mp hlive
      exact hok.sound.inj i hi j hj heq hne hnt
  · rcases href.inv with ⟨_, hc, hz, _⟩ | hok
    · rw [hz, hc]
      rfl
    · exact hok.size_eq
  · rcases href.inv with ⟨_, hc, _, ht⟩ | hok
    · rw [ht, hc]
      rfl
    · exact hok.tombs_eq
  · intro hslots
    rcases href.inv with ⟨hz, _⟩ | hok
    · exact absurd hz hslots
    · exact hok.room_of_load href.light
  · intro k hk
    have hlast : registered (ops ++ [.register k]) = insert k (registered ops) := by
      simp [registered, RegistryOp.apply]
    rw [hlast, Finset.insert_eq_of_mem hk]
  · intro k hk
    have hlast : registered (ops ++ [.unregister k]) = (registered ops).erase k := by
      simp [registered, RegistryOp.apply]
    rw [hlast, Finset.erase_eq_of_notMem hk]

/-- A source that hands out increasing addresses and refuses only the empty table. -/
def bumpSource : TableSource Nat where
  alloc s cap := if cap = 0 then (0, s) else (s + 1, s + 1 + cap)
  free s _ _ := s

theorem registry_refines_set_bump :
    ∃ s' r, runRegistry bumpSource 0 [.register segmentSize, .owns segmentSize,
        .unregister segmentSize] = some (s', r) ∧ regionOwns r segmentSize = some false := by
  obtain ⟨s', r, hrun, howns, _⟩ := registry_refines_set bumpSource
    (by intro s cap hcap; simp [bumpSource, hcap.ne']) 0
    [.register segmentSize, .owns segmentSize, .unregister segmentSize]
    (by simp [RegistryOp.key, IsKey, segmentSize])
  refine ⟨s', r, hrun, ?_⟩
  rw [howns segmentSize (Nat.dvd_refl _)]
  decide

end HMalloc
