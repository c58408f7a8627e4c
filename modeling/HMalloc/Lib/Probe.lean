import HMalloc.Lib.Count

/-!
Open addressing with linear probing and tombstones, over an arbitrary key type
and home function. A table is a function from slot numbers to slot contents, of
which the slots below `cap` count; `empty` and `tomb` are two reserved
contents. `scan` is the probe loop, with as much fuel as there are slots: it
gives up exactly when no slot stops it, that is, when the loop would run for
ever. `Sound` is the invariant (no key twice, no empty slot between a key and
its home) that lookup needs and that insertion and deletion keep.
-/

namespace Probe

variable {α : Type*}

/-- The probe loop: from slot `i` on, the first slot whose content stops it. -/
def scan (stop : α → Bool) (next : Nat → Nat) (cells : Nat → α) :
    Nat → Nat → Option Nat
  | 0, _ => none
  | fuel + 1, i =>
      if stop (cells i) then some i else scan stop next cells fuel (next i)

/-- The loop ends on a slot whose content stops it, among the slots it can get to. -/
theorem scan_stops {stop : α → Bool} {next : Nat → Nat} {cells : Nat → α} {P : Nat → Prop}
    (hnext : ∀ i, P i → P (next i)) {fuel i j : Nat} (hi : P i)
    (h : scan stop next cells fuel i = some j) : P j ∧ stop (cells j) = true := by
  induction fuel generalizing i with
  | zero => cases h
  | succ fuel ih =>
      unfold scan at h
      split at h
      · rename_i hstop
        cases h
        exact ⟨hi, hstop⟩
      · exact ih (hnext i hi) h

/-- The cyclic successor of a slot. -/
def cyclic (cap : Nat) (i : Nat) : Nat := (i + 1) % cap

private theorem cyclic_shift (cap i t : Nat) :
    (cyclic cap i + t) % cap = (i + (t + 1)) % cap := by
  unfold cyclic
  rw [Nat.mod_add_mod]
  congr 1
  omega

theorem scan_eq_some {stop : α → Bool} {cells : Nat → α} {cap fuel i t : Nat}
    (hi : i < cap) (ht : t < fuel)
    (hstop : stop (cells ((i + t) % cap)) = true)
    (hbefore : ∀ u < t, stop (cells ((i + u) % cap)) = false) :
    scan stop (cyclic cap) cells fuel i = some ((i + t) % cap) := by
  induction fuel generalizing i t with
  | zero => omega
  | succ fuel ih =>
      unfold scan
      cases t with
      | zero =>
          rw [Nat.add_zero, Nat.mod_eq_of_lt hi] at hstop ⊢
          rw [if_pos hstop]
      | succ t =>
          have h0 := hbefore 0 (by omega)
          rw [Nat.add_zero, Nat.mod_eq_of_lt hi] at h0
          rw [if_neg (by simp [h0])]
          have hnext : cyclic cap i < cap := Nat.mod_lt _ (by omega)
          have hrec := ih hnext (t := t) (by omega)
            (by rw [cyclic_shift]; exact hstop)
            (fun u hu => by rw [cyclic_shift]; exact hbefore (u + 1) (by omega))
          rw [hrec, cyclic_shift]

theorem scan_some {stop : α → Bool} {cells : Nat → α} {cap fuel i j : Nat}
    (hi : i < cap) (h : scan stop (cyclic cap) cells fuel i = some j) :
    ∃ t < fuel, j = (i + t) % cap ∧ stop (cells j) = true ∧
      ∀ u < t, stop (cells ((i + u) % cap)) = false := by
  induction fuel generalizing i with
  | zero => simp [scan] at h
  | succ fuel ih =>
      unfold scan at h
      split at h
      · rename_i hstop
        cases h
        refine ⟨0, by omega, ?_, hstop, by omega⟩
        rw [Nat.add_zero, Nat.mod_eq_of_lt hi]
      · rename_i hstop
        have hnext : cyclic cap i < cap := Nat.mod_lt _ (by omega)
        obtain ⟨t, ht, hj, hs, hb⟩ := ih hnext h
        refine ⟨t + 1, by omega, by rw [hj, cyclic_shift], hs, ?_⟩
        intro u hu
        cases u with
        | zero =>
            rw [Nat.add_zero, Nat.mod_eq_of_lt hi]
            simpa using hstop
        | succ u =>
            have := hb u (by omega)
            rwa [cyclic_shift] at this

/-- Every slot is met within one round. -/
theorem exists_offset {cap i j : Nat} (hi : i < cap) (hj : j < cap) :
    ∃ t < cap, j = (i + t) % cap := by
  by_cases h : i ≤ j
  · exact ⟨j - i, by omega, by
      rw [Nat.add_sub_cancel' h, Nat.mod_eq_of_lt hj]⟩
  · refine ⟨j + cap - i, by omega, ?_⟩
    rw [show i + (j + cap - i) = j + cap by omega, Nat.add_mod_right,
      Nat.mod_eq_of_lt hj]

theorem offset_unique {cap i s t : Nat} (hs : s < cap) (ht : t < cap)
    (h : (i + s) % cap = (i + t) % cap) : s = t := by
  have h' : s % cap = t % cap := Nat.ModEq.add_left_cancel' i h
  rwa [Nat.mod_eq_of_lt hs, Nat.mod_eq_of_lt ht] at h'

/-- The loop ends exactly when some slot stops it. -/
theorem scan_isSome_iff (stop : α → Bool) (cells : Nat → α) {cap i : Nat}
    (hi : i < cap) :
    (scan stop (cyclic cap) cells cap i).isSome ↔
      ∃ j < cap, stop (cells j) = true := by
  constructor
  · intro h
    obtain ⟨j, hj⟩ := Option.isSome_iff_exists.mp h
    obtain ⟨t, _, rfl, hs, _⟩ := scan_some hi hj
    exact ⟨(i + t) % cap, Nat.mod_lt _ (by omega), hs⟩
  · rintro ⟨j, hj, hs⟩
    obtain ⟨t, ht, rfl⟩ := exists_offset hi hj
    have hex : ∃ t, t < cap ∧ stop (cells ((i + t) % cap)) = true := ⟨t, ht, hs⟩
    have hmin := Nat.find_spec hex
    rw [scan_eq_some hi hmin.1 hmin.2]
    · rfl
    · intro u hu
      have := Nat.find_min hex hu
      by_contra hne
      exact this ⟨by omega, by simpa using hne⟩

section Table

variable (empty tomb : α) (home : α → Nat)

/-- Slot `j` is reached from home `h` without meeting an empty slot. -/
def Reaches (cells : Nat → α) (cap h j : Nat) : Prop :=
  ∃ d < cap, j = (h + d) % cap ∧ ∀ t < d, cells ((h + t) % cap) ≠ empty

/-- The probing invariant of a table. -/
structure Sound (cells : Nat → α) (cap : Nat) : Prop where
  reach : ∀ j < cap, cells j ≠ empty → cells j ≠ tomb →
    Reaches empty cells cap (home (cells j)) j
  inj : ∀ i < cap, ∀ j < cap, cells i = cells j → cells i ≠ empty →
    cells i ≠ tomb → i = j

/-- `k` is stored in some slot. -/
def Present (cells : Nat → α) (cap : Nat) (k : α) : Prop :=
  ∃ j < cap, cells j = k

variable {empty tomb home} {cells : Nat → α} {cap : Nat}

theorem Reaches.update {cells' : Nat → α} {h j : Nat}
    (hr : Reaches empty cells cap h j)
    (hkeep : ∀ i, cells i ≠ empty → cells' i ≠ empty) :
    Reaches empty cells' cap h j := by
  obtain ⟨d, hd, hj, hpath⟩ := hr
  exact ⟨d, hd, hj, fun t ht => hkeep _ (hpath t ht)⟩

theorem update_ne_empty {v : α} (hv : v ≠ empty) (j i : Nat) (hi : cells i ≠ empty) :
    Function.update cells j v i ≠ empty := by
  by_cases hij : i = j
  · subst hij
    rw [Function.update_self]
    exact hv
  · rw [Function.update_of_ne hij]
    exact hi

/-- Storing an absent key in a free slot on its probe path. -/
theorem Sound.insert (hs : Sound empty tomb home cells cap) {k : α} {j : Nat}
    (he : k ≠ empty) (habs : ¬ Present cells cap k)
    (hreach : Reaches empty cells cap (home k) j) :
    Sound empty tomb home (Function.update cells j k) cap := by
  have hkeep : ∀ i, cells i ≠ empty → Function.update cells j k i ≠ empty :=
    update_ne_empty he j
  constructor
  · intro i hi hne hnt
    by_cases hij : i = j
    · subst hij
      rw [Function.update_self]
      exact hreach.update hkeep
    · rw [Function.update_of_ne hij] at hne hnt ⊢
      exact (hs.reach i hi hne hnt).update hkeep
  · intro a ha b hb heq hne hnt
    by_cases haj : a = j <;> by_cases hbj : b = j
    · rw [haj, hbj]
    · subst haj
      rw [Function.update_self, Function.update_of_ne hbj] at heq
      exact absurd ⟨b, hb, heq.symm⟩ habs
    · subst hbj
      rw [Function.update_self, Function.update_of_ne haj] at heq
      exact absurd ⟨a, ha, heq⟩ habs
    · rw [Function.update_of_ne haj, Function.update_of_ne hbj] at heq
      rw [Function.update_of_ne haj] at hne hnt
      exact hs.inj a ha b hb heq hne hnt

/-- Deleting a key leaves a tombstone, so that no probe path is cut. -/
theorem Sound.delete (hs : Sound empty tomb home cells cap) {j : Nat}
    (hte : tomb ≠ empty) :
    Sound empty tomb home (Function.update cells j tomb) cap := by
  have hkeep : ∀ i, cells i ≠ empty → Function.update cells j tomb i ≠ empty :=
    update_ne_empty hte j
  constructor
  · intro i hi hne hnt
    by_cases hij : i = j
    · subst hij
      rw [Function.update_self] at hnt
      exact absurd rfl hnt
    · rw [Function.update_of_ne hij] at hne hnt ⊢
      exact (hs.reach i hi hne hnt).update hkeep
  · intro a ha b hb heq hne hnt
    by_cases haj : a = j
    · subst haj
      rw [Function.update_self] at hnt
      exact absurd rfl hnt
    · by_cases hbj : b = j
      · subst hbj
        rw [Function.update_self] at heq
        exact absurd heq hnt
      · rw [Function.update_of_ne haj, Function.update_of_ne hbj] at heq
        rw [Function.update_of_ne haj] at hne hnt
        exact hs.inj a ha b hb heq hne hnt

/-- The empty table. -/
theorem sound_empty : Sound empty tomb home (fun _ => empty) cap :=
  ⟨fun _ _ hne => absurd rfl hne, fun _ _ _ _ _ hne => absurd rfl hne⟩

variable [DecidableEq α]

/-- What stops the search for a key. -/
def stopAt (empty k v : α) : Bool := v == empty || v == k

/-- Searching a stored key ends on its slot. -/
theorem Sound.scan_present (hs : Sound empty tomb home cells cap) {k : α}
    (hhome : home k < cap) (he : k ≠ empty) (ht : k ≠ tomb) {j : Nat}
    (hj : j < cap) (hk : cells j = k) :
    scan (stopAt empty k) (cyclic cap) cells cap (home k) = some j := by
  obtain ⟨d, hd, hjd, hpath⟩ := hs.reach j hj (hk ▸ he) (hk ▸ ht)
  rw [hk] at hjd hpath
  rw [hjd]
  apply scan_eq_some hhome hd
  · rw [← hjd, hk]
    simp [stopAt]
  · intro u hu
    have hne := hpath u hu
    have hslot : (home k + u) % cap < cap := Nat.mod_lt _ (by omega)
    have hdiff : cells ((home k + u) % cap) ≠ k := by
      intro heq
      have hsame := hs.inj _ hslot j hj (heq.trans hk.symm) hne
        (by rw [heq]; exact ht)
      rw [hjd] at hsame
      have := offset_unique (by omega) hd hsame
      omega
    simp [stopAt, hne, hdiff]

/-- Searching an absent key ends on an empty slot, if there is one. -/
theorem scan_absent {k : α} (hhome : home k < cap)
    (hroom : ∃ j < cap, cells j = empty) (habs : ¬ Present cells cap k) :
    ∃ j < cap, scan (stopAt empty k) (cyclic cap) cells cap (home k) = some j ∧
      cells j = empty ∧ Reaches empty cells cap (home k) j := by
  obtain ⟨e, he, hempty⟩ := hroom
  have hsome : (scan (stopAt empty k) (cyclic cap) cells cap (home k)).isSome :=
    (scan_isSome_iff _ _ hhome).mpr ⟨e, he, by simp [stopAt, hempty]⟩
  obtain ⟨j, hj⟩ := Option.isSome_iff_exists.mp hsome
  obtain ⟨t, ht, rfl, hstop, hbefore⟩ := scan_some hhome hj
  have hslot : (home k + t) % cap < cap := Nat.mod_lt _ (by omega)
  have hjempty : cells ((home k + t) % cap) = empty := by
    have hnk : cells ((home k + t) % cap) ≠ k := fun heq => habs ⟨_, hslot, heq⟩
    simpa [stopAt, hnk] using hstop
  refine ⟨_, hslot, hj, hjempty, t, ht, rfl, ?_⟩
  intro u hu heq
  have := hbefore u hu
  simp [stopAt, heq] at this

end Table

end Probe
