import HMalloc.Lib.Potential
import HMalloc.RegistryGrowth

/-!
What the region registry costs over a whole run. Each growth reads the whole old
table, so one registration may be dear; but a rehash leaves a table at most half
full, and the next one is due at seven tenths, so the registrations in between pay
for it. The table doubles only while live entries fill half of it. Both hold
whatever the table allocations answer.
-/

namespace HMalloc

open Potential

/-- A table source that adds up the capacities of the tables given back. `grow_locked`
gives a table back when its loop has read all slots of it. -/
def TableSource.metered {σ : Type} (src : TableSource σ) : TableSource (σ × Nat) where
  alloc s cap := ((src.alloc s.1 cap).1, (src.alloc s.1 cap).2, s.2)
  free s slots cap := (src.free s.1 slots cap, s.2 + cap)

/-- What the registrations since the last rehash have saved up. -/
def Registry.credit (r : Registry) : Nat := 6 * (r.size + r.tombs - r.cap / 2)

section Meter

variable {σ : Type} {src : TableSource σ} {s s' : σ × Nat} {r r' : Registry}

/-- The meter changes nothing. -/
theorem growLocked_metered (s : σ × Nat) (r : Registry) (newCap : Nat) :
    growLocked src s.1 r newCap =
      (growLocked src.metered s r newCap).map fun x => (x.1.1, x.2) := by
  unfold growLocked
  dsimp only [TableSource.metered]
  split
  · rfl
  · cases rehash r.cells newCap r.cap with
    | none => rfl
    | some cells =>
        by_cases hslots : r.slots = 0 <;> simp [hslots]

theorem regionRegister_metered (s : σ × Nat) (r : Registry) (k : Nat) :
    regionRegister src s.1 r k =
      (regionRegister src.metered s r k).map fun x => (x.1.1, x.2) := by
  have hmissing : growIfMissing src s.1 r =
      (growIfMissing src.metered s r).map fun x => (x.1.1, x.2) := by
    unfold growIfMissing
    split
    · exact growLocked_metered s r 1024
    · rfl
  have hloaded : ∀ s r, growIfLoaded src s.1 r =
      (growIfLoaded src.metered s r).map fun x => (x.1.1, x.2) := by
    intro s r
    unfold growIfLoaded
    split
    · exact growLocked_metered s r _
    · rfl
  unfold regionRegister
  rw [hmissing]
  cases growIfMissing src.metered s r with
  | none => rfl
  | some x =>
      obtain ⟨s₁, r₁⟩ := x
      simp only [Option.map_some, Option.bind_eq_bind, Option.bind_some, hloaded]
      cases growIfLoaded src.metered s₁ r₁ with
      | none => rfl
      | some y =>
          obtain ⟨s₂, r₂⟩ := y
          simp only [Option.map_some, Option.bind_some]
          split
          · rfl
          · cases registerKey r₂ k <;> rfl

theorem RegistryOp.run_metered (op : RegistryOp) (s : σ × Nat) (r : Registry) :
    op.run src s.1 r = (op.run src.metered s r).map fun x => (x.1.1, x.2) := by
  cases op with
  | register k => exact regionRegister_metered s r k
  | unregister k =>
      simp only [RegistryOp.run]
      cases regionUnregister r k <;> rfl
  | owns k =>
      simp only [RegistryOp.run]
      cases regionOwns r k <;> rfl

theorem runRegistry_metered (s : σ) (n : Nat) (ops : List RegistryOp) :
    runRegistry src s ops =
      (runRegistry src.metered (s, n) ops).map fun x => (x.1.1, x.2) := by
  induction ops using List.reverseRecOn with
  | nil => rfl
  | append_singleton ops op ih =>
      rw [runRegistry_append, runRegistry_append, ih]
      cases runRegistry src.metered (s, n) ops with
      | none => rfl
      | some x =>
          obtain ⟨s₁, r₁⟩ := x
          exact op.run_metered s₁ r₁

end Meter

section Cost

variable {σ : Type} {src : TableSource σ} {s s' s₁ s₂ : σ × Nat} {r r' r₁ r₂ : Registry}

/-- A growth keeps the table, or reads it and has one without tombstones. -/
theorem growLocked_cost {newCap : Nat} (h : growLocked src.metered s r newCap = some (s', r')) :
    (r' = r ∧ s'.2 = s.2) ∨ ((src.alloc s.1 newCap).1 ≠ 0 ∧ r'.cap = newCap ∧ r'.size = r.size ∧
      r'.tombs = 0 ∧ s'.2 = s.2 + if r.slots = 0 then 0 else r.cap) := by
  unfold growLocked at h
  dsimp only [TableSource.metered] at h
  split at h
  · cases h
    exact Or.inl ⟨rfl, rfl⟩
  · rename_i halloc
    rw [Option.bind_eq_bind, Option.bind_eq_some_iff] at h
    obtain ⟨cells, _, h⟩ := h
    cases h
    refine Or.inr ⟨halloc, rfl, rfl, rfl, ?_⟩
    by_cases hslots : r.slots = 0 <;> simp [hslots]

theorem Registry.Ok.occupied_le_cap (h : r.Ok) : r.size + r.tombs ≤ r.cap := by
  rw [h.size_eq, h.tombs_eq]
  exact occupied_le r.cells r.cap

/-- The growth checks are paid for by the credit. -/
theorem growChecks_cost (hsrc : src.RefusesEmpty) (hinv : r.Inv)
    (h₁ : growIfMissing src.metered s r = some (s₁, r₁))
    (h₂ : growIfLoaded src.metered s₁ r₁ = some (s₂, r₂)) :
    s₂.2 + r₂.credit ≤ s.2 + r.credit ∧ r₂.cap ≤ max r.cap (max 1024 (4 * r.size)) := by
  unfold Registry.credit
  rcases hinv with ⟨hslots, hcap, hsize, htombs⟩ | hok
  · rw [growIfMissing, if_pos hslots] at h₁
    rcases growLocked_cost h₁ with ⟨rfl, hspent⟩ | ⟨_, hcap₁, hsize₁, htombs₁, hspent⟩
    · -- No table, and the second check asks for twice nothing.
      rw [growIfLoaded, if_pos (by omega), if_pos (by omega), hcap] at h₂
      rcases growLocked_cost h₂ with ⟨rfl, hspent₂⟩ | ⟨halloc, _⟩
      · omega
      · exact absurd (hsrc _) halloc
    · rw [growIfLoaded, if_neg (by omega)] at h₂
      cases h₂
      rw [if_pos hslots] at hspent
      omega
  · rw [growIfMissing, if_neg hok.slots_ne] at h₁
    cases h₁
    have hroom := hok.occupied_le_cap
    have hleast := hok.cap_ge
    unfold growIfLoaded at h₂
    split at h₂
    · rename_i hload
      rcases growLocked_cost h₂ with ⟨rfl, hspent⟩ | ⟨_, hcap₂, hsize₂, htombs₂, hspent⟩
      · omega
      · rw [if_neg hok.slots_ne] at hspent
        split at hcap₂ <;> omega
    · cases h₂
      omega

/-- A registration costs at most six slots. -/
theorem regionRegister_cost (hsrc : src.RefusesEmpty) (hinv : r.Inv) {k : Nat} (hkey : IsKey k)
    (h : regionRegister src.metered s r k = some (s', r')) :
    r'.Inv ∧ s'.2 + r'.credit ≤ s.2 + r.credit + 6 ∧
      r'.cap ≤ max r.cap (max 1024 (4 * r.size)) := by
  obtain ⟨s₁, r₁, s₂, r₂, h₁, h₂, _, hcase, _⟩ :=
    growChecks_spec src.metered (fun s => hsrc s.1) hinv s
  obtain ⟨hcost, hcap⟩ := growChecks_cost hsrc hinv h₁ h₂
  rw [regionRegister_eq src.metered h₁ h₂] at h
  have hinv₂ : r₂.Inv := by
    rcases hcase with rfl | hbuilt
    · exact hinv
    · exact Or.inr hbuilt.ok
  rcases hinv₂ with hnone | hok
  · rw [if_pos hnone.1] at h
    cases h
    exact ⟨Or.inl hnone, by omega, hcap⟩
  · rw [if_neg hok.slots_ne, Option.map_eq_some_iff] at h
    obtain ⟨r₃, hkeyed, heq⟩ := h
    cases heq
    have hroom : r₂.HasRoom ∨ r₂.Holds k := by
      by_contra hnot
      rw [not_or] at hnot
      rw [(hok.search_absent_full hnot.1 hkey.2.1 hnot.2).2] at hkeyed
      cases hkeyed
    obtain ⟨r₄, hrun, hok₄, hcap₄, hcount, _⟩ := hok.registerKey_spec hroom hkey
    cases hkeyed.symm.trans hrun
    refine ⟨Or.inr hok₄, ?_, by omega⟩
    unfold Registry.credit at hcost ⊢
    omega

/-- A strike costs nothing. -/
theorem regionUnregister_cost (hinv : r.Inv) {k : Nat} (hk : segmentSize ∣ k)
    (h : regionUnregister r k = some r') : r'.credit = r.credit ∧ r'.cap = r.cap := by
  rcases hinv with hnone | hok
  · rw [regionUnregister, if_pos hnone.1] at h
    cases h
    exact ⟨rfl, rfl⟩
  · have hroom : r.HasRoom ∨ r.Holds k := by
      by_contra hnot
      rw [not_or] at hnot
      simp [regionUnregister, hok.slots_ne, (hok.search_absent_full hnot.1 hk hnot.2).1] at h
    obtain ⟨r₁, hrun, _, hcap, hcount, _⟩ := hok.unregister_spec hroom hk
    cases h.symm.trans hrun
    unfold Registry.credit
    rw [hcap, hcount]
    exact ⟨rfl, rfl⟩

def RegistryOp.isRegister : RegistryOp → Bool
  | .register _ => true
  | _ => false

/-- What one call costs. -/
theorem RegistryOp.run_cost (hsrc : src.RefusesEmpty) (op : RegistryOp) (hkey : IsKey op.key)
    (hinv : r.Inv) (h : op.run src.metered s r = some (s', r')) :
    r'.Inv ∧ s'.2 + r'.credit ≤ s.2 + r.credit + (if op.isRegister then 6 else 0) ∧
      r'.cap ≤ max r.cap (max 1024 (4 * r.size)) := by
  cases op with
  | register k => exact regionRegister_cost hsrc hinv hkey h
  | unregister k =>
      simp only [RegistryOp.run, Option.map_eq_some_iff] at h
      obtain ⟨r₁, hrun, heq⟩ := h
      cases heq
      obtain ⟨hcredit, hcap⟩ := regionUnregister_cost hinv hkey.2.1 hrun
      exact ⟨(regionUnregister_keeps hinv hkey.2.1 hrun).1, by omega, by omega⟩
  | owns k =>
      simp only [RegistryOp.run, Option.map_eq_some_iff] at h
      obtain ⟨_, _, heq⟩ := h
      cases heq
      exact ⟨hinv, by omega, by omega⟩

end Cost

theorem sum_register_budget (ops : List RegistryOp) :
    (ops.map fun op => if op.isRegister then 6 else 0).sum =
      6 * ops.countP RegistryOp.isRegister := by
  induction ops with
  | nil => rfl
  | cons op ops ih =>
      rw [List.map_cons, List.sum_cons, ih, List.countP_cons]
      split <;> omega

/-- The registry is cheap over every run. For every sequence of calls and whatever
the table allocations answer: the rehash loops have read at most six slots for each
registration, in all; and the table has at most four slots for each entry that was
live at some time, or its first 1024. -/
theorem registry_rehash_amortized {σ : Type} (src : TableSource σ) (hsrc : src.RefusesEmpty)
    (s : σ) (ops : List RegistryOp) (hkeys : ∀ op ∈ ops, IsKey op.key) (s' : σ) (r : Registry)
    (hrun : runRegistry src s ops = some (s', r)) :
    (∃ work, runRegistry src.metered (s, 0) ops = some ((s', work), r) ∧
      work ≤ 6 * ops.countP RegistryOp.isRegister) ∧
    ∃ earlier later s₁ r₁, ops = earlier ++ later ∧ runRegistry src s earlier = some (s₁, r₁) ∧
      r.cap ≤ max 1024 (4 * r₁.size) := by
  rw [runRegistry_metered s 0 ops, Option.map_eq_some_iff] at hrun
  obtain ⟨⟨⟨s₀, work⟩, r₀⟩, hmetered, heq⟩ := hrun
  cases heq
  have hcost : ∀ (x : (σ × Nat) × Registry) (op : RegistryOp) (y : (σ × Nat) × Registry),
      IsKey op.key → x.2.Inv → op.run src.metered x.1 x.2 = some y →
      y.2.Inv ∧ y.1.2 + y.2.credit ≤ x.1.2 + x.2.credit + (if op.isRegister then 6 else 0) ∧
        y.2.cap ≤ max x.2.cap (max 1024 (4 * x.2.size)) :=
    fun x op y hkey hinv h => op.run_cost hsrc hkey hinv h
  constructor
  · refine ⟨work, hmetered, ?_⟩
    have hsum := foldlM_cost (fun x => x.2.Inv) (fun op => IsKey op.key) (fun x => x.1.2)
      (fun x => x.2.credit)
      (fun x op y hkey hinv h => (hcost x op y hkey hinv h).1)
      (fun x op y hkey hinv h => (hcost x op y hkey hinv h).2.1) hkeys Registry.inv_init hmetered
    rw [sum_register_budget] at hsum
    exact (Nat.le_add_right _ _).trans (hsum.trans (by simp [Registry.credit, Registry.init]))
  · obtain ⟨earlier, later, ⟨s₁, r₁⟩, hops, hearlier, hbound⟩ :=
      foldlM_highWater (fun x => x.2.Inv) (fun op => IsKey op.key) (fun x => x.2.cap)
        (fun x => max 1024 (4 * x.2.size))
        (fun x op y hkey hinv h => (hcost x op y hkey hinv h).1)
        (fun x op y hkey hinv h => (hcost x op y hkey hinv h).2.2) hkeys Registry.inv_init
        (by simp [Registry.init]) hmetered
    refine ⟨earlier, later, s₁.1, r₁, hops, ?_, hbound⟩
    rw [runRegistry_metered s 0 earlier, show runRegistry src.metered (s, 0) earlier = _ from
      hearlier]
    rfl

/-- The 717th registration doubles the table and reads all of the old one. -/
theorem registry_rehash_amortized_doubled :
    ∃ s r, runRegistry bumpSource 0 (registerMany 717) = some (s, r) ∧ r.cap = 2048 ∧
      runRegistry bumpSource.metered (0, 0) (registerMany 717) = some ((s, 1024), r) ∧
      1024 ≤ 6 * (registerMany 717).countP RegistryOp.isRegister := by
  have hgrants : ∀ s cap, 0 < cap → (bumpSource.metered.alloc s cap).1 ≠ 0 := by
    intro s cap hcap
    simp [TableSource.metered, bumpSource, hcap.ne']
  obtain ⟨r, hbefore, htable⟩ := registerMany_refused bumpSource.metered
    (fun i => if i = 0 then (0, 0) else (1025, 0)) (n := 715) (show 716 ≤ 1024 by omega)
    (hgrants _ _ (by omega)) rfl (fun i hi hlow => absurd hlow (by omega))
    (fun i hi hpos => by simp [hpos.ne', show ¬ 716 ≤ i by omega]) (by omega)
  obtain ⟨r', hgrown, hcap⟩ := htable.register_granted bumpSource.metered (1025, 0)
    (by omega) (by omega) (hgrants _ _ (by omega))
  have hmetered : runRegistry bumpSource.metered (0, 0) (registerMany 717) =
      some ((3074, 1024), r') := by
    rw [registerMany_succ, runRegistry_append, show runRegistry _ (0, 0) _ = _ from hbefore]
    exact hgrown
  have hrun : runRegistry bumpSource 0 (registerMany 717) = some (3074, r') := by
    rw [runRegistry_metered 0 0, hmetered]
    rfl
  obtain ⟨⟨work, hwork, hle⟩, _⟩ := registry_rehash_amortized bumpSource
    (fun s => by simp [bumpSource]) 0 (registerMany 717) (registerMany_isKey (by omega)) 3074 r'
    hrun
  cases hmetered.symm.trans hwork
  exact ⟨3074, r', hrun, hcap, hmetered, hle⟩

end HMalloc
