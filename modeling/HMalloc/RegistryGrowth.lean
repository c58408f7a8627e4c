import HMalloc.Override
import HMalloc.RegistrySet

/-!
The registry when its tables cannot always be allocated. `grow_locked` keeps the
old table on failure, so the load check of `region_register` asks for room but
does not make it. Two things follow. A table whose growth keeps failing fills
up, and a probe loop for an absent key then never ends; as long as the growth
that is due at the last empty slot succeeds, every probe loop ends.
And a registration before the first table exists is dropped without notice;
once there is a table no registration is lost.
-/

namespace HMalloc

section Growth

variable {σ : Type} (src : TableSource σ)

/-- `os_alloc_aligned` refuses to map zero bytes. -/
def TableSource.RefusesEmpty : Prop := ∀ s, (src.alloc s 0).1 = 0

/-- The capacity `region_register` asks for when the load check fires. -/
def Registry.grownCap (r : Registry) : Nat := if r.size * 2 ≥ r.cap then r.cap * 2 else r.cap

/-- The load check of `region_register`. -/
def Registry.Loaded (r : Registry) : Prop := (r.size + r.tombs + 1) * 10 ≥ r.cap * 7

/-- A table that has just been rehashed: no tombstones, at most half full. -/
structure Registry.Rebuilt (r : Registry) : Prop where
  ok : r.Ok
  half : r.size * 2 ≤ r.cap
  tombs : r.tombs = 0

/-- The two growth checks, whatever the allocations answer. They keep the set
of keys, and leave either the registry as it was or a rehashed table; a table
is rehashed when one is missing or the load is high and the allocation for it
succeeds. -/
theorem growChecks_spec (hsrc : src.RefusesEmpty) {r : Registry} (hinv : r.Inv) (s : σ) :
    ∃ s₁ r₁ s₂ r₂,
      growIfMissing src s r = some (s₁, r₁) ∧ growIfLoaded src s₁ r₁ = some (s₂, r₂) ∧
      (∀ k, r₂.Holds k ↔ r.Holds k) ∧ (r₂ = r ∨ r₂.Rebuilt) ∧
      (r.slots = 0 → (src.alloc s 1024).1 ≠ 0 → r₂.Rebuilt) ∧
      (r.slots ≠ 0 → r.Loaded → (src.alloc s r.grownCap).1 ≠ 0 → r₂.Rebuilt) := by
  rcases hinv with ⟨hslots, hc, hz, ht⟩ | hok
  · by_cases halloc : (src.alloc s 1024).1 = 0
    · -- No table: the second check asks for twice nothing and is refused.
      have hmissing : growIfMissing src s r = some ((src.alloc s 1024).2, r) := by
        rw [growIfMissing, if_pos hslots, growLocked_fail src s halloc]
      have hloaded : growIfLoaded src (src.alloc s 1024).2 r =
          some ((src.alloc (src.alloc s 1024).2 0).2, r) := by
        rw [growIfLoaded, hz, ht, hc, if_pos (by omega), if_pos (by omega)]
        exact growLocked_fail src _ (hsrc _)
      exact ⟨_, _, _, _, hmissing, hloaded, fun _ => Iff.rfl, Or.inl rfl,
        fun _ h => absurd halloc h, fun h => absurd hslots h⟩
    · obtain ⟨s₁, r₁, hrun, hok₁, hcap₁, hsize₁, htombs₁, hholds₁⟩ :=
        growLocked_ok src (Or.inl ⟨hslots, hc, hz, ht⟩) s 1024 (m := 10)
          (by omega) rfl (by omega) halloc
      have hmissing : growIfMissing src s r = some (s₁, r₁) := by
        rw [growIfMissing, if_pos hslots, hrun]
      have hloaded : growIfLoaded src s₁ r₁ = some (s₁, r₁) := by
        rw [growIfLoaded, if_neg (by omega)]
      have hbuilt : r₁.Rebuilt := ⟨hok₁, by omega, htombs₁⟩
      exact ⟨s₁, r₁, s₁, r₁, hmissing, hloaded, hholds₁, Or.inr hbuilt,
        fun _ _ => hbuilt, fun h => absurd hslots h⟩
  · have hmissing : growIfMissing src s r = some (s, r) := if_neg hok.slots_ne
    have hcap := hok.cap_ge
    by_cases hload : r.Loaded
    · by_cases halloc : (src.alloc s r.grownCap).1 = 0
      · have hloaded : growIfLoaded src s r = some ((src.alloc s r.grownCap).2, r) :=
          (if_pos hload).trans (growLocked_fail src s halloc)
        exact ⟨s, r, _, r, hmissing, hloaded, fun _ => Iff.rfl, Or.inl rfl,
          fun h => absurd h hok.slots_ne, fun _ _ h => absurd halloc h⟩
      · obtain ⟨m, hm, hpow⟩ := hok.cap_pow
        have hnew : ∃ m', 10 ≤ m' ∧ r.grownCap = 2 ^ m' := by
          unfold Registry.grownCap
          split
          · exact ⟨m + 1, by omega, by rw [hpow, Nat.pow_succ]⟩
          · exact ⟨m, hm, hpow⟩
        have hle : r.size ≤ r.cap := by
          have := occupied_le r.cells r.cap
          rw [hok.size_eq]
          omega
        have hhalf : r.size * 2 ≤ r.grownCap := by
          unfold Registry.grownCap
          split <;> omega
        have hpos : r.cap ≤ r.grownCap := by
          unfold Registry.grownCap
          split <;> omega
        obtain ⟨m', hm', hpow'⟩ := hnew
        obtain ⟨s₂, r₂, hrun, hok₂, hcap₂, hsize₂, htombs₂, hholds₂⟩ :=
          growLocked_ok src (Or.inr hok) s _ hm' hpow' (by omega) halloc
        have hloaded : growIfLoaded src s r = some (s₂, r₂) := (if_pos hload).trans hrun
        have hbuilt : r₂.Rebuilt := ⟨hok₂, by omega, htombs₂⟩
        exact ⟨s, r, s₂, r₂, hmissing, hloaded, hholds₂, Or.inr hbuilt,
          fun h => absurd h hok.slots_ne, fun _ _ _ => hbuilt⟩
    · have hloaded : growIfLoaded src s r = some (s, r) := if_neg hload
      exact ⟨s, r, s, r, hmissing, hloaded, fun _ => Iff.rfl, Or.inl rfl,
        fun h => absurd h hok.slots_ne, fun _ h => absurd h hload⟩

/-- `region_register` is its two growth checks and the insertion. -/
theorem regionRegister_eq {s s₁ s₂ : σ} {r r₁ r₂ : Registry}
    (h₁ : growIfMissing src s r = some (s₁, r₁)) (h₂ : growIfLoaded src s₁ r₁ = some (s₂, r₂))
    (k : Nat) :
    regionRegister src s r k =
      if r₂.slots = 0 then some (s₂, r₂) else (registerKey r₂ k).map (fun r₃ => (s₂, r₃)) := by
  simp only [regionRegister, h₁, h₂, Option.bind_eq_bind, Option.bind_some, Option.pure_def]
  split
  · rfl
  · cases registerKey r₂ k <;> rfl

theorem Registry.Rebuilt.spare {r : Registry} (h : r.Rebuilt) : r.size + r.tombs + 1 < r.cap := by
  have hcap := h.ok.cap_ge
  have hhalf := h.half
  have htombs := h.tombs
  omega

theorem Registry.Ok.room_of_spare {r : Registry} (h : r.Ok) (hspare : r.size + r.tombs < r.cap) :
    r.HasRoom := by
  apply exists_empty_slot
  rw [← h.size_eq, ← h.tombs_eq]
  exact hspare

/-- `region_register` on a table with an empty slot ends, whatever the
allocations answer. -/
theorem regionRegister_ends (hsrc : src.RefusesEmpty) {r : Registry} (hinv : r.Inv)
    (hroom : r.Ok → r.HasRoom) (s : σ) {k : Nat} (hkey : IsKey k) :
    ∃ s' r', regionRegister src s r k = some (s', r') := by
  obtain ⟨s₁, r₁, s₂, r₂, h₁, h₂, _, hcase, _, _⟩ := growChecks_spec src hsrc hinv s
  rw [regionRegister_eq src h₁ h₂]
  by_cases hslots : r₂.slots = 0
  · exact ⟨s₂, r₂, if_pos hslots⟩
  · have hready : r₂.Ok ∧ r₂.HasRoom := by
      rcases hcase with rfl | hb
      · have hok := hinv.resolve_left (fun hnone => hslots hnone.1)
        exact ⟨hok, hroom hok⟩
      · exact ⟨hb.ok, hb.ok.room_of_spare (by have := hb.spare; omega)⟩
    obtain ⟨r₃, hrun, _⟩ := hready.1.registerKey_spec (Or.inl hready.2) hkey
    exact ⟨s₂, r₃, by rw [if_neg hslots, hrun]; rfl⟩

/-- The growth that is due when at most one empty slot is left succeeds. -/
def NotStarved (s : σ) (r : Registry) : RegistryOp → Prop
  | .register _ =>
      r.slots ≠ 0 → r.cap ≤ r.size + r.tombs + 1 → (src.alloc s r.grownCap).1 ≠ 0
  | _ => True

/-- A registry without a table, or with an empty slot in it. -/
structure Registry.Spare (r : Registry) : Prop where
  inv : r.Inv
  spare : r.Ok → r.size + r.tombs < r.cap

theorem Registry.Spare.hasRoom {r : Registry} (h : r.Spare) (hok : r.Ok) : r.HasRoom :=
  hok.room_of_spare (h.spare hok)

/-- Every slot of the table is taken, by a key or by a tombstone. -/
def Registry.Full (r : Registry) : Prop := r.slots ≠ 0 ∧ ¬ r.HasRoom

theorem Registry.Spare.not_full {r : Registry} (h : r.Spare) : ¬ r.Full := by
  rintro ⟨hslots, hfull⟩
  exact hfull (h.hasRoom (h.inv.resolve_left (fun hnone => hslots hnone.1)))

theorem Registry.Spare.register {r : Registry} (h : r.Spare) (hsrc : src.RefusesEmpty) (s : σ)
    {k : Nat} (hkey : IsKey k) (hgrow : NotStarved src s r (.register k)) :
    ∃ s' r', regionRegister src s r k = some (s', r') ∧ r'.Spare := by
  obtain ⟨s₁, r₁, s₂, r₂, h₁, h₂, _, hcase, _, hgrown⟩ := growChecks_spec src hsrc h.inv s
  rw [regionRegister_eq src h₁ h₂]
  by_cases hslots : r₂.slots = 0
  · refine ⟨s₂, r₂, if_pos hslots, ?_⟩
    rcases hcase with rfl | hb
    · exact h
    · exact absurd hslots hb.ok.slots_ne
  · have hready : r₂.Ok ∧ r₂.size + r₂.tombs + 1 < r₂.cap := by
      rcases hcase with rfl | hb
      · have hok := h.inv.resolve_left (fun hnone => hslots hnone.1)
        have hcap := hok.cap_ge
        refine ⟨hok, ?_⟩
        by_contra hfew
        have hbuilt := hgrown hok.slots_ne (by unfold Registry.Loaded; omega)
          (hgrow hok.slots_ne (by omega))
        exact hfew hbuilt.spare
      · exact ⟨hb.ok, hb.spare⟩
    obtain ⟨hok, hspare⟩ := hready
    obtain ⟨r₃, hrun, hok₃, hcap₃, hcount₃, _⟩ :=
      hok.registerKey_spec (Or.inl (hok.room_of_spare (by omega))) hkey
    refine ⟨s₂, r₃, by rw [if_neg hslots, hrun]; rfl, Or.inr hok₃, fun _ => ?_⟩
    omega

/-- The search loops of `region_owns` and `region_unregister` end. -/
theorem Registry.Spare.search {r : Registry} (h : r.Spare) {k : Nat} (hk : segmentSize ∣ k) :
    (∃ b, regionOwns r k = some b) ∧ ∃ r', regionUnregister r k = some r' ∧ r'.Spare := by
  rcases h.inv with hnone | hok
  · refine ⟨⟨false, if_pos hnone.1⟩, r, if_pos hnone.1, h⟩
  · obtain ⟨b, howns, _⟩ := hok.owns_spec (Or.inl (h.hasRoom hok)) hk
    obtain ⟨r', hrun, hok', hcap, hcount, _⟩ := hok.unregister_spec (Or.inl (h.hasRoom hok)) hk
    have hspare := h.spare hok
    exact ⟨⟨b, howns⟩, r', hrun, Or.inr hok', fun _ => by omega⟩

theorem Registry.Spare.step {r : Registry} (h : r.Spare) (hsrc : src.RefusesEmpty) (s : σ)
    (op : RegistryOp) (hkey : IsKey op.key) (hgrow : NotStarved src s r op) :
    ∃ s' r', op.run src s r = some (s', r') ∧ r'.Spare := by
  cases op with
  | register k => exact h.register src hsrc s hkey hgrow
  | unregister k =>
      obtain ⟨_, r', hrun, hspare⟩ := h.search (k := k) hkey.2.1
      exact ⟨s, r', by simp [RegistryOp.run, hrun], hspare⟩
  | owns k =>
      obtain ⟨⟨b, hrun⟩, _⟩ := h.search (k := k) hkey.2.1
      exact ⟨s, r, by simp [RegistryOp.run, hrun], h⟩

end Growth

theorem runRegistry_append {σ : Type} (src : TableSource σ) (s : σ) (ops : List RegistryOp)
    (op : RegistryOp) :
    runRegistry src s (ops ++ [op]) =
      (runRegistry src s ops).bind (fun p => op.run src p.1 p.2) := by
  unfold runRegistry
  rw [List.foldlM_append]
  simp

/-- In every sequence of calls on region bases in which the growth that is due
at the last empty slot succeeds, whatever the other allocations answer:
no call hangs, a table always has an empty slot, and in the state reached every
probe loop ends for every key, present or absent. -/
theorem probes_end_unless_starved {σ : Type} (src : TableSource σ) (hsrc : src.RefusesEmpty)
    (s : σ) (ops : List RegistryOp) (hkeys : ∀ op ∈ ops, IsKey op.key)
    (hgrow : ∀ earlier op later s₁ r₁, ops = earlier ++ op :: later →
      runRegistry src s earlier = some (s₁, r₁) → NotStarved src s₁ r₁ op) :
    ∃ s' r, runRegistry src s ops = some (s', r) ∧
      (r.slots ≠ 0 → ∃ j < r.cap, r.cells j = emptySlot) ∧
      (∀ k, segmentSize ∣ k → (regionOwns r k).isSome ∧ (regionUnregister r k).isSome) ∧
      ∀ k s₁, IsKey k → (regionRegister src s₁ r k).isSome := by
  have hrun : ∃ s' r, runRegistry src s ops = some (s', r) ∧ r.Spare := by
    induction ops using List.reverseRecOn with
    | nil =>
        refine ⟨s, Registry.init, rfl, Registry.inv_init, ?_⟩
        exact fun hok => absurd rfl hok.slots_ne
    | append_singleton ops op ih =>
        obtain ⟨s₁, r₁, hrun₁, hspare₁⟩ := ih (fun op' h' => hkeys op' (by simp [h']))
          (fun earlier op' later s₂ r₂ hops =>
            hgrow earlier op' (later ++ [op]) s₂ r₂ (by rw [hops]; simp))
        obtain ⟨s₂, r₂, hrun₂, hspare₂⟩ := hspare₁.step src hsrc s₁ op (hkeys op (by simp))
          (hgrow ops op [] s₁ r₁ rfl hrun₁)
        exact ⟨s₂, r₂, by rw [runRegistry_append, hrun₁]; exact hrun₂, hspare₂⟩
  obtain ⟨s', r, hrun, hspare⟩ := hrun
  refine ⟨s', r, hrun, ?_, ?_, ?_⟩
  · intro hslots
    exact hspare.hasRoom (hspare.inv.resolve_left (fun hnone => hslots hnone.1))
  · intro k hk
    obtain ⟨⟨b, howns⟩, r', hunreg, _⟩ := hspare.search hk
    exact ⟨by rw [howns]; rfl, by rw [hunreg]; rfl⟩
  · intro k s₁ hkey
    obtain ⟨s₂, r₂, hreg⟩ := regionRegister_ends src hsrc hspare.inv hspare.hasRoom s₁ hkey
    rw [hreg]
    rfl

/-- The base of the `i`-th segment of the address space. -/
def segmentBase (i : Nat) : Nat := (i + 1) * segmentSize

/-- `n` regions are registered. -/
def registerMany (n : Nat) : List RegistryOp :=
  (List.range n).map (fun i => .register (segmentBase i))

theorem segmentBase_isKey {i : Nat} (hi : i ≤ 1024) : IsKey (segmentBase i) := by
  unfold segmentBase segmentSize
  refine ⟨by omega, Nat.dvd_mul_left _ _, by omega⟩

theorem segmentBase_injective {i j : Nat} (h : segmentBase i = segmentBase j) : i = j := by
  unfold segmentBase segmentSize at h
  omega

theorem registerMany_succ (n : Nat) :
    registerMany (n + 1) = registerMany n ++ [.register (segmentBase n)] := by
  simp [registerMany, List.range_succ]

theorem registerMany_isKey {n : Nat} (hn : n ≤ 1025) : ∀ op ∈ registerMany n, IsKey op.key := by
  intro op hop
  obtain ⟨i, hi, rfl⟩ := List.mem_map.mp hop
  exact segmentBase_isKey (by have := List.mem_range.mp hi; omega)

/-- The calls before one of the registrations are the registrations before it. -/
theorem registerMany_split {n : Nat} {earlier later : List RegistryOp} {op : RegistryOp}
    (h : registerMany n = earlier ++ op :: later) :
    earlier.length < n ∧ earlier = registerMany earlier.length := by
  have hlen : n = earlier.length + (later.length + 1) := by
    have := congrArg List.length h
    simpa [registerMany] using this
  refine ⟨by omega, ?_⟩
  have htake : (registerMany n).take earlier.length = earlier := by rw [h, List.take_left]
  rw [registerMany, ← List.map_take, List.take_range, Nat.min_eq_left (by omega)] at htake
  exact htake.symm

/-- The first table after the first `n` registrations, none of which has made it grow. -/
structure Registry.FirstTable (r : Registry) (n : Nat) : Prop where
  ok : r.Ok
  cap : r.cap = 1024
  size : r.size = n
  tombs : r.tombs = 0
  holds : ∀ k, r.Holds k ↔ ∃ i < n, k = segmentBase i

section FirstTable

variable {σ : Type} {src : TableSource σ} {s : σ} {r r' : Registry} {n : Nat}

theorem registerKey_counts {k : Nat} (h : registerKey r k = some r') :
    r' = r ∨ r'.size = r.size + 1 ∧ r'.tombs ≤ r.tombs := by
  simp only [registerKey, Option.bind_eq_bind, Option.bind_eq_some_iff] at h
  obtain ⟨found, _, hfound⟩ := h
  split at hfound
  · cases hfound
    exact Or.inl rfl
  · split at hfound <;> cases hfound
    · exact Or.inr ⟨rfl, Nat.sub_le _ _⟩
    · exact Or.inr ⟨rfl, Nat.le_refl _⟩

/-- The insertion of the next base. -/
theorem Registry.FirstTable.registerKey (h : r.FirstTable n) (hn : n < 1024) :
    ∃ r', HMalloc.registerKey r (segmentBase n) = some r' ∧ r'.FirstTable (n + 1) := by
  have hroom : r.HasRoom := h.ok.room_of_spare (by rw [h.size, h.tombs, h.cap]; exact hn)
  obtain ⟨r', hrun, hok, hcap, _, hholds, _⟩ :=
    h.ok.registerKey_spec (Or.inl hroom) (segmentBase_isKey hn.le)
  have hnew : r' ≠ r := by
    rintro rfl
    obtain ⟨i, hi, heq⟩ := (h.holds _).mp ((hholds _).mpr (Or.inl rfl))
    have := segmentBase_injective heq
    omega
  obtain ⟨hsize, htombs⟩ := (registerKey_counts hrun).resolve_left hnew
  refine ⟨r', hrun, hok, hcap.trans h.cap, by rw [hsize, h.size], ?_, fun k => ?_⟩
  · rw [h.tombs] at htombs
    exact Nat.le_zero.mp htombs
  · rw [hholds, h.holds]
    constructor
    · rintro (rfl | ⟨i, hi, rfl⟩)
      · exact ⟨n, by omega, rfl⟩
      · exact ⟨i, by omega, rfl⟩
    · rintro ⟨i, hi, rfl⟩
      rcases Nat.lt_succ_iff_lt_or_eq.mp hi with hlt | rfl
      · exact Or.inr ⟨i, hlt, rfl⟩
      · exact Or.inl rfl

/-- The first registration gets the first table. -/
theorem regionRegister_first (hgrant : (src.alloc s 1024).1 ≠ 0) :
    ∃ r, regionRegister src s Registry.init (segmentBase 0) = some ((src.alloc s 1024).2, r) ∧
      r.FirstTable 1 := by
  obtain ⟨s₁, r₁, hgrow, hok₁, hcap₁, hsize₁, htombs₁, hholds₁⟩ :=
    growLocked_ok src Registry.inv_init s 1024 (m := 10) (by omega) rfl
      (by simp [Registry.init]) hgrant
  obtain rfl : (src.alloc s 1024).2 = s₁ := by
    simp [growLocked, hgrant, Registry.init, rehash] at hgrow
    exact hgrow.1
  have hfirst : r₁.FirstTable 0 := by
    refine ⟨hok₁, hcap₁, hsize₁, htombs₁, fun k => ?_⟩
    rw [hholds₁]
    exact iff_of_false (fun h => h.1 rfl) (by simp)
  have hmissing : growIfMissing src s Registry.init = some ((src.alloc s 1024).2, r₁) := hgrow
  have hloaded : growIfLoaded src (src.alloc s 1024).2 r₁ = some ((src.alloc s 1024).2, r₁) := by
    rw [growIfLoaded, hfirst.size, hfirst.tombs, hfirst.cap, if_neg (by omega)]
  obtain ⟨r₂, hrun, hfirst₂⟩ := hfirst.registerKey (by omega)
  refine ⟨r₂, ?_, hfirst₂⟩
  rw [regionRegister_eq src hmissing hloaded, if_neg hok₁.slots_ne, hrun]
  rfl

/-- From the 717th registration on the load check asks for a table of 2048 slots.
Refused, `region_register` only inserts. -/
theorem Registry.FirstTable.register_refused (h : r.FirstTable n)
    (hrefused : 716 ≤ n → (src.alloc s 2048).1 = 0) (k : Nat) :
    regionRegister src s r k = (HMalloc.registerKey r k).map
      (fun r' => (if 716 ≤ n then (src.alloc s 2048).2 else s, r')) := by
  have hmissing : growIfMissing src s r = some (s, r) := if_neg h.ok.slots_ne
  have hloaded : growIfLoaded src s r =
      some (if 716 ≤ n then (src.alloc s 2048).2 else s, r) := by
    rw [growIfLoaded, h.size, h.tombs, h.cap]
    by_cases hn : 716 ≤ n
    · rw [if_pos (by omega), if_pos (by omega), if_pos hn]
      exact growLocked_fail src s (hrefused hn)
    · rw [if_neg (by omega), if_neg hn]
  rw [regionRegister_eq src hmissing hloaded, if_neg h.ok.slots_ne]

/-- Granted, it gives the first table back. -/
theorem Registry.FirstTable.register_granted (h : r.FirstTable n) (src : TableSource σ) (s : σ)
    (hlow : 716 ≤ n) (hn : n < 1024) (hgrant : (src.alloc s 2048).1 ≠ 0) :
    ∃ r', regionRegister src s r (segmentBase n) =
      some (src.free (src.alloc s 2048).2 r.slots 1024, r') ∧ r'.cap = 2048 := by
  have hsize := h.size
  obtain ⟨s₁, r₁, hgrow, hok₁, hcap₁, hsize₁, htombs₁, _⟩ :=
    growLocked_ok src (Or.inr h.ok) s 2048 (m := 11) (by omega) rfl (by omega) hgrant
  obtain rfl : src.free (src.alloc s 2048).2 r.slots 1024 = s₁ := by
    simp only [growLocked, if_neg hgrant, if_pos h.ok.slots_ne, h.cap, Option.bind_eq_bind,
      Option.bind_eq_some_iff] at hgrow
    obtain ⟨cells, _, heq⟩ := hgrow
    cases heq
    rfl
  have hmissing : growIfMissing src s r = some (s, r) := if_neg h.ok.slots_ne
  have hloaded : growIfLoaded src s r = growLocked src s r 2048 := by
    rw [growIfLoaded, h.tombs, h.cap, if_pos (by omega), if_pos (by omega)]
  obtain ⟨r₂, hrun, _, hcap₂, _⟩ := hok₁.registerKey_spec
    (Or.inl (hok₁.room_of_spare (by omega))) (segmentBase_isKey hn.le)
  refine ⟨r₂, ?_, by omega⟩
  rw [regionRegister_eq src hmissing (hloaded.trans hgrow), if_neg hok₁.slots_ne, hrun]
  rfl

/-- As long as every growth is refused, each registration takes one more slot of the
first table. `state n` is the source's state after `n` registrations. -/
theorem registerMany_refused (src : TableSource σ) (state : Nat → σ) {limit : Nat}
    (hlimit : limit ≤ 1024)
    (hfirst : (src.alloc (state 0) 1024).1 ≠ 0) (hone : state 1 = (src.alloc (state 0) 1024).2)
    (hrefused : ∀ i < limit, 716 ≤ i → (src.alloc (state i) 2048).1 = 0)
    (hnext : ∀ i < limit, 0 < i →
      state (i + 1) = if 716 ≤ i then (src.alloc (state i) 2048).2 else state i)
    (hn : n < limit) :
    ∃ r, runRegistry src (state 0) (registerMany (n + 1)) = some (state (n + 1), r) ∧
      r.FirstTable (n + 1) := by
  induction n with
  | zero =>
      obtain ⟨r, hrun, htable⟩ := regionRegister_first hfirst
      refine ⟨r, ?_, htable⟩
      rw [registerMany_succ, runRegistry_append, hone]
      exact hrun
  | succ n ih =>
      obtain ⟨r, hrun, htable⟩ := ih (by omega)
      obtain ⟨r', hrun', htable'⟩ := htable.registerKey (by omega)
      refine ⟨r', ?_, htable'⟩
      rw [registerMany_succ, runRegistry_append, hrun, hnext (n + 1) hn (by omega)]
      change regionRegister src _ r _ = _
      rw [htable.register_refused (hrefused (n + 1) hn), hrun']
      rfl

end FirstTable

/-- A source that grants the first table, refuses the next 307 requests and grants all
later ones. The table it refuses to grow has one empty slot left by then. -/
def lateSource : TableSource Nat where
  alloc asked cap :=
    if cap = 0 ∨ 0 < asked ∧ asked < 308 then (0, asked + 1) else (asked + 1, asked + 1)
  free asked _ _ := asked

theorem registerMany_late {n : Nat} (hn : n < 1023) :
    ∃ r, runRegistry lateSource 0 (registerMany (n + 1)) = some (1 + (n + 1 - 716), r) ∧
      r.FirstTable (n + 1) := by
  refine registerMany_refused lateSource (fun i => if i = 0 then 0 else 1 + (i - 716))
    (by omega) (by simp [lateSource]) (by simp [lateSource]) ?_ ?_ hn
  · intro i hi hlow
    simp only [lateSource, if_neg (show i ≠ 0 by omega)]
    rw [if_pos (by omega)]
  · intro i hi hpos
    simp only [lateSource, if_neg (show i ≠ 0 by omega), if_neg (Nat.succ_ne_zero i)]
    split
    · rw [if_pos (by omega)]
      omega
    · omega

/-- The growth that is due at the last empty slot is granted. -/
theorem lateSource_notStarved {earlier later : List RegistryOp} {op : RegistryOp} {s : Nat}
    {r : Registry} (hops : registerMany 1024 = earlier ++ op :: later)
    (hrun : runRegistry lateSource 0 earlier = some (s, r)) : NotStarved lateSource s r op := by
  obtain ⟨hlen, heq⟩ := registerMany_split hops
  cases op with
  | register k =>
      intro hslots hfew
      rcases hcase : earlier.length with _ | n
      · rw [heq, hcase] at hrun
        cases hrun
        exact absurd rfl hslots
      · obtain ⟨r', hrun', htable⟩ := registerMany_late (n := n) (by omega)
        rw [heq, hcase, hrun', Option.some.injEq, Prod.mk.injEq] at hrun
        obtain ⟨rfl, rfl⟩ := hrun
        -- One slot is empty, so 1023 bases are registered and 308 requests were made.
        rw [htable.cap, htable.size, htable.tombs] at hfew
        obtain rfl : n = 1022 := by omega
        simp [lateSource, Registry.grownCap, htable.cap, htable.size]
  | unregister k => trivial
  | owns k => trivial

/-- 307 growths are refused, and the one at the last empty slot is granted. -/
theorem probes_end_unless_starved_late :
    ∃ r r', runRegistry lateSource 0 (registerMany 1023) = some (308, r) ∧ r.cap = 1024 ∧
      r.size = 1023 ∧ runRegistry lateSource 0 (registerMany 1024) = some (309, r') ∧
      r'.cap = 2048 ∧ (regionOwns r' (segmentBase 1024)).isSome := by
  obtain ⟨r, hrun, htable⟩ := registerMany_late (n := 1022) (by omega)
  obtain ⟨r', hgrown, hcap⟩ := htable.register_granted lateSource 308
    (by omega) (by omega) (by simp [lateSource])
  have hrun' : runRegistry lateSource 0 (registerMany 1024) = some (309, r') := by
    rw [registerMany_succ, runRegistry_append, hrun]
    exact hgrown
  obtain ⟨s₂, r₂, hrun₂, _, hsearch, _⟩ := probes_end_unless_starved lateSource
    (fun s => by simp [lateSource]) 0 (registerMany 1024) (registerMany_isKey (by omega))
    (fun _ _ _ _ _ hops hearlier => lateSource_notStarved hops hearlier)
  cases hrun'.symm.trans hrun₂
  exact ⟨r, _, hrun, htable.cap, htable.size, hrun', hcap,
    (hsearch (segmentBase 1024) (segmentBase_isKey (Nat.le_refl _)).2.1).1⟩

/-- A source that grants the first table and no other. -/
def onceSource : TableSource Bool where
  alloc used cap := if used ∨ cap = 0 then (0, used) else (1, true)
  free used _ _ := used

theorem onceSource_refusesEmpty : onceSource.RefusesEmpty := fun s => by simp [onceSource]

theorem registerMany_once {n : Nat} (hn : n < 1024) :
    ∃ r, runRegistry onceSource false (registerMany (n + 1)) = some (true, r) ∧
      r.FirstTable (n + 1) := by
  refine registerMany_refused onceSource (fun i => decide (0 < i))
    (Nat.le_refl _) (by simp [onceSource]) (by simp [onceSource]) ?_ ?_ hn
  · intro i hi hlow
    simp [onceSource, show 0 < i by omega]
  · intro i hi hpos
    simp [onceSource, hpos]

/-- A table with as many keys as slots is full. -/
theorem Registry.Ok.no_room {r : Registry} (h : r.Ok) (hsize : r.size = r.cap) : ¬ r.HasRoom := by
  rintro ⟨e, he, hempty⟩
  rw [h.size_eq, liveSlots] at hsize
  have hlive := List.countP_eq_length.mp (hsize.trans List.length_range.symm) e
    (List.mem_range.mpr he)
  rw [hempty] at hlive
  cases hlive

/-- The first table is granted and every growth fails: after 1024 registrations
no slot is empty, and the next query, removal or registration of another base
never ends. -/
theorem failed_growth_hangs :
    ∃ r, runRegistry onceSource false (registerMany 1024) = some (true, r) ∧ r.slots ≠ 0 ∧
      (¬ ∃ j < r.cap, r.cells j = emptySlot) ∧
      IsKey (segmentBase 1024) ∧ regionOwns r (segmentBase 1024) = none ∧
      regionUnregister r (segmentBase 1024) = none ∧
      regionRegister onceSource true r (segmentBase 1024) = none := by
  obtain ⟨r, hrun, htable⟩ := registerMany_once (n := 1023) (by omega)
  have hok := htable.ok
  have hfull := hok.no_room (htable.size.trans htable.cap.symm)
  have hkey := segmentBase_isKey (Nat.le_refl 1024)
  have habs : ¬ r.Holds (segmentBase 1024) := by
    rw [htable.holds]
    rintro ⟨i, hi, heq⟩
    have := segmentBase_injective heq
    omega
  obtain ⟨hfind, hregister⟩ := hok.search_absent_full hfull hkey.2.1 habs
  refine ⟨r, hrun, hok.slots_ne, hfull, hkey, ?_, ?_, ?_⟩
  · simp [regionOwns, hok.slots_ne, hfind]
  · simp [regionUnregister, hok.slots_ne, hfind]
  · rw [htable.register_refused (fun _ => by simp [onceSource]), hregister]
    rfl

section Kept

variable {σ : Type} {src : TableSource σ}

/-- Without an assumption on the room left: a registration that ends keeps the
invariant, and with a table to end in it has its key in the set. -/
theorem regionRegister_keeps (hsrc : src.RefusesEmpty) {r r' : Registry} (hinv : r.Inv) {s s' : σ}
    {k : Nat} (hkey : IsKey k) (hrun : regionRegister src s r k = some (s', r')) :
    r'.Inv ∧ (r.slots ≠ 0 ∨ (src.alloc s 1024).1 ≠ 0 →
      ∀ k', r'.Holds k' ↔ k' = k ∨ r.Holds k') := by
  obtain ⟨s₁, r₁, s₂, r₂, h₁, h₂, hholds, hcase, hfirst, _⟩ := growChecks_spec src hsrc hinv s
  rw [regionRegister_eq src h₁ h₂] at hrun
  have hinv₂ : r₂.Inv := by
    rcases hcase with rfl | hb
    · exact hinv
    · exact Or.inr hb.ok
  by_cases hslots : r₂.slots = 0
  · rw [if_pos hslots] at hrun
    cases hrun
    refine ⟨hinv₂, fun htable => ?_⟩
    rcases hcase with rfl | hb
    · exact absurd hslots (hfirst hslots (htable.resolve_left (fun h => h hslots))).ok.slots_ne
    · exact absurd hslots hb.ok.slots_ne
  · have hok := hinv₂.resolve_left (fun hnone => hslots hnone.1)
    rw [if_neg hslots, Option.map_eq_some_iff] at hrun
    obtain ⟨r₃, hkeyed, heq⟩ := hrun
    cases heq
    have hroom : r₂.HasRoom ∨ r₂.Holds k := by
      by_contra hnot
      rw [not_or] at hnot
      rw [(hok.search_absent_full hnot.1 hkey.2.1 hnot.2).2] at hkeyed
      cases hkeyed
    obtain ⟨r₄, hrun₄, hok₄, _, _, hholds₄, _⟩ := hok.registerKey_spec hroom hkey
    rw [hkeyed] at hrun₄
    cases hrun₄
    exact ⟨Or.inr hok₄, fun _ k' => by rw [hholds₄, hholds]⟩

theorem regionUnregister_keeps {r r' : Registry} (hinv : r.Inv) {k : Nat} (hk : segmentSize ∣ k)
    (hrun : regionUnregister r k = some r') :
    r'.Inv ∧ ∀ k', r'.Holds k' ↔ r.Holds k' ∧ k' ≠ k := by
  rcases hinv with hnone | hok
  · rw [regionUnregister, if_pos hnone.1] at hrun
    cases hrun
    exact ⟨Or.inl hnone, fun k' => ⟨fun h => absurd hnone.1 h.1, fun h => h.1⟩⟩
  · have hroom : r.HasRoom ∨ r.Holds k := by
      by_contra hnot
      rw [not_or] at hnot
      simp [regionUnregister, hok.slots_ne, (hok.search_absent_full hnot.1 hk hnot.2).1] at hrun
    obtain ⟨r₁, hrun₁, hok₁, _, _, hholds₁, _⟩ := hok.unregister_spec hroom hk
    rw [hrun] at hrun₁
    cases hrun₁
    exact ⟨Or.inr hok₁, hholds₁⟩

theorem Registry.Inv.owns_of_holds {r : Registry} (hinv : r.Inv) {k : Nat} (hk : segmentSize ∣ k)
    (h : r.Holds k) : regionOwns r k = some true := by
  have hok := hinv.resolve_left (fun hnone => h.1 hnone.1)
  obtain ⟨b, hrun, hb⟩ := hok.owns_spec (Or.inr h) hk
  rw [hrun, hb.mpr h]

/-- Only a full table keeps `region_owns` from answering no. -/
theorem Registry.Inv.owns_false_iff {r : Registry} (hinv : r.Inv) {k : Nat} (hk : segmentSize ∣ k) :
    regionOwns r k = some false ↔ ¬ r.Holds k ∧ ¬ r.Full := by
  rcases hinv with hnone | hok
  · have hfalse : regionOwns r k = some false := if_pos hnone.1
    exact iff_of_true hfalse ⟨fun h => h.1 hnone.1, fun h => h.1 hnone.1⟩
  · by_cases hroom : r.HasRoom ∨ r.Holds k
    · obtain ⟨b, hrun, hb⟩ := hok.owns_spec hroom hk
      rw [hrun, Option.some_inj, ← Bool.not_eq_true, hb, iff_self_and]
      exact fun habsent hfull => hroom.elim hfull.2 habsent
    · rw [not_or] at hroom
      have hnone : regionOwns r k = none := by
        simp [regionOwns, hok.slots_ne, (hok.search_absent_full hroom.1 hk hroom.2).1]
      rw [hnone]
      exact iff_of_false (by simp) (fun h => h.2 ⟨hok.slots_ne, hroom.1⟩)

/-- Only a full table keeps `region_unregister` from returning. -/
theorem Registry.Inv.unregister_ends {r : Registry} (hinv : r.Inv) (hfull : ¬ r.Full) {k : Nat}
    (hk : segmentSize ∣ k) : ∃ r', regionUnregister r k = some r' := by
  rcases hinv with hnone | hok
  · exact ⟨r, if_pos hnone.1⟩
  · have hroom : r.HasRoom := not_not.mp (fun h => hfull ⟨hok.slots_ne, h⟩)
    obtain ⟨r', hrun, _⟩ := hok.unregister_spec (Or.inl hroom) hk
    exact ⟨r', hrun⟩

/-- Every registration of a sequence of calls finds a table or gets one. -/
def TablesFound (src : TableSource σ) (s : σ) (ops : List RegistryOp) : Prop :=
  ∀ earlier k later s₁ r₁, ops = earlier ++ .register k :: later →
    runRegistry src s earlier = some (s₁, r₁) → r₁.slots ≠ 0 ∨ (src.alloc s₁ 1024).1 ≠ 0

theorem runRegistry_holds (hsrc : src.RefusesEmpty) {s : σ} {ops : List RegistryOp}
    (hkeys : ∀ op ∈ ops, IsKey op.key) (htable : TablesFound src s ops) {s' : σ} {r : Registry}
    (hrun : runRegistry src s ops = some (s', r)) :
    r.Inv ∧ ∀ k, r.Holds k ↔ k ∈ registered ops := by
  induction ops using List.reverseRecOn generalizing s' r with
  | nil =>
      cases hrun
      exact ⟨Registry.inv_init, fun k => by simp [Registry.Holds, Registry.init, registered]⟩
  | append_singleton ops op ih =>
      rw [runRegistry_append, Option.bind_eq_some_iff] at hrun
      obtain ⟨⟨s₁, r₁⟩, hrun₁, hop⟩ := hrun
      obtain ⟨hinv₁, hholds₁⟩ := ih (fun op' h' => hkeys op' (by simp [h']))
        (fun earlier k later s₂ r₂ hops =>
          htable earlier k (later ++ [op]) s₂ r₂ (by rw [hops]; simp)) hrun₁
      have hkey := hkeys op (by simp)
      have hlast : registered (ops ++ [op]) = op.apply (registered ops) := by simp [registered]
      rw [hlast]
      cases op with
      | register k =>
          change IsKey k at hkey
          obtain ⟨hinv, hholds⟩ := regionRegister_keeps hsrc hinv₁ hkey hop
          refine ⟨hinv, fun k' => ?_⟩
          rw [hholds (htable ops k [] s₁ r₁ rfl hrun₁), hholds₁, RegistryOp.apply,
            Finset.mem_insert]
      | unregister k =>
          change IsKey k at hkey
          simp only [RegistryOp.run, Option.map_eq_some_iff] at hop
          obtain ⟨r₂, hunreg, heq⟩ := hop
          cases heq
          obtain ⟨hinv, hholds⟩ := regionUnregister_keeps hinv₁ hkey.2.1 hunreg
          refine ⟨hinv, fun k' => ?_⟩
          rw [hholds, hholds₁, RegistryOp.apply, Finset.mem_erase, and_comm]
      | owns k =>
          simp only [RegistryOp.run, Option.map_eq_some_iff] at hop
          obtain ⟨b, _, heq⟩ := hop
          cases heq
          exact ⟨hinv₁, hholds₁⟩

end Kept

theorem regionBase_zero : regionBase 0 = 0 := by decide

/-- In every sequence of calls in which each registration finds a table or gets
its first one, whatever the growth of that table answers: a registered base is
owned until it is unregistered, so the override serves every pointer into its
window from this allocator; and a failed `grow_locked` changes nothing. -/
theorem registration_kept_with_table {σ : Type} (src : TableSource σ) (hsrc : src.RefusesEmpty)
    (s : σ) (ops : List RegistryOp) (hkeys : ∀ op ∈ ops, IsKey op.key)
    (htable : TablesFound src s ops) (s' : σ) (r : Registry)
    (hrun : runRegistry src s ops = some (s', r)) :
    (∀ earlier k later, ops = earlier ++ .register k :: later → .unregister k ∉ later →
      regionOwns r k = some true ∧
        ∀ real p, regionBase p = k → RoutedHome real r p) ∧
    (∀ s₁ newCap, (src.alloc s₁ newCap).1 = 0 →
      ∃ s₂, growLocked src s₁ r newCap = some (s₂, r)) := by
  obtain ⟨hinv, hholds⟩ := runRegistry_holds hsrc hkeys htable hrun
  constructor
  · intro earlier k later hops hnot
    have hkey : IsKey k := hkeys (.register k) (by rw [hops]; simp)
    have hmem : k ∈ registered ops := (mem_registered_iff ops k).mpr ⟨earlier, later, hops, hnot⟩
    have howns := hinv.owns_of_holds hkey.2.1 ((hholds k).mpr hmem)
    refine ⟨howns, ?_⟩
    intro real p hp
    apply RoutedHome.of_owns
    · rintro rfl
      exact hkey.1 (hp.symm.trans regionBase_zero)
    · rw [hp]
      exact howns
  · intro s₁ newCap halloc
    exact ⟨_, growLocked_fail src s₁ halloc⟩

/-- 308 growths are refused, and the full table has all 1024 bases. -/
theorem registration_kept_with_table_refused :
    ∃ r, runRegistry onceSource false (registerMany 1024) = some (true, r) ∧ r.cap = 1024 ∧
      ∀ i < 1024, regionOwns r (segmentBase i) = some true := by
  obtain ⟨r, hrun, htable⟩ := registerMany_once (n := 1023) (by omega)
  refine ⟨r, hrun, htable.cap, fun i hi => ?_⟩
  have hmem : .register (segmentBase i) ∈ registerMany 1024 :=
    List.mem_map.mpr ⟨i, List.mem_range.mpr hi, rfl⟩
  obtain ⟨earlier, later, hops⟩ := List.append_of_mem hmem
  refine ((registration_kept_with_table onceSource onceSource_refusesEmpty false
    (registerMany 1024) (registerMany_isKey (by omega)) ?_ true r hrun).1
    earlier (segmentBase i) later hops ?_).1
  · intro earlier k later s₁ r₁ hops hearlier
    obtain ⟨hlen, heq⟩ := registerMany_split hops
    rcases hcase : earlier.length with _ | n
    · rw [heq, hcase] at hearlier
      cases hearlier
      exact Or.inr (by simp [onceSource])
    · obtain ⟨r₂, hrun₂, htable₂⟩ := registerMany_once (n := n) (by omega)
      rw [heq, hcase, hrun₂] at hearlier
      cases hearlier
      exact Or.inl htable₂.ok.slots_ne
  · intro hstruck
    have hop : .unregister (segmentBase i) ∈ registerMany 1024 := by simp [hops, hstruck]
    obtain ⟨_, _, heq⟩ := List.mem_map.mp hop
    cases heq

/-- A source without memory. -/
def emptySource : TableSource Unit where
  alloc _ _ := (0, ())
  free _ _ _ := ()

/-- The allocation of the first table fails: the registration is dropped, and
the override hands a pointer into the region to the real `free`. -/
theorem registration_dropped_without_table :
    ∃ r, runRegistry emptySource () [.register segmentSize] = some ((), r) ∧
      regionOwns r segmentSize = some false ∧
      regionBase (segmentSize + 32) = segmentSize ∧
      checkedFree true r (segmentSize + 32) = some (.realFree (segmentSize + 32)) :=
  ⟨Registry.init, rfl, rfl, by decide, by decide⟩

end HMalloc
