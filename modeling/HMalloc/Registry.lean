import HMalloc.Constants
import HMalloc.Lib.Probe

/-!
The region ownership registry (`region_registry.cpp`): a hash set of region
bases, open addressing with linear probing, tombstones on removal, and a rehash
that either doubles the table or only clears its tombstones. The table memory
comes from the OS layer; that layer is a parameter here (`TableSource`), so
that the same code is run with allocations that fail and with ones that do not.

A probe loop is run with as much fuel as the table has slots. Its position goes
round all of them, so running out of fuel (`none`) means that the loop of the
source never ends. The counters are natural numbers: a slot takes eight bytes
of address space, and no sum below reaches the word size.
-/

namespace HMalloc

/-- `EMPTY`. -/
def emptySlot : Nat := 0

/-- `TOMB`. -/
def tomb : Nat := 2 ^ 64 - 1

/-- `Registry`. `slots` is the address of the table, null before the first
allocation, and `cells` is what the table holds. -/
structure Registry where
  slots : Nat
  cells : Nat → Nat
  cap : Nat
  size : Nat
  tombs : Nat

def Registry.init : Registry where
  slots := 0
  cells := fun _ => emptySlot
  cap := 0
  size := 0
  tombs := 0

/-- The OS layer as the registry uses it: `alloc_slots(cap)` answers the
address of a zeroed table, or null; `os_free(old, slots_bytes(cap))`. -/
structure TableSource (σ : Type) where
  alloc : σ → Nat → Nat × σ
  free : σ → Nat → Nat → σ

/-- `index_of`. -/
def indexOf (capMask key : Nat) : Nat :=
  Word.mul 64 (key >>> segmentShift) 0x9e3779b97f4a7c15 &&& capMask

/-- `(i + 1) & (cap - 1)`. -/
def nextSlot (cap i : Nat) : Nat := (i + 1) &&& (cap - 1)

/-- `raw_insert`. -/
def rawInsert (slots : Nat → Nat) (cap key : Nat) : Option (Nat → Nat) := do
  let i ← Probe.scan (· == emptySlot) (nextSlot cap) slots cap
    (indexOf (cap - 1) key)
  return Function.update slots i key

/-- The rehash loop of `grow_locked`, over the first `oldCap` old slots. -/
def rehash (old : Nat → Nat) (newCap : Nat) : Nat → Option (Nat → Nat)
  | 0 => some (fun _ => emptySlot)
  | i + 1 => do
      let fresh ← rehash old newCap i
      if old i ≠ emptySlot ∧ old i ≠ tomb then rawInsert fresh newCap (old i)
      else return fresh

section Operations

variable {σ : Type} (src : TableSource σ)

/-- `grow_locked`. A failed allocation keeps the old table. -/
def growLocked (s : σ) (r : Registry) (newCap : Nat) : Option (σ × Registry) :=
  let (fresh, s) := src.alloc s newCap
  if fresh = 0 then some (s, r)
  else do
    let cells ← rehash r.cells newCap r.cap
    let s := if r.slots ≠ 0 then src.free s r.slots r.cap else s
    return (s, { r with slots := fresh, cells := cells, cap := newCap, tombs := 0 })

/-- How the probe loop of `region_register` ends. -/
inductive RegisterProbe where
  | present
  | free (i : Nat) (firstTomb : Option Nat)
  deriving DecidableEq

/-- The probe loop of `region_register`, which remembers the first tombstone
it passes; `none` is `first_tomb == SIZE_MAX`. -/
def registerProbe (slots : Nat → Nat) (cap key : Nat) :
    Nat → Nat → Option Nat → Option RegisterProbe
  | 0, _, _ => none
  | fuel + 1, i, firstTomb =>
      if slots i = emptySlot then some (.free i firstTomb)
      else if slots i = key then some .present
      else registerProbe slots cap key fuel (nextSlot cap i)
        (if slots i = tomb ∧ firstTomb = none then some i else firstTomb)

/-- The part of `region_register` after the growth checks. -/
def registerKey (r : Registry) (key : Nat) : Option Registry := do
  match ← registerProbe r.cells r.cap key r.cap (indexOf (r.cap - 1) key) none with
  | .present => return r
  | .free i firstTomb =>
      match firstTomb with
      | some j => return { r with
          cells := Function.update r.cells j key
          tombs := r.tombs - 1
          size := r.size + 1 }
      | none => return { r with
          cells := Function.update r.cells i key
          size := r.size + 1 }

/-- The first growth check of `region_register`. -/
def growIfMissing (s : σ) (r : Registry) : Option (σ × Registry) :=
  if r.slots = 0 then growLocked src s r 1024 else some (s, r)

/-- The second growth check of `region_register`: live entries that are dense
double the table, otherwise a rehash of the same size clears the tombstones. -/
def growIfLoaded (s : σ) (r : Registry) : Option (σ × Registry) :=
  if (r.size + r.tombs + 1) * 10 ≥ r.cap * 7 then
    growLocked src s r (if r.size * 2 ≥ r.cap then r.cap * 2 else r.cap)
  else some (s, r)

/-- `region_register`. -/
def regionRegister (s : σ) (r : Registry) (key : Nat) : Option (σ × Registry) := do
  let (s, r) ← growIfMissing src s r
  let (s, r) ← growIfLoaded src s r
  if r.slots = 0 then return (s, r)
  let r ← registerKey r key
  return (s, r)

/-- The probe loop of `region_unregister` and `region_owns`: the slot where it
ends, on the key or on an empty slot. -/
def findSlot (r : Registry) (key : Nat) : Option Nat :=
  Probe.scan (Probe.stopAt emptySlot key) (nextSlot r.cap) r.cells r.cap
    (indexOf (r.cap - 1) key)

/-- `region_unregister`. -/
def regionUnregister (r : Registry) (key : Nat) : Option Registry :=
  if r.slots = 0 then some r
  else do
    let i ← findSlot r key
    if r.cells i = emptySlot then return r
    else return { r with
      cells := Function.update r.cells i tomb
      size := r.size - 1
      tombs := r.tombs + 1 }

/-- `region_owns`. -/
def regionOwns (r : Registry) (key : Nat) : Option Bool :=
  if r.slots = 0 then some false
  else do
    let i ← findSlot r key
    return r.cells i ≠ emptySlot

end Operations

/-- A region base: non-zero, aligned to the segment size, an address. -/
def IsKey (k : Nat) : Prop := k ≠ 0 ∧ segmentSize ∣ k ∧ k < 2 ^ 64

/-- A slot that holds a key. -/
def isLive (v : Nat) : Bool := v != emptySlot && v != tomb

theorem isLive_iff {v : Nat} : isLive v = true ↔ v ≠ emptySlot ∧ v ≠ tomb := by
  simp [isLive]

theorem not_live_tomb : isLive tomb = false := by decide

/-- The sentinels are no bases: one is null, the other is not aligned. -/
theorem IsKey.live {k : Nat} (h : IsKey k) : isLive k = true := by
  rw [isLive_iff]
  refine ⟨h.1, ?_⟩
  rintro rfl
  exact absurd h.2.1 (by decide)

theorem dvd_ne_tomb {k : Nat} (h : segmentSize ∣ k) : k ≠ tomb := by
  rintro rfl
  exact absurd h (by decide)

/-- The counts that `size` and `tombs` stand for. -/
def liveSlots (cells : Nat → Nat) (cap : Nat) : Nat :=
  (List.range cap).countP (fun j => isLive (cells j))

def tombSlots (cells : Nat → Nat) (cap : Nat) : Nat :=
  (List.range cap).countP (fun j => cells j == tomb)

/-- The representation invariant of a registry that has a table. It does not
bound the load: that depends on whether the tables could be allocated. -/
structure Registry.Ok (r : Registry) : Prop where
  slots_ne : r.slots ≠ 0
  cap_pow : ∃ m, 10 ≤ m ∧ r.cap = 2 ^ m
  sound : Probe.Sound emptySlot tomb (indexOf (r.cap - 1)) r.cells r.cap
  keys : ∀ j < r.cap, isLive (r.cells j) = true → IsKey (r.cells j)
  size_eq : r.size = liveSlots r.cells r.cap
  tombs_eq : r.tombs = tombSlots r.cells r.cap

/-- The keys a registry holds. -/
def Registry.Holds (r : Registry) (k : Nat) : Prop :=
  r.slots ≠ 0 ∧ isLive k = true ∧ Probe.Present r.cells r.cap k

theorem nextSlot_eq {cap m : Nat} (h : cap = 2 ^ m) :
    nextSlot cap = Probe.cyclic cap := by
  funext i
  rw [nextSlot, Probe.cyclic, h, Nat.and_two_pow_sub_one_eq_mod]

theorem indexOf_lt {cap m : Nat} (h : cap = 2 ^ m) (key : Nat) :
    indexOf (cap - 1) key < cap := by
  rw [indexOf, h, Nat.and_two_pow_sub_one_eq_mod]
  exact Nat.mod_lt _ (Nat.two_pow_pos m)

/-- Live, tombstone and empty slots make up the table. -/
theorem occupied_le (cells : Nat → Nat) (cap : Nat) :
    liveSlots cells cap + tombSlots cells cap ≤ cap := by
  unfold liveSlots tombSlots
  induction cap with
  | zero => simp
  | succ n ih =>
      simp only [List.range_succ, List.countP_append, List.countP_cons,
        List.countP_nil]
      by_cases ht : cells n = tomb
      · simp [ht, not_live_tomb]
        omega
      · have hne : (cells n == tomb) = false := by simp [ht]
        rw [hne]
        split <;> simp <;> omega

/-- A table that is not fully occupied has an empty slot. -/
theorem exists_empty_slot {cells : Nat → Nat} {cap : Nat}
    (h : liveSlots cells cap + tombSlots cells cap < cap) :
    ∃ j < cap, cells j = emptySlot := by
  induction cap with
  | zero => omega
  | succ n ih =>
      by_cases hn : cells n = emptySlot
      · exact ⟨n, by omega, hn⟩
      · have hcount : liveSlots cells n + tombSlots cells n < n := by
          unfold liveSlots tombSlots at h ⊢
          simp only [List.range_succ, List.countP_append, List.countP_cons,
            List.countP_nil] at h
          by_cases ht : cells n = tomb
          · simp [ht, not_live_tomb] at h
            omega
          · have hl : isLive (cells n) = true := isLive_iff.mpr ⟨hn, ht⟩
            simp [hl] at h
            omega
        obtain ⟨j, hj, he⟩ := ih hcount
        exact ⟨j, by omega, he⟩

theorem liveSlots_update (cells : Nat → Nat) {cap j : Nat} (hj : j < cap) (v : Nat) :
    liveSlots (Function.update cells j v) cap + (isLive (cells j)).toNat =
      liveSlots cells cap + (isLive v).toNat :=
  Count.countP_update List.nodup_range (List.mem_range.mpr hj) cells v isLive

theorem tombSlots_update (cells : Nat → Nat) {cap j : Nat} (hj : j < cap) (v : Nat) :
    tombSlots (Function.update cells j v) cap + (cells j == tomb).toNat =
      tombSlots cells cap + (v == tomb).toNat :=
  Count.countP_update List.nodup_range (List.mem_range.mpr hj) cells v (· == tomb)

end HMalloc
