import HMalloc.Agreement
import HMalloc.Lib.Tally
import HMalloc.Mapping
import HMalloc.Stats

/-!
The byte counters of the OS layer and of the large regions. `Balanced` says that
`bytesMapped` is the total size of the regions the allocator has mapped and has
never wrapped; every mapping and unmapping keeps it, because an unmapping names
the size that was mapped, and because disjoint regions fit into the address
space together. `Books` adds the registry's table and the large counters, which
are moved before the region is given back.
-/

namespace HMalloc

open Bytes Linked Tally

section Os

/-- The allocator has `n` bytes mapped at `b`. -/
def Owned (regions : Nat → Option Region) (b n : Nat) : Prop :=
  ∃ purpose, regions b = some ⟨n, purpose⟩ ∧ purpose ≠ .foreign

/-- `bytesMapped` is what is mapped. -/
structure Balanced (os : Os) : Prop where
  counts : ∃ count, Counts (Owned os.regions) count os.bytesMapped
  clean : os.wrapped = false

variable {os os' : Os} {b size : Nat} {purpose : Purpose}

/-- There is room in the counter for every range the kernel may still map. -/
theorem Balanced.room (h : Balanced os) (hr : RegionsOk os.mapped os.regions) {base len : Nat}
    (hne : base ≠ 0) (hpos : 0 < len) (hbound : base + len ≤ 2 ^ 64)
    (hfresh : ∀ x, base ≤ x → x < base + len → os.mapped x = false) :
    os.bytesMapped + len < 2 ^ 64 := by
  obtain ⟨count, hcounts⟩ := h.counts
  have hm := Os.mapped_foreign hne hpos hbound hfresh
  have hinsert := hcounts.insert (a := base) (n := len)
    (fun m ⟨_, hb, _⟩ => by rw [hm.unmapped_before hr] at hb; cases hb) (fun _ _ => Iff.rfl)
  have hle : os.bytesMapped + len ≤ 2 ^ 64 - 1 := by
    refine hinsert.total_le ?_ ?_
    · rintro a n (⟨rfl, rfl⟩ | ⟨_, ha, _⟩)
      · omega
      · obtain ⟨hne', _, hle⟩ := hr.range a _ ha
        simp only at hle
        omega
    · rintro a n c m (⟨rfl, rfl⟩ | ⟨_, ha, _⟩) (⟨rfl, rfl⟩ | ⟨_, hc, _⟩) hac
      · exact absurd rfl hac
      · exact hm.disjoint hr hc
      · exact (hm.disjoint hr ha).symm
      · exact hr.disjoint _ _ _ _ ha hc hac
  omega

theorem Os.trim_wrapped (os : Os) (base len : Nat) : (os.trim base len).wrapped = os.wrapped := by
  unfold Os.trim
  split <;> rfl

/-- A successful mapping adds its size; the head and the tail of an over-map
are taken back at once. -/
theorem osAllocAligned_accounts {ps : PageSize} {answer : Option Nat} {alignment : Nat}
    (hk : KernelOk ps answer os size alignment) (hsize : size < 2 ^ 64)
    (halign : alignment < 2 ^ 64)
    (hroom : ∀ base len, base ≠ 0 → 0 < len → base + len ≤ 2 ^ 64 →
      (∀ x, base ≤ x → x < base + len → os.mapped x = false) → os.bytesMapped + len < 2 ^ 64)
    (h : osAllocAligned ps answer os size alignment purpose = (some b, os')) :
    os'.bytesMapped = os.bytesMapped + size ∧ os'.wrapped = os.wrapped := by
  unfold osAllocAligned at h
  cases hlen : mmapLength ps.bytes size alignment with
  | none =>
      rw [hlen] at h
      cases h
  | some len =>
      cases answer with
      | none =>
          rw [hlen] at h
          cases h
      | some base =>
          obtain ⟨hne, _, hbound, hfresh⟩ := hk base rfl len hlen
          obtain ⟨hacc, hcases⟩ := mmapLength_spec hsize halign hlen
          obtain ⟨hpos, _, _, k, hpow⟩ := osAccepts_spec hacc
          rw [hlen] at h
          dsimp only at h
          rcases hcases with ⟨hsmall, rfl⟩ | ⟨hbig, rfl, _⟩
          · rw [if_pos hsmall] at h
            cases h
            exact ⟨Word.add_eq (hroom _ _ hne hpos hbound hfresh), rfl⟩
          · rw [if_neg (by omega)] at h
            obtain ⟨aligned, haligned, _, hle, hlt, hhead, htail, hend⟩ :=
              overmap_arith hpow hpos hbound hne
            have hfit := hroom base (size + alignment) hne (by omega) hbound hfresh
            have htrim : Word.add 64 (aligned - base) (base + alignment - aligned) = alignment := by
              rw [Word.add_eq (by omega)]
              omega
            simp only [haligned, hhead, htail, hend, htrim] at h
            cases h
            simp only [Os.retain, Os.accountUnmap, Os.accountMap, Os.trim_bytesMapped,
              Os.trim_wrapped, Os.rawMmap, Word.add_eq hfit]
            rw [Word.sub_eq hfit (by omega), decide_eq_false (by omega), Bool.or_false]
            exact ⟨by omega, rfl⟩

theorem owned_mapped (hm : os.Mapped os' b size purpose) (hr : RegionsOk os.mapped os.regions)
    (hp : purpose ≠ .foreign) (a n : Nat) :
    Owned os'.regions a n ↔ (a = b ∧ n = size) ∨ Owned os.regions a n := by
  unfold Owned
  rw [hm.regions]
  by_cases hab : a = b
  · subst hab
    simp only [Function.update_self, Option.some.injEq, Region.mk.injEq, true_and,
      hm.unmapped_before hr, reduceCtorEq, false_and, exists_false, or_false]
    exact ⟨fun ⟨_, ⟨heq, _⟩, _⟩ => heq.symm, fun heq => ⟨purpose, ⟨heq.symm, rfl⟩, hp⟩⟩
  · simp [hab]

/-- A mapping keeps the balance. -/
theorem Balanced.map {ps : PageSize} {answer : Option Nat} {alignment : Nat} (h : Balanced os)
    (hr : RegionsOk os.mapped os.regions) (hk : KernelOk ps answer os size alignment)
    (hsize : size < 2 ^ 64) (halign : alignment < 2 ^ 64)
    (halloc : osAllocAligned ps answer os size alignment purpose = (some b, os'))
    (hm : os.Mapped os' b size purpose) (hp : purpose ≠ .foreign) : Balanced os' := by
  obtain ⟨count, hcounts⟩ := h.counts
  obtain ⟨hbytes, hwrapped⟩ := osAllocAligned_accounts hk hsize halign
    (fun _ _ => h.room hr) halloc
  refine ⟨⟨count + 1, ?_⟩, hwrapped.trans h.clean⟩
  rw [hbytes]
  refine hcounts.insert ?_ (owned_mapped hm hr hp)
  rintro m ⟨_, hb, _⟩
  rw [hm.unmapped_before hr] at hb
  cases hb

/-- So does the unmapping of a whole region. -/
theorem Balanced.unmap (h : Balanced os) (hr : RegionsOk os.mapped os.regions)
    (hb : os.regions b = some ⟨size, purpose⟩) (hp : purpose ≠ .foreign) :
    Balanced (osFree os b size) := by
  obtain ⟨count, hcounts⟩ := h.counts
  obtain ⟨hne, hpos, hbound⟩ := hr.range b _ hb
  simp only at hpos hbound
  have heq : osFree os b size = ((os.munmap b size).accountUnmap size).forget b :=
    if_neg (by omega)
  have hlt : os.bytesMapped ≤ 2 ^ 64 - 1 := by
    refine hcounts.total_le ?_ ?_
    · rintro a n ⟨_, ha, _⟩
      have hrange := hr.range a _ ha
      simp only at hrange
      omega
    · rintro a n c m ⟨_, ha, _⟩ ⟨_, hc, _⟩ hac
      exact hr.disjoint _ _ _ _ ha hc hac
  have hforget : ∀ a m, Owned (Function.update os.regions b none) a m ↔
      Owned os.regions a m ∧ a ≠ b := by
    intro a m
    unfold Owned
    by_cases hab : a = b
    · subst hab
      simp
    · simp [hab]
  obtain ⟨_, hle, hrest⟩ := hcounts.erase ⟨purpose, hb, hp⟩ hforget
  rw [heq]
  refine ⟨⟨count - 1, ?_⟩, ?_⟩
  · change Counts (Owned (Function.update os.regions b none)) _ (Word.sub 64 os.bytesMapped size)
    rw [Word.sub_eq (by omega) hle]
    exact hrest
  · change (os.wrapped || decide (os.bytesMapped < size)) = false
    rw [h.clean, decide_eq_false (by omega)]
    rfl

end Os

section Tables

/-- The registry's table is the only one that is mapped. -/
structure TableBooks (ps : PageSize) (os : Os) (r : Registry) : Prop where
  regions : RegionsOk os.mapped os.regions
  table : TableOk ps os r
  only : ∀ b size, os.regions b = some ⟨size, .table⟩ → b = r.slots
  balanced : Balanced os

variable {ps : PageSize}

theorem TableBooks.grow {w w' : TableWorld} {r r' : Registry} {newCap : Nat}
    (hb : TableBooks ps w.os r) (h : growLocked (osTables ps) w r newCap = some (w', r'))
    (hok : w'.ok) : TableBooks ps w'.os r' := by
  obtain ⟨hstep, htable⟩ := growLocked_tables h hok hb.regions hb.table
  have hregions := hstep.regions hb.regions
  rcases growLocked_cases h hok with ⟨hos, rfl⟩ | ⟨a, os, halloc, hk, hm, hslots, _, hos⟩
  · rw [hos]
    exact hb
  · have hmapped := (TableStep.map hm).regions hb.regions
    have hbalanced := hb.balanced.map hb.regions hk (slotsBytes_lt ps newCap) ps.bytes_lt halloc hm
      (by simp)
    have honly : ∀ b size, os.regions b = some ⟨size, .table⟩ → b ≠ r.slots → b = a := by
      intro b size hb' hne
      by_contra hba
      rw [hm.regions, Function.update_of_ne hba] at hb'
      exact hne (hb.only b size hb')
    by_cases hzero : r.slots = 0
    · rw [if_neg (by simpa using hzero)] at hos
      refine ⟨hregions, htable, fun b size hb' => ?_, by rw [hos]; exact hbalanced⟩
      rw [hos] at hb'
      rw [hslots]
      refine honly b size hb' (fun heq => ?_)
      exact (hmapped.range b _ hb').1 (heq.trans hzero)
    · rw [if_pos hzero] at hos
      have hold := hb.table hzero
      have hkept := hm.regions_kept hb.regions hold
      refine ⟨hregions, htable, fun b size hb' => ?_, ?_⟩
      · rw [hos, (osFree_region hmapped hkept).2.1] at hb'
        rw [hslots]
        obtain ⟨hbr, hb'⟩ := PartialMap.erase_eq_some.mp hb'
        exact honly b size hb' hbr
      · rw [hos]
        exact hbalanced.unmap hmapped hkept (by simp)

theorem TableBooks.register {o : Oracle} {s : Store} {key : Nat} {w : TableWorld} {r : Registry}
    (hb : TableBooks ps s.os s.registry) (h : storeRegister ps o s key = some (w, r))
    (hok : w.ok) : TableBooks ps w.os r := by
  refine storeRegister_rule (fun _ _ _ _ _ hgrow hok' hb' => hb'.grow hgrow hok') ?_ h hok hb
  intro os r₀ r₁ hslots hcap hb'
  refine ⟨hb'.regions, ?_, ?_, hb'.balanced⟩
  · unfold TableOk
    rw [hslots, hcap]
    exact hb'.table
  · rw [hslots]
    exact hb'.only

end Tables

section Books

/-- The large region that each thread has given up and not yet unmapped. -/
def System.drops (sys : System) (t : Nat) : Option Nat := (sys.threads t).dropping

/-- The large counters count the region at `b`. -/
def Counted (regions : Nat → Option Region) (drops : Nat → Option Nat) (b n : Nat) : Prop :=
  (∃ offset, regions b = some ⟨n, .large offset⟩) ∧ ∀ t, drops t ≠ some b

/-- What the counters say. -/
structure Books (s : Store) (drops : Nat → Option Nat) : Prop where
  balanced : Balanced s.os
  table : ∀ b size, s.os.regions b = some ⟨size, .table⟩ → b = s.registry.slots
  large : Counts (Counted s.os.regions drops) s.largeCount s.largeBytes
  clean : s.largeWrapped = false

theorem System.drops_setThread (sys : System) (t : Nat) (s : Store) (th : Thread) :
    (sys.setThread t s th).drops = Function.update sys.drops t th.dropping := by
  funext u
  by_cases hu : u = t
  · subst hu
    simp [System.drops, System.setThread]
  · simp [System.drops, System.setThread, hu]

variable {regions regions' : Nat → Option Region} {drops : Nat → Option Nat}

theorem counted_congr (h : ∀ a n offset, regions' a = some ⟨n, .large offset⟩ ↔
    regions a = some ⟨n, .large offset⟩) (a n : Nat) :
    Counted regions' drops a n ↔ Counted regions drops a n := by
  unfold Counted
  simp only [h]

/-- Large regions are disjoint ranges, so neither counter can overflow. -/
theorem counted_fits {mapped : Nat → Bool} (hr : RegionsOk mapped regions) {count total : Nat}
    (h : Counts (Counted regions drops) count total) : count < 2 ^ 64 ∧ total < 2 ^ 64 := by
  have hcount : count ≤ total := by
    refine h.count_le ?_
    rintro a n ⟨⟨offset, ha⟩, _⟩
    exact (hr.range a _ ha).2.1
  have htotal : total ≤ 2 ^ 64 - 1 := by
    refine h.total_le ?_ ?_
    · rintro a n ⟨⟨offset, ha⟩, _⟩
      have hrange := hr.range a _ ha
      simp only at hrange
      omega
    · rintro a n b m ⟨⟨_, ha⟩, _⟩ ⟨⟨_, hb⟩, _⟩ hab
      exact hr.disjoint _ _ _ _ ha hb hab
  omega

theorem Quiet.books {s s' : Store} (hq : Quiet s s') (h : Books s drops) : Books s' drops where
  balanced := by
    rw [hq.os]
    exact ⟨h.balanced.counts, h.balanced.clean⟩
  table := by
    rw [hq.regions, hq.registry]
    exact h.table
  large := by
    rw [hq.regions, hq.largeCount, hq.largeBytes]
    exact h.large
  clean := hq.largeWrapped.trans h.clean

theorem Books.init : Books Store.init System.init.drops where
  balanced := ⟨⟨0, Counts.empty (by simp [Owned, Store.init, Os.init])⟩, rfl⟩
  table := by simp [Store.init, Os.init]
  large := Counts.empty (by simp [Counted, Store.init, Os.init])
  clean := rfl

variable {ps : PageSize} {s : Store} {os : Os} {b size : Nat}

theorem Purpose.Made.ne {t : Nat} {purpose : Purpose} (h : purpose.Made t) :
    purpose ≠ .foreign ∧ purpose ≠ .table := by
  rcases h with rfl | rfl | ⟨_, rfl⟩ <;> simp

/-- A region is mapped; a large one is counted. -/
theorem Books.create (h : Books s drops) (hr : RegionsOk s.os.mapped s.os.regions)
    (hr' : RegionsOk os.mapped os.regions)
    {answer : Option Nat} {alignment t : Nat} {purpose : Purpose}
    (hmap : osAllocAligned ps answer s.os size alignment purpose = (some b, os))
    (hk : KernelOk ps answer s.os size alignment) (halign : alignment < 2 ^ 64)
    (hm : s.os.Mapped os b size purpose) (hmade : purpose.Made t) (hdrop : ∀ u, drops u ≠ some b) :
    Books { s with
      os := os
      largeCount := if purpose.isLarge then Word.add 64 s.largeCount 1 else s.largeCount
      largeBytes := if purpose.isLarge then Word.add 64 s.largeBytes size else s.largeBytes }
      drops := by
  obtain ⟨hforeign, htable⟩ := hmade.ne
  have hnone := hm.unmapped_before hr
  have hlarge : ∀ a n offset, a ≠ b → (os.regions a = some ⟨n, .large offset⟩ ↔
      s.os.regions a = some ⟨n, .large offset⟩) := by
    intro a n offset hab
    rw [hm.regions, Function.update_of_ne hab]
  refine ⟨h.balanced.map hr hk (by have := hm.bound; have := hm.ne_zero; omega) halign hmap hm
    hforeign, ?_, ?_, h.clean⟩
  · exact fun a n ha => h.table a n ((hm.keeps hr a _ htable.symm).mp ha)
  · simp only
    by_cases hp : purpose.isLarge = true
    · obtain ⟨offset, rfl⟩ : ∃ offset, purpose = .large offset := by
        cases purpose <;> simp_all [Purpose.isLarge]
      have hinsert : Counts (Counted os.regions drops) (s.largeCount + 1)
          (s.largeBytes + size) := by
        refine h.large.insert (a := b) ?_ ?_
        · rintro m ⟨⟨_, hb⟩, _⟩
          rw [hnone] at hb
          cases hb
        · intro a n
          by_cases hab : a = b
          · subst hab
            unfold Counted
            rw [hm.regions, Function.update_self, hnone]
            simp only [Option.some.injEq, Region.mk.injEq, Purpose.large.injEq, exists_and_left,
              exists_eq', and_true, true_and, reduceCtorEq, exists_false, false_and, or_false]
            exact ⟨fun hn => hn.1.symm, fun hn => ⟨hn.symm, hdrop⟩⟩
          · unfold Counted
            simp only [hlarge a _ _ hab, hab, false_and, false_or]
      obtain ⟨hcount, hbytes⟩ := counted_fits hr' hinsert
      rw [if_pos hp, if_pos hp, Word.add_eq hcount, Word.add_eq hbytes]
      exact hinsert
    · rw [if_neg hp, if_neg hp]
      refine h.large.congr (counted_congr ?_)
      intro a n offset
      refine hm.keeps hr a _ ?_
      rintro rfl
      exact hp rfl

/-- A region is unmapped; a large one has been taken off the counters before. -/
theorem Books.destroy (h : Books s drops) (hr : RegionsOk s.os.mapped s.os.regions) {t : Nat}
    {purpose : Purpose} (hb : s.os.regions b = some ⟨size, purpose⟩) (hmade : purpose.Made t)
    (hdrop : drops t = if purpose.isLarge then some b else none) :
    Books { s with os := osFree s.os b size } (Function.update drops t none) := by
  obtain ⟨hforeign, htable⟩ := hmade.ne
  have hregions := (osFree_region hr hb).2.1
  refine ⟨h.balanced.unmap hr hb hforeign, ?_, h.large.congr ?_, h.clean⟩
  · intro a n ha
    simp only [hregions] at ha
    exact h.table a n ((regions_drop_keeps hb a _ htable.symm).mp ha)
  · intro a n
    unfold Counted
    simp only [hregions]
    by_cases hab : a = b
    · subst hab
      rw [Function.update_self, hb]
      simp only [reduceCtorEq, exists_false, false_and, false_iff, not_and, Option.some.injEq,
        Region.mk.injEq]
      rintro ⟨offset, _, rfl⟩ hnot
      exact hnot t hdrop
    · rw [Function.update_of_ne hab]
      refine and_congr Iff.rfl (forall_congr' fun u => ?_)
      by_cases hut : u = t
      · subst hut
        rw [Function.update_self, hdrop]
        split <;> simp [Ne.symm hab]
      · rw [Function.update_of_ne hut]

/-- A large region is taken off the counters. -/
theorem Books.strike (h : Books s drops) (hr : RegionsOk s.os.mapped s.os.regions) {t offset : Nat}
    (hb : s.os.regions b = some ⟨size, .large offset⟩) (hdrop : ∀ u, drops u ≠ some b)
    (hnone : drops t = none) (registry : Registry) (hslots : registry.slots = s.registry.slots) :
    Books { s with
      registry := registry
      largeCount := Word.sub 64 s.largeCount 1
      largeBytes := Word.sub 64 s.largeBytes size
      largeWrapped := s.largeWrapped || decide (s.largeCount < 1) ||
        decide (s.largeBytes < size) } (Function.update drops t (some b)) := by
  obtain ⟨hcount, hbytes⟩ := counted_fits hr h.large
  have hdropped : ∀ a n, Counted s.os.regions (Function.update drops t (some b)) a n ↔
      Counted s.os.regions drops a n ∧ a ≠ b := by
    intro a n
    unfold Counted
    rw [and_assoc]
    refine and_congr Iff.rfl ⟨fun hnot => ⟨fun u => ?_, ?_⟩, fun hnot u => ?_⟩
    · by_cases hut : u = t
      · rw [hut, hnone]
        simp
      · simpa [Function.update_of_ne hut] using hnot u
    · rintro rfl
      exact hnot t (Function.update_self ..)
    · by_cases hut : u = t
      · rw [hut, Function.update_self]
        simpa using Ne.symm hnot.2
      · rw [Function.update_of_ne hut]
        exact hnot.1 u
  obtain ⟨hone, hle, herase⟩ := h.large.erase ⟨⟨offset, hb⟩, hdrop⟩ hdropped
  refine ⟨h.balanced, ?_, ?_, ?_⟩
  · simp only [hslots]
    exact h.table
  · simp only [Word.sub_eq hcount hone, Word.sub_eq hbytes hle]
    exact herase
  · simp only
    rw [h.clean, decide_eq_false (by omega), decide_eq_false (by omega)]
    rfl

variable {sys sys' : System} {G G' : Ghost} {l : Label}

theorem Books.thread (h : Books sys.store sys.drops) (hinv : SysInv ps sys G) {o : Oracle} {t : Nat}
    {s' : Store} {th' : Thread} (hb : Booking ps o sys.store t (sys.threads t) s' th')
    (hinv' : SysInv ps (sys.setThread t s' th') G') :
    Books s' (Function.update sys.drops t th'.dropping) := by
  have hr := hinv.data.inv.regions
  have hr' : RegionsOk s'.os.mapped s'.os.regions := hinv'.data.inv.regions
  have hsame : sys.drops t = none → Function.update sys.drops t none = sys.drops := by
    intro hnone
    rw [← hnone, Function.update_eq_self]
  have hdropping : (sys.threads t).transit = none → sys.drops t = none :=
    Thread.dropping_of_transit
  -- What is dropped is in transit, and so mapped.
  have htransit : ∀ u a, sys.drops u = some a → (sys.threads u).transit = some a := by
    intro u a hu
    unfold System.drops Thread.dropping at hu
    unfold Thread.transit
    split at hu
    · rename_i hpc
      rw [hpc]
      exact hu
    · cases hu
  cases hb with
  | rest hplain hq ht' =>
      rw [Thread.dropping_of_transit ht', hsame (hdropping hplain.transit)]
      exact hq.books h
  | @create b _ _ _ os _ _ ht ht' hd' _ hmap hk halign hm hmade hq =>
      rw [hd', hsame (hdropping ht)]
      rw [hq.mapped, hq.regions] at hr'
      refine hq.books (h.create hr hr' hmap hk halign hm hmade (fun u hu => ?_))
      have hnone := hm.unmapped_before hr
      cases (hinv.threads u).holding hinv.data.inv (htransit u b hu) with
      | heap hh => rw [hnone] at hh; cases hh
      | segment hh => rw [IsSegment, hnone] at hh; cases hh
      | large hh => rw [hnone] at hh; cases hh
  | enterRegion ht ht' hd _ hb htag hreg hok hq =>
      rw [Thread.dropping_of_transit ht', hsame hd]
      have htables : TableBooks ps sys.store.os sys.store.registry :=
        ⟨hr, hinv.data.inv.table, h.table, h.balanced⟩
      have hbooks := htables.register hreg hok
      obtain ⟨hstep, _⟩ := storeRegister_tables hreg hok hr hinv.data.inv.table
      refine hq.books ⟨hbooks.balanced, hbooks.only, h.large.congr (counted_congr ?_), h.clean⟩
      exact fun a n offset => hstep.keep hr a _ (by simp)
  | enterHeap ht ht' hd _ =>
      rw [Thread.dropping_of_transit ht', hsame hd]
      exact ⟨h.balanced, h.table, h.large, h.clean⟩
  | strikeSegment ht ht' hd' _ hunreg =>
      rw [hd', hsame (hdropping ht)]
      refine ⟨h.balanced, ?_, h.large, h.clean⟩
      simp only [(regionUnregister_table hunreg).1]
      exact h.table
  | @strikeLarge b _ _ _ _ ht ht' hd' hb hunreg =>
      rw [hd']
      refine h.strike hr hb (fun u hu => ?_) (hdropping ht) _ (regionUnregister_table hunreg).1
      -- Only the thread itself has the region in transit afterwards.
      have hut : u ≠ t := by
        rintro rfl
        rw [hdropping ht] at hu
        cases hu
      refine hut (hinv'.transit_unique (b := b) ?_ ?_)
      · simpa [System.setThread, Function.update_of_ne hut] using htransit u b hu
      · simpa [System.setThread] using ht'
  | strikeHeap ht ht' hd' _ =>
      rw [hd', hsame (hdropping ht)]
      exact ⟨h.balanced, h.table, h.large, h.clean⟩
  | destroy _ ht' hd hb hmade _ hq =>
      rw [Thread.dropping_of_transit ht']
      exact hq.books (h.destroy hr hb hmade hd)

theorem Books.step (h : Books sys.store sys.drops) (hinv : SysInv ps sys G)
    (hc : Change ps sys G l sys' G') : Books sys'.store sys'.drops := by
  obtain ⟨hinv', _⟩ := hc.inv hinv
  cases hc with
  | @thread t _ s' th' _ hok heff _ =>
      rw [System.drops_setThread]
      exact h.thread hinv (heff.booking hinv.data (hinv.threads _) hok) hinv'
  | @client _ t s' th' _ hq _ hdrop _ _ _ =>
      rw [System.drops_setThread, hdrop]
      change Books s' (Function.update sys.drops t (sys.drops t))
      rw [Function.update_eq_self]
      exact hq.books h
  | world hw _ =>
      obtain ⟨count, hcounts⟩ := h.balanced.counts
      refine ⟨⟨⟨count, ?_⟩, hw.wrapped.trans h.balanced.clean⟩, ?_, ?_, h.clean⟩
      · rw [hw.bytesMapped]
        refine hcounts.congr fun a n => exists_congr fun purpose => ?_
        exact and_congr_left fun hp => hw.regions a ⟨n, purpose⟩ hp
      · exact fun b size hb => h.table b size ((hw.regions b _ (by simp)).mp hb)
      · exact h.large.congr (counted_congr fun a n offset => hw.regions a _ (by simp))

theorem Reachable.books (h : Reachable ps sys) : Books sys.store sys.drops := by
  induction h with
  | init => exact Books.init
  | step hreach hstep ih =>
      obtain ⟨G, hG⟩ := hreach.inv
      obtain ⟨G', hc⟩ := hG.change hstep
      exact ih.step hG hc

end Books

section Idle

variable {ps : PageSize} {sys : System} {G : Ghost}

/-- Without a thread inside a call, all segments are on the list. -/
theorem SysInv.segments_of_idle (h : SysInv ps sys G) (hidle : ∀ t, (sys.threads t).pc = .idle)
    (b n : Nat) : sys.store.os.regions b = some ⟨n, .small⟩ ↔ b ∈ G.segments ∧ n = segmentSize := by
  have hmtx : sys.store.central.mtx = none := by
    cases hm : sys.store.central.mtx with
    | none => rfl
    | some t =>
        have hlocked := (h.threads t).mtx.mp hm
        rw [hidle t] at hlocked
        cases hlocked
  rw [h.data.inv.lists.places.segments, h.data.dying hmtx]
  constructor
  · intro hb
    obtain ⟨_, rfl⟩ := h.data.inv.regions.small b n hb
    exact ⟨⟨hb, by simp⟩, rfl⟩
  · rintro ⟨⟨hb, _⟩, rfl⟩
    exact hb

/-- And all heaps are in the heap registry. -/
theorem SysInv.heaps_of_idle (h : SysInv ps sys G) (hheaps : HeapsListed sys)
    (hidle : ∀ t, (sys.threads t).pc = .idle) (b n : Nat) :
    (∃ t, sys.store.os.regions b = some ⟨n, .heap t⟩) ↔
      b ∈ sys.store.heapRegistry ∧ n = heapBytes ps := by
  rw [show b ∈ sys.store.heapRegistry ↔ _ from hheaps.agree b]
  constructor
  · rintro ⟨t, hb⟩
    refine ⟨⟨⟨_, hb, t, rfl⟩, fun u hu => ?_⟩, (((h.threads t).home b n).mp hb).1⟩
    rw [System.hands, Thread.transit, hidle u] at hu
    cases hu
  · rintro ⟨⟨⟨⟨size, purpose⟩, hb, t, ht⟩, _⟩, rfl⟩
    simp only at ht
    subst ht
    obtain ⟨rfl, _⟩ := ((h.threads t).home b size).mp hb
    exact ⟨t, hb⟩

/-- The bytes of the registry's table. -/
def tableBytes (ps : PageSize) (r : Registry) : Nat :=
  if r.slots = 0 then 0 else slotsBytes ps r.cap

theorem Books.table_counts (h : Books sys.store sys.drops) (hinv : Inv ps sys.store G) :
    ∃ count, Counts (fun b n => sys.store.os.regions b = some ⟨n, .table⟩) count
      (tableBytes ps sys.store.registry) := by
  unfold tableBytes
  by_cases hslots : sys.store.registry.slots = 0
  · rw [if_pos hslots]
    refine ⟨0, Counts.empty fun b n hb => ?_⟩
    exact (hinv.regions.range b _ hb).1 ((h.table b n hb).trans hslots)
  · rw [if_neg hslots]
    have htable := hinv.table hslots
    have hone := Counts.of_list (R := fun b n => sys.store.os.regions b = some ⟨n, .table⟩)
      (l := [sys.store.registry.slots]) (n := slotsBytes ps sys.store.registry.cap)
      (List.nodup_singleton _) (by
        intro b n
        rw [List.mem_singleton]
        constructor
        · intro hb
          obtain rfl := h.table b n hb
          rw [htable] at hb
          cases hb
          exact ⟨rfl, rfl⟩
        · rintro ⟨rfl, rfl⟩
          exact htable)
    rw [List.length_singleton, Nat.one_mul] at hone
    exact ⟨1, hone⟩

/-- The large counters, by the pointers of the regions they count. -/
theorem Books.large_pointers (h : Books sys.store sys.drops) (hinv : SysInv ps sys G)
    (howned : LargeOwned sys.store) (hidle : ∀ t, (sys.threads t).pc = .idle) :
    ∃ larges : Finset Nat, (∀ p, p ∈ larges ↔ ∃ g b, Live sys.store p g ∧ g.origin = .large b) ∧
      larges.card = sys.store.largeCount ∧
      ∑ p ∈ larges, largeMmapSize sys.store.os.mem (regionBase p) = sys.store.largeBytes := by
  obtain ⟨S, w, hS, hcard, hsum⟩ := h.large
  have hdata := hinv.data.inv
  have hmem : ∀ b, b ∈ S ↔ ∃ n offset, sys.store.os.regions b = some ⟨n, .large offset⟩ := by
    intro b
    constructor
    · intro hb
      obtain ⟨⟨offset, hb⟩, _⟩ := (hS b (w b)).mpr ⟨hb, rfl⟩
      exact ⟨_, offset, hb⟩
    · rintro ⟨n, offset, hb⟩
      refine ((hS b n).mp ⟨⟨offset, hb⟩, fun t ht => ?_⟩).1
      rw [System.drops, Thread.dropping, hidle t] at ht
      cases ht
  -- The pointer of a region, from its header, and the region of the pointer.
  have hpointer : ∀ b ∈ S, ∃ n offset g, sys.store.os.regions b = some ⟨n, .large offset⟩ ∧
      largeHeaderOffset sys.store.os.mem b = offset ∧ largeMmapSize sys.store.os.mem b = n ∧
      sys.store.grants (b + offset) = some g ∧ g.origin = .large b ∧
      regionBase (b + offset) = b := by
    intro b hb
    obtain ⟨n, offset, hregion⟩ := (hmem b).mp hb
    obtain ⟨g, hg, ho⟩ := howned b n offset hregion
    obtain ⟨_, hsize, hoffset⟩ := hdata.tags.large b n offset hregion
    exact ⟨n, offset, g, hregion, hoffset, hsize, hg, ho, (hdata.decode_large hg ho).1⟩
  have hbase : ∀ b ∈ S, regionBase (b + largeHeaderOffset sys.store.os.mem b) = b := by
    intro b hb
    obtain ⟨n, offset, g, _, rfl, _, _, _, hbase⟩ := hpointer b hb
    exact hbase
  have hinj : Set.InjOn (fun b => b + largeHeaderOffset sys.store.os.mem b) S := by
    intro a ha b hb hab
    rw [← hbase a ha, ← hbase b hb]
    exact congrArg regionBase hab
  refine ⟨S.image (fun b => b + largeHeaderOffset sys.store.os.mem b), fun p => ?_, ?_, ?_⟩
  · rw [Finset.mem_image]
    constructor
    · rintro ⟨b, hb, rfl⟩
      obtain ⟨n, offset, g, _, rfl, _, hg, ho, _⟩ := hpointer b hb
      exact ⟨g, b, ⟨hg, Or.inl (hinv.client_of_idle hidle hg)⟩, ho⟩
    · rintro ⟨g, b, ⟨hg, _⟩, ho⟩
      obtain ⟨n, offset, hregion, rfl, _⟩ := hdata.grants.large p g b hg ho
      refine ⟨b, (hmem b).mpr ⟨n, offset, hregion⟩, ?_⟩
      simp only [(hdata.tags.large b n offset hregion).2.2]
  · rw [Finset.card_image_of_injOn hinj, hcard]
  · rw [Finset.sum_image hinj, ← hsum]
    refine Finset.sum_congr rfl fun b hb => ?_
    obtain ⟨⟨offset, hregion⟩, _⟩ := (hS b (w b)).mpr ⟨hb, rfl⟩
    rw [hbase b hb, (hdata.tags.large b _ offset hregion).2.1]

/-- The bytes of a state without a call in progress. -/
theorem Books.bytes_of_idle (h : Books sys.store sys.drops) (hinv : SysInv ps sys G)
    (hheaps : HeapsListed sys) (hidle : ∀ t, (sys.threads t).pc = .idle) :
    sys.store.os.bytesMapped = segmentSize * sys.store.central.numSegments +
      sys.store.largeBytes + heapBytes ps * sys.store.heapRegistry.length +
      tableBytes ps sys.store.registry := by
  obtain ⟨count, hcounts⟩ := h.balanced.counts
  obtain ⟨count', htable⟩ := h.table_counts hinv.data.inv
  have hsegments : Counts (fun b n => sys.store.os.regions b = some ⟨n, .small⟩) _ _ :=
    Counts.of_list hinv.data.inv.lists.chains.segments.nodup (hinv.segments_of_idle hidle)
  have hlarge : Counts (fun b n => ∃ offset, sys.store.os.regions b = some ⟨n, .large offset⟩)
      sys.store.largeCount sys.store.largeBytes := by
    refine h.large.congr fun b n => (and_iff_left fun t ht => ?_).symm
    rw [System.drops, Thread.dropping, hidle t] at ht
    cases ht
  have hheap : Counts (fun b n => ∃ t, sys.store.os.regions b = some ⟨n, .heap t⟩) _ _ :=
    Counts.of_list hheaps.nodup (hinv.heaps_of_idle hheaps hidle)
  have hall := ((hsegments.add hlarge ?_ fun _ _ => Iff.rfl).add hheap ?_ fun _ _ => Iff.rfl).add
    htable ?_ (R := Owned sys.store.os.regions) ?_
  · rw [(hcounts.unique hall).2, hinv.data.inv.lists.counters.numSegments,
      Nat.mul_comm segmentSize, Nat.mul_comm (heapBytes ps)]
  · rintro a n m ha ⟨_, ha'⟩
    exact absurd (ha.symm.trans ha') (by simp)
  · rintro a n m (ha | ⟨_, ha⟩) ⟨_, ha'⟩ <;> exact absurd (ha.symm.trans ha') (by simp)
  · rintro a n m ((ha | ⟨_, ha⟩) | ⟨_, ha⟩) ha' <;> exact absurd (ha.symm.trans ha') (by simp)
  · intro a n
    constructor
    · rintro ⟨purpose, ha, hp⟩
      cases purpose with
      | small => exact Or.inl (Or.inl (Or.inl ha))
      | large offset => exact Or.inl (Or.inl (Or.inr ⟨offset, ha⟩))
      | heap t => exact Or.inl (Or.inr ⟨t, ha⟩)
      | table => exact Or.inr ha
      | foreign => exact absurd rfl hp
    · rintro (((ha | ⟨_, ha⟩) | ⟨_, ha⟩) | ha) <;> exact ⟨_, ha, by simp⟩

/-- The books balance. At every point of every run, none of the three counters
has ever wrapped below zero. When no call is in progress, the bytes that
`hm_stats` reports are those of its segments, of its large bytes, of the heaps
that are created and not destroyed and of the registry's table, and the large
counters are the number of live large pointers and the sum of the sizes in
their headers. -/
theorem bytes_reserved_balance (h : Reachable ps sys) (counts : Nat → HeapCounts) :
    sys.store.os.wrapped = false ∧ sys.store.largeWrapped = false ∧
    ((∀ t, (sys.threads t).pc = .idle) →
      ∃ heaps larges : Finset Nat,
        (∀ k, k ∈ heaps ↔ ∃ t, sys.store.os.regions k = some ⟨heapBytes ps, .heap t⟩) ∧
        (∀ p, p ∈ larges ↔ ∃ g b, Live sys.store p g ∧ g.origin = .large b) ∧
        (hmStats sys.store counts).bytesReserved =
          segmentSize * (hmStats sys.store counts).segmentsMapped +
          (hmStats sys.store counts).largeBytes + heapBytes ps * heaps.card +
          tableBytes ps sys.store.registry ∧
        (hmStats sys.store counts).largeAllocations = larges.card ∧
        (hmStats sys.store counts).largeBytes =
          ∑ p ∈ larges, largeMmapSize sys.store.os.mem (regionBase p)) := by
  obtain ⟨G, hG⟩ := h.inv
  have hbooks := h.books
  have hheaps := h.heapsListed
  refine ⟨hbooks.balanced.clean, hbooks.clean, fun hidle => ?_⟩
  obtain ⟨larges, hlarges, hcard, hsum⟩ := hbooks.large_pointers hG h.largeOwned hidle
  refine ⟨sys.store.heapRegistry.toFinset, larges, fun k => ?_, hlarges, ?_, hcard.symm,
    hsum.symm⟩
  · rw [List.mem_toFinset, hG.heaps_of_idle hheaps hidle, and_iff_left rfl]
  · rw [List.toFinset_card_of_nodup hheaps.nodup]
    exact hbooks.bytes_of_idle hG hheaps hidle

/-- A thread has taken a small and a large block. -/
theorem bytes_reserved_balance_two : ∃ sys, Reachable page4k sys ∧
    (∀ t, (sys.threads t).pc = .idle) ∧
    (hmStats sys.store fun _ => HeapCounts.zero).bytesReserved = 4194304 + 20480 + 4096 + 8192 ∧
    ∃ heaps larges : Finset Nat,
      (∀ k, k ∈ heaps ↔ ∃ t, sys.store.os.regions k = some ⟨heapBytes page4k, .heap t⟩) ∧
      (∀ p, p ∈ larges ↔ ∃ g b, Live sys.store p g ∧ g.origin = .large b) ∧
      (hmStats sys.store fun _ => HeapCounts.zero).bytesReserved =
        segmentSize * (hmStats sys.store fun _ => HeapCounts.zero).segmentsMapped +
        (hmStats sys.store fun _ => HeapCounts.zero).largeBytes + heapBytes page4k * heaps.card +
        tableBytes page4k sys.store.registry := by
  obtain ⟨w, hrun, hidle, hcheck⟩ := schedule_reaches_quiet (P := fun _ _ => True) page4k
    (fun _ _ => true) (fun _ _ _ _ => ()) ()
    (firstMalloc 0 16 ++ [.call 0 (.malloc 20000), .step 0 true, .step 0 true])
    (fun w => w.sys.store.os.bytesMapped == 4194304 + 20480 + 4096 + 8192)
    (fun _ _ _ => trivial) (by decide +kernel)
  have hreach := hrun.reachableBy.reachable
  obtain ⟨heaps, larges, hheaps, hlarges, hbytes, _⟩ :=
    (bytes_reserved_balance hreach fun _ => HeapCounts.zero).2.2 hidle
  exact ⟨w.sys, hreach, hidle, eq_of_beq hcheck, heaps, larges, hheaps, hlarges, hbytes⟩

end Idle

end HMalloc
