import HMalloc.RegistryGrowth
import HMalloc.Release
import HMalloc.Thread

/-!
Mapping and unmapping. A new region is disjoint from everything that is mapped,
so no header, no free list and no block that is handed out notices it; an
unmapped region takes only itself away. The registry's table allocations are
sequences of the two (`TableStep`).
-/

namespace HMalloc

open Bytes Linked

theorem Os.Mapped.unmapped_before {os os' : Os} {r size : Nat} {purpose : Purpose}
    (hm : os.Mapped os' r size purpose) (h : RegionsOk os.mapped os.regions) :
    os.regions r = none := by
  cases hr : os.regions r with
  | none => rfl
  | some reg =>
      obtain ⟨_, hpos, _⟩ := h.range r reg hr
      have h1 := h.mapped r reg hr r (Nat.le_refl r) (by omega)
      have h2 := hm.fresh r (Nat.le_refl r) (by have := hm.size_pos; omega)
      rw [h2] at h1
      cases h1

/-- The regions that there were are still there. -/
theorem Os.Mapped.regions_kept {os os' : Os} {r size : Nat} {purpose : Purpose}
    (hm : os.Mapped os' r size purpose) (h : RegionsOk os.mapped os.regions) {b : Nat}
    {reg : Region} (hb : os.regions b = some reg) : os'.regions b = some reg := by
  rw [hm.regions, Function.update_of_ne ?_]
  · exact hb
  · rintro rfl
    rw [hm.unmapped_before h] at hb
    cases hb

/-- A mapping leaves the regions of the other purposes alone. -/
theorem Os.Mapped.keeps {os os' : Os} {base size : Nat} {purpose : Purpose}
    (hm : os.Mapped os' base size purpose) (h : RegionsOk os.mapped os.regions) (b : Nat)
    (reg : Region) (hp : reg.purpose ≠ purpose) :
    os'.regions b = some reg ↔ os.regions b = some reg := by
  refine ⟨fun hb => ?_, hm.regions_kept h⟩
  rw [hm.regions] at hb
  rcases PartialMap.insert_eq_some.mp hb with ⟨_, rfl⟩ | ⟨_, hb⟩
  · exact absurd rfl hp
  · exact hb

/-- So does an unmapping. -/
theorem regions_drop_keeps {regions : Nat → Option Region} {base size : Nat} {purpose : Purpose}
    (hbase : regions base = some ⟨size, purpose⟩) (b : Nat) (reg : Region)
    (hp : reg.purpose ≠ purpose) :
    Function.update regions base none b = some reg ↔ regions b = some reg := by
  refine PartialMap.erase_eq_some.trans (and_iff_right_of_imp ?_)
  rintro hb rfl
  rw [hbase] at hb
  cases hb
  exact hp rfl

/-- A fresh range and an existing region are apart. -/
theorem Os.Mapped.disjoint {os os' : Os} {r size : Nat} {purpose : Purpose}
    (hm : os.Mapped os' r size purpose) (h : RegionsOk os.mapped os.regions) {b : Nat}
    {reg : Region} (hb : os.regions b = some reg) : r + size ≤ b ∨ b + reg.size ≤ r := by
  by_contra hnot
  have hpos := hm.size_pos
  obtain ⟨_, hpos', _⟩ := h.range b reg hb
  have h1 := h.mapped b reg hb (max b r) (by omega) (by omega)
  have h2 := hm.fresh (max b r) (by omega) (by omega)
  rw [h2] at h1
  cases h1

/-- A region with a legal layout is mapped. -/
theorem RegionsOk.map {os os' : Os} {r size : Nat} {purpose : Purpose}
    (h : RegionsOk os.mapped os.regions) (hm : os.Mapped os' r size purpose)
    (hsmall : purpose = .small → segmentSize ∣ r ∧ size = segmentSize)
    (hlarge : ∀ offset, purpose = .large offset → segmentSize ∣ r ∧ largeOffset ≤ offset ∧
      allocAlign ∣ offset ∧ offset < segmentSize ∧ offset < size) :
    RegionsOk os'.mapped os'.regions := by
  rw [hm.regions]
  have hold : ∀ b reg, Function.update os.regions r (some ⟨size, purpose⟩) b = some reg →
      (b = r ∧ reg = ⟨size, purpose⟩) ∨ (b ≠ r ∧ os.regions b = some reg) :=
    fun _ _ => PartialMap.insert_eq_some.mp
  constructor
  · intro b reg hb
    rcases hold b reg hb with ⟨rfl, rfl⟩ | ⟨_, hb⟩
    · exact ⟨hm.ne_zero, hm.size_pos, hm.bound⟩
    · exact h.range b reg hb
  · intro b reg hb x hlo hhi
    rw [hm.mapped]
    rcases hold b reg hb with ⟨rfl, rfl⟩ | ⟨_, hb⟩
    · exact Or.inr ⟨hlo, hhi⟩
    · exact Or.inl (h.mapped b reg hb x hlo hhi)
  · intro b reg b' reg' hb hb' hne
    rcases hold b reg hb with ⟨rfl, rfl⟩ | ⟨_, hold₁⟩ <;>
      rcases hold b' reg' hb' with ⟨rfl, rfl⟩ | ⟨_, hold₂⟩
    · exact absurd rfl hne
    · exact hm.disjoint h hold₂
    · exact (hm.disjoint h hold₁).symm
    · exact h.disjoint b reg b' reg' hold₁ hold₂ hne
  · intro b sz hb
    rcases hold b _ hb with ⟨rfl, heq⟩ | ⟨_, hb⟩
    · cases heq
      exact hsmall rfl
    · exact h.small b sz hb
  · intro b sz offset hb
    rcases hold b _ hb with ⟨rfl, heq⟩ | ⟨_, hb⟩
    · cases heq
      exact hlarge offset rfl
    · exact h.large b sz offset hb

/-- A region is unmapped. -/
theorem RegionsOk.unmap {mapped mapped' : Nat → Bool} {regions : Nat → Option Region}
    (h : RegionsOk mapped regions) {b : Nat} {r : Region} (hb : regions b = some r)
    (hmapped : ∀ x, mapped' x = (mapped x && !(decide (b ≤ x) && decide (x < b + r.size)))) :
    RegionsOk mapped' (Function.update regions b none) := by
  have hold : ∀ a reg, Function.update regions b none a = some reg →
      a ≠ b ∧ regions a = some reg :=
    fun _ _ => PartialMap.erase_eq_some.mp
  constructor
  · intro a reg ha
    exact h.range a reg (hold a reg ha).2
  · intro a reg ha x hlo hhi
    obtain ⟨hab, ha⟩ := hold a reg ha
    have hd := h.disjoint _ _ _ _ ha hb hab
    have hout : (decide (b ≤ x) && decide (x < b + r.size)) = false := by
      simp only [Bool.and_eq_false_iff, decide_eq_false_iff_not]
      omega
    rw [hmapped, hout, h.mapped a reg ha x hlo hhi]
    rfl
  · intro a reg a' reg' ha ha' hne
    exact h.disjoint _ _ _ _ (hold a reg ha).2 (hold a' reg' ha').2 hne
  · intro a sz ha
    exact h.small a sz (hold a _ ha).2
  · intro a sz offset ha
    exact h.large a sz offset (hold a _ ha).2

/-- `os_free` of a whole region. -/
theorem osFree_region {os : Os} (h : RegionsOk os.mapped os.regions) {b : Nat} {r : Region}
    (hb : os.regions b = some r) :
    (osFree os b r.size).mem = os.mem ∧
      (osFree os b r.size).regions = Function.update os.regions b none ∧
      RegionsOk (osFree os b r.size).mapped (osFree os b r.size).regions := by
  obtain ⟨hne, hpos, _⟩ := h.range b r hb
  have heq : osFree os b r.size = ((os.munmap b r.size).accountUnmap r.size).forget b :=
    if_neg (by omega)
  rw [heq]
  exact ⟨rfl, rfl, h.unmap hb (fun _ => rfl)⟩

/-- What the registry's table allocations may change: tables, and nothing of
any other region. -/
structure TableStep (os os' : Os) : Prop where
  regions : RegionsOk os.mapped os.regions → RegionsOk os'.mapped os'.regions
  keep : RegionsOk os.mapped os.regions → ∀ b r, r.purpose ≠ .table →
    (os'.regions b = some r ↔ os.regions b = some r)
  mem : RegionsOk os.mapped os.regions → ∀ b r, os.regions b = some r → r.purpose ≠ .table →
    ∀ x, b ≤ x → x < b + r.size → os'.mem x = os.mem x

theorem TableStep.refl (os : Os) : TableStep os os :=
  ⟨id, fun _ _ _ _ => Iff.rfl, fun _ _ _ _ _ _ _ _ => rfl⟩

theorem TableStep.trans {os os' os'' : Os} (h : TableStep os os') (h' : TableStep os' os'') :
    TableStep os os'' where
  regions := fun hr => h'.regions (h.regions hr)
  keep := fun hr b r hp => (h'.keep (h.regions hr) b r hp).trans (h.keep hr b r hp)
  mem := fun hr b r hb hp x hlo hhi =>
    (h'.mem (h.regions hr) b r ((h.keep hr b r hp).mpr hb) hp x hlo hhi).trans
      (h.mem hr b r hb hp x hlo hhi)

theorem TableStep.map {os os' : Os} {r size : Nat} (hm : os.Mapped os' r size .table) :
    TableStep os os' where
  regions := fun hr => hr.map hm (by simp) (by simp)
  keep := hm.keeps
  mem := fun hr b reg hb _ x hlo hhi => hm.mem_old x (hr.mapped b reg hb x hlo hhi)

theorem TableStep.unmap {os : Os} {b size : Nat} (hr : RegionsOk os.mapped os.regions)
    (hb : os.regions b = some ⟨size, .table⟩) : TableStep os (osFree os b size) := by
  obtain ⟨hmem, hregions, hok⟩ := osFree_region hr hb
  refine ⟨fun _ => hok, ?_, ?_⟩
  · intro _ a reg hp
    rw [hregions]
    exact regions_drop_keeps hb a reg hp
  · intro _ a reg _ _ x _ _
    rw [hmem]

/-- The registry's table is a mapped region of the size its capacity gives. -/
def TableOk (ps : PageSize) (os : Os) (r : Registry) : Prop :=
  r.slots ≠ 0 → os.regions r.slots = some ⟨slotsBytes ps r.cap, .table⟩

theorem slotsBytes_lt (ps : PageSize) (cap : Nat) : slotsBytes ps cap < 2 ^ 64 := by
  unfold slotsBytes Word.roundUp
  exact Nat.lt_of_le_of_lt Nat.and_le_left (Word.add_lt 64 _ _)

theorem slotsBytes_zero (ps : PageSize) : slotsBytes ps 0 = 0 := by
  have hround := Word.roundUp_spec (n := 0) (k := ps.shift.val) (by omega)
    (by have := ps.bytes_lt; unfold PageSize.bytes at this; omega)
  have hzero : Word.mul 64 0 8 = 0 := by simp [Word.mul]
  unfold slotsBytes PageSize.bytes
  rw [hzero]
  obtain ⟨hdvd, _, hlt⟩ := hround
  exact Nat.eq_zero_of_dvd_of_lt hdvd (by simpa using hlt)

theorem osTables_refusesEmpty (ps : PageSize) : (osTables ps).RefusesEmpty := by
  intro w
  simp [osTables, slotsBytes_zero, osAllocAligned, mmapLength, osAccepts]

/-- The answers were as assumed at the end of `grow_locked` only if they were
before it and the one it got is. -/
theorem growLocked_answers {ps : PageSize} {w w' : TableWorld} {r r' : Registry} {newCap : Nat}
    (h : growLocked (osTables ps) w r newCap = some (w', r')) :
    w'.ok = (w.ok ∧ KernelOk ps (w.answers.headD none) w.os (slotsBytes ps newCap) ps.bytes) := by
  unfold growLocked at h
  generalize halloc : (osTables ps).alloc w newCap = answer at h
  obtain ⟨fresh, w₁⟩ := answer
  have hw₁ : w₁.ok = (w.ok ∧ KernelOk ps (w.answers.headD none) w.os (slotsBytes ps newCap)
      ps.bytes) := (congrArg (fun a => a.2.ok) halloc).symm
  rw [← hw₁]
  by_cases hfresh : fresh = 0
  · simp only [hfresh, if_true, Option.some.injEq, Prod.mk.injEq] at h
    rw [h.1]
  · simp only [if_neg hfresh, Option.bind_eq_bind, Option.bind_eq_some_iff, Option.pure_def,
      Option.some.injEq, Prod.mk.injEq] at h
    obtain ⟨_, _, rfl, _⟩ := h
    split <;> rfl

theorem kernelOk_refused (ps : PageSize) (os : Os) (size alignment : Nat) :
    KernelOk ps none os size alignment := fun _ heq => by cases heq

/-- The memory for a table is refused, which breaks no contract. -/
theorem growLocked_refused {ps : PageSize} {w w' : TableWorld} {r r' : Registry} {newCap : Nat}
    {P : Prop} [Decidable P]
    (h : (if P then growLocked (osTables ps) w r newCap else some (w, r)) = some (w', r'))
    (hw : w.answers = [] ∧ w.ok) : w'.answers = [] ∧ w'.ok := by
  split at h
  · refine ⟨?_, ?_⟩
    · simp only [growLocked, osTables, hw.1, List.headD_nil, osAllocAligned_refused,
        Option.getD_none, if_true, Option.some.injEq, Prod.mk.injEq, List.tail_nil] at h
      rw [← h.1]
    · rw [growLocked_answers h, hw.1]
      exact ⟨hw.2, kernelOk_refused _ _ _ _⟩
  · cases h
    exact hw

theorem storeRegister_refused {ps : PageSize} {o : Oracle} {s : Store} {b : Nat} {w : TableWorld}
    {r : Registry} (htables : o.tables = []) (h : storeRegister ps o s b = some (w, r)) :
    w.ok := by
  simp only [storeRegister, htables, regionRegister, Option.bind_eq_bind,
    Option.bind_eq_some_iff] at h
  obtain ⟨⟨w₁, r₁⟩, hmissing, ⟨w₂, r₂⟩, hloaded, hlast⟩ := h
  have hend : w = w₂ := by
    split at hlast
    · cases hlast
      rfl
    · obtain ⟨r₃, _, hlast⟩ := Option.bind_eq_some_iff.mp hlast
      cases hlast
      rfl
  rw [hend]
  exact (growLocked_refused hloaded (growLocked_refused hmissing ⟨rfl, trivial⟩)).2

/-- `grow_locked` on the OS layer: the allocation fails and nothing changes, or
a table is mapped and the old one, if there is one, unmapped. -/
theorem growLocked_cases {ps : PageSize} {w w' : TableWorld} {r r' : Registry} {newCap : Nat}
    (h : growLocked (osTables ps) w r newCap = some (w', r')) (hok : w'.ok) :
    (w'.os = w.os ∧ r' = r) ∨
    ∃ a os, osAllocAligned ps (w.answers.headD none) w.os (slotsBytes ps newCap) ps.bytes .table =
        (some a, os) ∧
      KernelOk ps (w.answers.headD none) w.os (slotsBytes ps newCap) ps.bytes ∧
      w.os.Mapped os a (slotsBytes ps newCap) .table ∧ r'.slots = a ∧ r'.cap = newCap ∧
      w'.os = if r.slots ≠ 0 then osFree os r.slots (slotsBytes ps r.cap) else os := by
  rw [growLocked_answers h] at hok
  rcases osAllocAligned_spec ps .table hok.2 (slotsBytes_lt ps newCap) ps.bytes_lt
    with hnone | ⟨a, os, hsome, hm, _⟩
  · left
    simp only [growLocked, osTables, hnone, Option.getD_none, if_true, Option.some.injEq,
      Prod.mk.injEq] at h
    rw [← h.1, ← h.2]
    exact ⟨rfl, rfl⟩
  · right
    simp only [growLocked, osTables, hsome, Option.getD_some, if_neg hm.ne_zero,
      Option.bind_eq_bind, Option.bind_eq_some_iff, Option.pure_def, Option.some.injEq,
      Prod.mk.injEq] at h
    obtain ⟨cells, _, rfl, rfl⟩ := h
    refine ⟨a, os, hsome, hok.2, hm, rfl, rfl, ?_⟩
    split <;> rfl

theorem growLocked_tables {ps : PageSize} {w w' : TableWorld} {r r' : Registry} {newCap : Nat}
    (h : growLocked (osTables ps) w r newCap = some (w', r')) (hok : w'.ok)
    (hr : RegionsOk w.os.mapped w.os.regions) (ht : TableOk ps w.os r) :
    TableStep w.os w'.os ∧ TableOk ps w'.os r' := by
  rcases growLocked_cases h hok with ⟨hos, rfl⟩ | ⟨a, os, _, _, hm, hslots', hcap', hos⟩
  · rw [hos]
    exact ⟨TableStep.refl _, ht⟩
  · have hmap := TableStep.map hm
    have hr' := hmap.regions hr
    have hnew : os.regions a = some ⟨slotsBytes ps newCap, .table⟩ := by
      rw [hm.regions, Function.update_self]
    unfold TableOk
    rw [hos, hslots', hcap']
    by_cases hslots : r.slots = 0
    · rw [if_neg (by simpa using hslots)]
      exact ⟨hmap, fun _ => hnew⟩
    · rw [if_pos hslots]
      have hold := ht hslots
      have hne : r.slots ≠ a := by
        intro heq
        rw [heq, hm.unmapped_before hr] at hold
        cases hold
      have hkept := hm.regions_kept hr hold
      refine ⟨hmap.trans (TableStep.unmap hr' hkept), fun _ => ?_⟩
      rw [(osFree_region hr' hkept).2.1, Function.update_of_ne (fun heq => hne heq.symm), hnew]

theorem registerKey_table {r r' : Registry} {key : Nat} (h : registerKey r key = some r') :
    r'.slots = r.slots ∧ r'.cap = r.cap := by
  simp only [registerKey, Option.bind_eq_bind, Option.bind_eq_some_iff, Option.pure_def] at h
  obtain ⟨outcome, _, h⟩ := h
  cases outcome with
  | present =>
      cases h
      exact ⟨rfl, rfl⟩
  | free i firstTomb =>
      cases firstTomb <;> (cases h; exact ⟨rfl, rfl⟩)

theorem regionUnregister_table {r r' : Registry} {key : Nat}
    (h : regionUnregister r key = some r') : r'.slots = r.slots ∧ r'.cap = r.cap := by
  unfold regionUnregister at h
  split at h
  · cases h
    exact ⟨rfl, rfl⟩
  · simp only [Option.bind_eq_bind, Option.bind_eq_some_iff, Option.pure_def] at h
    obtain ⟨i, _, h⟩ := h
    split at h <;> (cases h; exact ⟨rfl, rfl⟩)

/-- What both growth checks of `region_register` keep, and what depends on the
table only, the call keeps. -/
theorem storeRegister_rule {ps : PageSize} {Q : Os → Registry → Prop}
    (hgrow : ∀ w w' r r' newCap, growLocked (osTables ps) w r newCap = some (w', r') → w'.ok →
      Q w.os r → Q w'.os r')
    (htable : ∀ os r r', r'.slots = r.slots → r'.cap = r.cap → Q os r → Q os r')
    {o : Oracle} {s : Store} {key : Nat} {w : TableWorld} {r : Registry}
    (h : storeRegister ps o s key = some (w, r)) (hok : w.ok) (hQ : Q s.os s.registry) :
    Q w.os r := by
  have hcheck : ∀ {P : Prop} [Decidable P] {w₀ w₁ : TableWorld} {r₀ r₁ : Registry} {newCap : Nat},
      (if P then growLocked (osTables ps) w₀ r₀ newCap else some (w₀, r₀)) = some (w₁, r₁) →
      w₁.ok → w₀.ok ∧ (Q w₀.os r₀ → Q w₁.os r₁) := by
    intro P _ w₀ w₁ r₀ r₁ newCap hrun hok₁
    split at hrun
    · refine ⟨?_, hgrow _ _ _ _ _ hrun hok₁⟩
      rw [growLocked_answers hrun] at hok₁
      exact hok₁.1
    · cases hrun
      exact ⟨hok₁, id⟩
  simp only [storeRegister, regionRegister, Option.bind_eq_bind, Option.bind_eq_some_iff,
    Option.pure_def] at h
  obtain ⟨⟨w₁, r₁⟩, hmissing, ⟨w₂, r₂⟩, hloaded, hlast⟩ := h
  have hend : w = w₂ ∧ r.slots = r₂.slots ∧ r.cap = r₂.cap := by
    by_cases hslots : r₂.slots = 0
    · simp only [hslots, if_true, Option.some.injEq, Prod.mk.injEq] at hlast
      rw [← hlast.1, ← hlast.2]
      exact ⟨rfl, rfl, rfl⟩
    · simp only [if_neg hslots, Option.bind_eq_some_iff, Option.some.injEq, Prod.mk.injEq]
        at hlast
      obtain ⟨r₃, hkey, rfl, rfl⟩ := hlast
      exact ⟨rfl, registerKey_table hkey⟩
  obtain ⟨rfl, hslots, hcap⟩ := hend
  obtain ⟨hok₁, hstep₂⟩ := hcheck hloaded hok
  obtain ⟨_, hstep₁⟩ := hcheck hmissing hok₁
  exact htable _ _ _ hslots hcap (hstep₂ (hstep₁ hQ))

/-- `region_register` maps and unmaps tables, and nothing else. -/
theorem storeRegister_tables {ps : PageSize} {o : Oracle} {s : Store} {key : Nat}
    {w : TableWorld} {r : Registry} (h : storeRegister ps o s key = some (w, r)) (hok : w.ok)
    (hr : RegionsOk s.os.mapped s.os.regions) (ht : TableOk ps s.os s.registry) :
    TableStep s.os w.os ∧ TableOk ps w.os r := by
  refine storeRegister_rule (Q := fun os r => TableStep s.os os ∧ TableOk ps os r) ?_ ?_ h hok
    ⟨TableStep.refl _, ht⟩
  · rintro w₀ w₁ r₀ r₁ newCap hgrow hok₁ ⟨hstep, htable⟩
    obtain ⟨hstep', htable'⟩ := growLocked_tables hgrow hok₁ (hstep.regions hr) htable
    exact ⟨hstep.trans hstep', htable'⟩
  · rintro os r₀ r₁ hslots hcap ⟨hstep, htable⟩
    refine ⟨hstep, ?_⟩
    unfold TableOk
    rw [hslots, hcap]
    exact htable

section Grants

variable {regions regions' : Nat → Option Region} {area blockSize : PageId → Nat}
  {out : PageId → List Nat} {grants : Nat → Option Grant}

/-- New regions do not concern the pointers that are handed out. -/
theorem GrantsOk.mono (h : GrantsOk regions area blockSize out grants)
    (hkeep : ∀ b r, regions b = some r → r.purpose.Tagged → regions' b = some r)
    (hnew : ∀ pg, IsPage (IsSegment regions') pg → out pg ≠ [] → IsPage (IsSegment regions) pg) :
    GrantsOk regions' area blockSize out grants where
  small := by
    intro p g pg i hg ho
    obtain ⟨hpg, hrest⟩ := h.small p g pg i hg ho
    exact ⟨⟨hkeep _ _ hpg.1 (Or.inl rfl), hpg.2⟩, hrest⟩
  large := by
    intro p g b hg ho
    obtain ⟨size, offset, hb, hrest⟩ := h.large p g b hg ho
    exact ⟨size, offset, hkeep _ _ hb (Or.inr ⟨offset, rfl⟩), hrest⟩
  out := fun pg p hpg hp => h.out pg p (hnew pg hpg (List.ne_nil_of_mem hp)) hp

/-- A region goes that no pointer was carved from. -/
theorem GrantsOk.anti (h : GrantsOk regions area blockSize out grants) {b : Nat}
    (hregions : regions' = Function.update regions b none)
    (hsmall : ∀ p g pg i, grants p = some g → g.origin = .small pg i → pg.seg ≠ b)
    (hlarge : ∀ p g, grants p = some g → g.origin ≠ .large b) :
    GrantsOk regions' area blockSize out grants where
  small := by
    intro p g pg i hg ho
    obtain ⟨hpg, hrest⟩ := h.small p g pg i hg ho
    refine ⟨⟨?_, hpg.2⟩, hrest⟩
    unfold IsSegment
    rw [hregions, Function.update_of_ne (hsmall p g pg i hg ho)]
    exact hpg.1
  large := by
    intro p g b' hg ho
    obtain ⟨size, offset, hb, hrest⟩ := h.large p g b' hg ho
    refine ⟨size, offset, ?_, hrest⟩
    have hne : b' ≠ b := by
      rintro rfl
      exact hlarge p g hg ho
    rw [hregions, Function.update_of_ne hne]
    exact hb
  out := by
    intro pg p hpg hp
    refine h.out pg p ⟨?_, hpg.2⟩ hp
    have hseg := hpg.1
    unfold IsSegment at hseg
    rw [hregions] at hseg
    exact (PartialMap.erase_eq_some.mp hseg).2

/-- The user pointer of a large region is handed out. -/
theorem GrantsOk.insertLarge (h : GrantsOk regions area blockSize out grants) {b size offset : Nat}
    {gr : Grant} (hb : regions b = some ⟨size, .large offset⟩) (hfresh : grants (b + offset) = none)
    (horigin : gr.origin = .large b) (husable : gr.usable = size - offset)
    (hsize : gr.size ≤ gr.usable) :
    GrantsOk regions area blockSize out (Function.update grants (b + offset) (some gr)) where
  small := by
    intro p g pg i hg ho
    rcases PartialMap.insert_eq_some.mp hg with ⟨_, rfl⟩ | ⟨_, hg⟩
    · rw [horigin] at ho
      cases ho
    · exact h.small p g pg i hg ho
  large := by
    intro p g b' hg ho
    rcases PartialMap.insert_eq_some.mp hg with ⟨rfl, rfl⟩ | ⟨_, hg⟩
    · rw [horigin] at ho
      cases ho
      exact ⟨size, offset, hb, rfl, husable, hsize⟩
    · exact h.large p g b' hg ho
  out := by
    intro pg p hpg hp
    obtain ⟨g, i, hg, ho⟩ := h.out pg p hpg hp
    refine ⟨g, i, ?_, ho⟩
    rw [Function.update_of_ne ?_]
    · exact hg
    · rintro rfl
      rw [hfresh] at hg
      cases hg

end Grants

namespace Inv

variable {ps : PageSize} {s : Store} {G : Ghost}

/-- The lock is not part of the data. -/
theorem setMtx (h : Inv ps s G) (mtx : Option Nat) :
    Inv ps { s with central := { s.central with mtx := mtx } } G :=
  { h with
    lists := ⟨h.lists.places,
      ⟨h.lists.chains.pool, h.lists.chains.freeCount, h.lists.chains.mmapSize,
        h.lists.chains.abandoned, h.lists.chains.segments, h.lists.chains.avail,
        h.lists.chains.inAvail⟩,
      ⟨h.lists.counters.numSegments, h.lists.counters.freePages, h.lists.counters.freeSegments,
        h.lists.counters.abandonedCount, h.lists.counters.total⟩, h.lists.cache⟩ }

/-- Regions other than segments and large ones may come and go, and the
registry with its table. -/
theorem setOs (h : Inv ps s G) (os : Os) (registry : Registry)
    (hr : RegionsOk os.mapped os.regions)
    (hkeep : ∀ b r, r.purpose.Tagged → (os.regions b = some r ↔ s.os.regions b = some r))
    (hmem : ∀ b r, s.os.regions b = some r → r.purpose.Tagged →
      ∀ x, b ≤ x → x < b + r.size → os.mem x = s.os.mem x)
    (htable : TableOk ps os registry) :
    Inv ps { s with os := os, registry := registry } G := by
  have hseg : IsSegment os.regions = IsSegment s.os.regions := by
    funext b
    exact propext (hkeep b _ (Or.inl rfl))
  refine ⟨hr, ?_, ?_, ?_, ?_, htable, h.sentinel⟩
  · have htags : TagsOk os.mem s.os.regions := by
      apply h.tags.congr
      intro b r hb hp x hlo hhi
      have := h.regions.header_fits hb hp
      exact hmem b r hb hp x hlo (by omega)
    constructor
    · intro b size hb
      exact htags.small b size ((hkeep b _ (Or.inl rfl)).mp hb)
    · intro b size offset hb
      exact htags.large b size offset ((hkeep b _ (Or.inr ⟨offset, rfl⟩)).mp hb)
  · intro pg hpg
    change IsPage (IsSegment os.regions) pg at hpg
    rw [hseg] at hpg
    apply (h.pages pg hpg).congr_outside
    intro x hlo hhi
    have hb := hpg.area_bounds
    exact hmem pg.seg _ hpg.1 (Or.inl rfl) x (by omega) (by simp only; omega)
  · change ListsOk (IsSegment os.regions) _ _ _ _
    rw [hseg]
    exact h.lists
  · refine h.grants.mono (fun b r hb hp => (hkeep b r hp).mpr hb) ?_
    intro pg hpg _
    change IsPage (IsSegment os.regions) pg at hpg
    rwa [hseg] at hpg

/-- A region that is neither a segment nor large is mapped. -/
theorem mapOther (h : Inv ps s G) {os : Os} {r size : Nat} {purpose : Purpose}
    (hm : s.os.Mapped os r size purpose) (hp : ¬ purpose.Tagged) :
    Inv ps { s with os := os } G := by
  have hr : RegionsOk os.mapped os.regions :=
    h.regions.map hm (fun heq => absurd (Or.inl heq) hp)
      (fun offset heq => absurd (Or.inr ⟨offset, heq⟩) hp)
  refine h.setOs os s.registry hr ?_ ?_ ?_
  · exact fun b reg htag => hm.keeps h.regions b reg (fun heq => hp (heq ▸ htag))
  · exact fun b reg hb _ x hlo hhi => hm.mem_old x (h.regions.mapped b reg hb x hlo hhi)
  · intro hslots
    exact hm.regions_kept h.regions (h.table hslots)

/-- A region that is neither a segment, nor large, nor the table is unmapped. -/
theorem unmapOther (h : Inv ps s G) {os : Os} {b size : Nat} {purpose : Purpose}
    (hb : s.os.regions b = some ⟨size, purpose⟩) (hp : ¬ purpose.Tagged) (ht : purpose ≠ .table)
    (hmem : os.mem = s.os.mem) (hregions : os.regions = Function.update s.os.regions b none)
    (hr : RegionsOk os.mapped os.regions) : Inv ps { s with os := os } G := by
  refine h.setOs os s.registry hr ?_ ?_ ?_
  · intro b' reg htag
    rw [hregions]
    exact regions_drop_keeps hb b' reg (fun heq => hp (heq ▸ htag))
  · intro _ _ _ _ x _ _
    rw [hmem]
  · intro hslots
    have hold := h.table hslots
    rw [hregions, Function.update_of_ne ?_]
    · exact hold
    · intro heq
      rw [heq, hb] at hold
      cases hold
      exact ht rfl

/-- `region_register`. -/
theorem register (h : Inv ps s G) {o : Oracle} {key : Nat} {w : TableWorld} {r : Registry}
    (hrun : storeRegister ps o s key = some (w, r)) (hok : w.ok) :
    Inv ps { s with os := w.os, registry := r } G ∧ TableStep s.os w.os := by
  obtain ⟨hstep, htable⟩ := storeRegister_tables hrun hok h.regions h.table
  have hne : ∀ r : Region, r.purpose.Tagged → r.purpose ≠ .table := by
    rintro r (heq | ⟨o, heq⟩) <;> simp [heq]
  refine ⟨h.setOs w.os r (hstep.regions h.regions) ?_ ?_ htable, hstep⟩
  · exact fun b reg htag => hstep.keep h.regions b reg (hne reg htag)
  · exact fun b reg hb htag => hstep.mem h.regions b reg hb (hne reg htag)

/-- `region_unregister`. -/
theorem unregister (h : Inv ps s G) {key : Nat} {r : Registry}
    (hrun : regionUnregister s.registry key = some r) : Inv ps { s with registry := r } G := by
  obtain ⟨hslots, hcap⟩ := regionUnregister_table hrun
  refine { h with table := ?_ }
  change r.slots ≠ 0 → s.os.regions r.slots = some ⟨slotsBytes ps r.cap, .table⟩
  rw [hslots, hcap]
  exact h.table

/-- A grant lies in a mapped region, so not in one that is new. -/
theorem grant_outside_fresh (h : Inv ps s G) {os : Os} {r size : Nat} {purpose : Purpose}
    (hm : s.os.Mapped os r size purpose) {p : Nat} {g : Grant} (hg : s.grants p = some g) :
    p + g.usable ≤ r ∨ r + size ≤ p := by
  obtain ⟨b, reg, hb, hlo, hle⟩ := h.grant_within hg
  have hd := hm.disjoint h.regions hb
  omega

/-- A mapping writes into no block that is handed out. -/
theorem grant_bytes_mapped (h : Inv ps s G) {os : Os} {r size : Nat} {purpose : Purpose}
    (hm : s.os.Mapped os r size purpose) {p : Nat} {g : Grant} (hg : s.grants p = some g) {x : Nat}
    (hlo : p ≤ x) (hhi : x < p + g.usable) : os.mem x = s.os.mem x := by
  obtain ⟨b, reg, hb, hbp, hle⟩ := h.grant_within hg
  exact hm.mem_old x (h.regions.mapped b reg hb x (by omega) (by omega))

end Inv

end HMalloc
