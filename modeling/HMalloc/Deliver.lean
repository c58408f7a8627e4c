import HMalloc.Frames
import HMalloc.Inversion

/-!
How pointers change hands. An allocation call that has its block delivers it:
`hm_calloc` clears it, `hm_realloc` copies the old contents into it and goes on
to free the old block. The block is not handed out before that, so the writes
concern nobody else.
-/

namespace HMalloc

open Bytes Linked

section Grants

variable {grants grants' : Nat → Option Grant}

@[simp] theorem setHolder_self (grants : Nat → Option Grant) (p : Nat) (holder : Holder) :
    setHolder grants p holder p = (grants p).map (fun g => { g with holder := holder }) :=
  Function.update_self ..

theorem setHolder_of_ne (grants : Nat → Option Grant) {p x : Nat} (holder : Holder)
    (h : x ≠ p) : setHolder grants p holder x = grants x :=
  Function.update_of_ne h ..

/-- The same pointers, with the same origin and usable size. -/
structure Regranted (grants grants' : Nat → Option Grant) : Prop where
  back : ∀ p g', grants' p = some g' → ∃ g, grants p = some g ∧ g'.origin = g.origin ∧
    g'.usable = g.usable ∧ (g.size ≤ g.usable → g'.size ≤ g'.usable)
  forth : ∀ p g, grants p = some g → ∃ g', grants' p = some g' ∧ g'.origin = g.origin ∧
    g'.usable = g.usable

theorem regranted_setHolder (grants : Nat → Option Grant) (p : Nat) (holder : Holder) :
    Regranted grants (setHolder grants p holder) := by
  constructor
  · intro x g' hg'
    by_cases hx : x = p
    · subst hx
      rw [setHolder_self, Option.map_eq_some_iff] at hg'
      obtain ⟨g, hg, rfl⟩ := hg'
      exact ⟨g, hg, rfl, rfl, id⟩
    · rw [setHolder_of_ne _ _ hx] at hg'
      exact ⟨g', hg', rfl, rfl, id⟩
  · intro x g hg
    by_cases hx : x = p
    · subst hx
      exact ⟨{ g with holder := holder }, by rw [setHolder_self, hg]; rfl, rfl, rfl⟩
    · exact ⟨g, by rw [setHolder_of_ne _ _ hx]; exact hg, rfl, rfl⟩

theorem GrantsOk.regrant {regions : Nat → Option Region} {area blockSize : PageId → Nat}
    {out : PageId → List Nat} (h : GrantsOk regions area blockSize out grants)
    (hr : Regranted grants grants') : GrantsOk regions area blockSize out grants' where
  small := by
    intro p g' pg i hg' ho
    obtain ⟨g, hg, horigin, husable, hsize⟩ := hr.back p g' hg'
    obtain ⟨hpg, hout, hblock, hu, hle⟩ := h.small p g pg i hg (horigin.symm.trans ho)
    exact ⟨hpg, hout, hblock, husable.trans hu, hsize hle⟩
  large := by
    intro p g' b hg' ho
    obtain ⟨g, hg, horigin, husable, hsize⟩ := hr.back p g' hg'
    obtain ⟨size, offset, hreg, hp, hu, hle⟩ := h.large p g b hg (horigin.symm.trans ho)
    exact ⟨size, offset, hreg, hp, husable.trans hu, hsize hle⟩
  out := by
    intro pg p hpg hmem
    obtain ⟨g, i, hg, ho⟩ := h.out pg p hpg hmem
    obtain ⟨g', hg', horigin, _⟩ := hr.forth p g hg
    exact ⟨g', i, hg', horigin.trans ho⟩

theorem Inv.regrant {ps : PageSize} {s : Store} {G : Ghost} (h : Inv ps s G)
    (hr : Regranted s.grants grants') : Inv ps { s with grants := grants' } G :=
  { h with grants := h.grants.regrant hr }

end Grants

section Deliver

variable {ps : PageSize} {s₀ s : Store} {G₀ G : Ghost} {t : Nat} {th : Thread}

/-- A step of thread `t` that writes only into the block `b`, which nobody else
holds, and changes the holders of its own pointers. -/
theorem StepFrame.grants {b n : Nat} {mem : Mem} {grants : Nat → Option Grant}
    (hb : ∀ g, s.grants b = some g → g.holder = .fresh t ∨ g.holder = .freeing t)
    (hholders : ∀ u, u ≠ t → ∀ p g, g.holder.thread = some u →
      (grants p = some g ↔ s.grants p = some g))
    (hkept : ∀ p g, s.grants p = some g → g.holder ≠ .freeing t → ∃ g', grants p = some g')
    (hsame : ∀ p g g', s.grants p = some g → grants p = some g' →
      g'.origin = g.origin ∧ g'.usable = g.usable)
    (hmem : ∀ x, x < b ∨ b + n ≤ x → mem x = s.os.mem x)
    (hdisj : ∀ p g, s.grants p = some g → p ≠ b → p + g.usable ≤ b ∨ b + n ≤ p) :
    StepFrame t s G { s with os := { s.os with mem := mem }, grants := grants } G where
  homes := fun _ _ _ _ => Iff.rfl
  lists := fun _ _ _ _ _ => .of_pages rfl rfl rfl rfl
  holders := hholders
  kept := hkept
  same := hsame
  bytes := by
    intro p g hg hfree hfresh x hlo hhi
    have hne : p ≠ b := by
      rintro rfl
      rcases hb g hg with heq | heq
      · exact hfresh heq
      · exact hfree heq
    have hd := hdisj p g hg hne
    exact hmem x (by omega)
  lock := fun _ _ _ => ⟨rfl, rfl, rfl, fun _ => Iff.rfl⟩
  unlocked := fun _ _ h => h

/-- What a thread must know to deliver the block `b`: it may be granted, and it
is not, unless to the thread itself. -/
structure Deliverable (ps : PageSize) (s : Store) (G : Ghost) (t b usable : Nat)
    (origin : Origin) : Prop where
  inv : ∀ gr : Grant, gr.origin = origin → gr.usable = usable → gr.size ≤ gr.usable →
    Inv ps { s with grants := Function.update s.grants b (some gr) } G
  fresh : ∀ g, s.grants b = some g →
    g.holder = .fresh t ∧ g.origin = origin ∧ g.usable = usable

variable {q : Request} {b usable : Nat} {origin : Origin}

theorem Deliverable.disjoint (h : Deliverable ps s G t b usable origin) {p : Nat} {g : Grant}
    (hg : s.grants p = some g) (hne : p ≠ b) : p + g.usable ≤ b ∨ b + usable ≤ p := by
  have hinv := h.inv ⟨0, usable, .client, origin⟩ rfl rfl (Nat.zero_le _)
  have hb : Function.update s.grants b (some ⟨0, usable, .client, origin⟩) b =
      some ⟨0, usable, .client, origin⟩ := Function.update_self ..
  exact hinv.grants_disjoint (p := p) (q := b) ((Function.update_of_ne hne _ _).trans hg) hb hne

/-- The bytes `deliver` writes are in the block. -/
theorem deliver_mem (mem : Mem) (clear : Bool) (b size usable : Nat) (hsize : size ≤ usable)
    {x : Nat} (hx : x < b ∨ b + usable ≤ x) :
    (if clear then fill mem b size 0 else mem) x = mem x := by
  split
  · exact fill_outside _ _ _ _ _ (by omega)
  · rfl

/-- The pointers after `hm_realloc` has got block `b`: the new block is granted to
the thread, the old one is being freed. -/
structure MovedTo (t b old : Nat) (new g₀ : Grant) (grants grants' : Nat → Option Grant) :
    Prop where
  block : grants' b = some new
  moved : grants' old = some { g₀ with holder := .freeing t }
  other : ∀ p, p ≠ b → p ≠ old → grants' p = grants p

theorem movedTo_setHolder {grants : Nat → Option Grant} {old : Nat} {new g₀ : Grant}
    (hne : old ≠ b) (hg₀ : grants old = some g₀) : MovedTo t b old new g₀ grants
      (setHolder (Function.update grants b (some new)) old (.freeing t)) where
  block := by rw [setHolder_of_ne _ _ hne.symm, Function.update_self]
  moved := by
    rw [setHolder_self, Function.update_of_ne hne, hg₀]
    rfl
  other := by
    intro p hpb hpo
    rw [setHolder_of_ne _ _ hpo, Function.update_of_ne hpb]

theorem MovedTo.frame {old : Nat} {new g₀ : Grant} {grants : Nat → Option Grant} {mem : Mem}
    (hm : MovedTo t b old new g₀ s.grants grants) (hd : Deliverable ps s G t b usable origin)
    (hnew : new.holder = .fresh t ∧ new.origin = origin ∧ new.usable = usable)
    (hg₀ : s.grants old = some g₀) (hheld : g₀.holder.thread = some t)
    (hmem : ∀ x, x < b ∨ b + usable ≤ x → mem x = s.os.mem x) :
    StepFrame t s G { s with os := { s.os with mem := mem }, grants := grants } G := by
  refine StepFrame.grants (b := b) (n := usable)
    (fun g hg => Or.inl (hd.fresh g hg).1) ?_ ?_ ?_ hmem (fun p g hg hne => hd.disjoint hg hne)
  · intro u hu p g hh
    have hother : g.holder.thread ≠ some t := by
      rw [hh]
      exact fun heq => hu (Option.some.inj heq)
    by_cases hpb : p = b
    · rw [hpb, hm.block]
      refine ⟨fun hg => ?_, fun hg => ?_⟩
      · cases hg
        rw [hnew.1] at hother
        exact absurd rfl hother
      · rw [(hd.fresh g hg).1] at hother
        exact absurd rfl hother
    · by_cases hpo : p = old
      · rw [hpo, hm.moved, hg₀]
        refine ⟨fun hg => ?_, fun hg => ?_⟩
        · cases hg
          exact absurd rfl hother
        · cases hg
          exact absurd hheld hother
      · rw [hm.other p hpb hpo]
  · intro p g hg _
    by_cases hpb : p = b
    · exact ⟨new, by rw [hpb, hm.block]⟩
    · by_cases hpo : p = old
      · exact ⟨_, by rw [hpo, hm.moved]⟩
      · exact ⟨g, by rw [hm.other p hpb hpo]; exact hg⟩
  · intro p g g' hg hg'
    by_cases hpb : p = b
    · subst hpb
      rw [hm.block] at hg'
      cases hg'
      obtain ⟨_, ho, hu⟩ := hd.fresh g hg
      exact ⟨hnew.2.1.trans ho.symm, hnew.2.2.trans hu.symm⟩
    · by_cases hpo : p = old
      · subst hpo
        rw [hm.moved] at hg'
        cases hg'
        rw [hg₀] at hg
        cases hg
        exact ⟨rfl, rfl⟩
      · rw [hm.other p hpb hpo, hg] at hg'
        cases hg'
        exact ⟨rfl, rfl⟩

/-- The thread goes on to free the old block. -/
theorem MovedTo.thread {old : Nat} {new g₀ : Grant} {grants : Nat → Option Grant} {mem : Mem}
    (hm : MovedTo t b old new g₀ s.grants grants) (h : ThreadOk ps s₀ G₀ t th)
    (hregions : ∀ a size, s.os.regions a = some ⟨size, .heap t⟩ ↔
      s₀.os.regions a = some ⟨size, .heap t⟩)
    (hlink : th.pc.unlinked = none) (hnew : new.holder = .fresh t) (hb : b ≠ 0)
    (hown : ∀ p g, s.grants p = some g → g.holder.thread = some t → p = b ∨ p = old)
    (hlists : ∀ a, th.heap = some a → Serving s G a none) (hmtx : s.central.mtx ≠ some t) :
    ThreadOk ps { s with os := { s.os with mem := mem }, grants := grants } G t
      { th with pc := .free old b } := by
  refine ⟨trivial, ?_, ?_, ?_, ?_, ?_, ?_, trivial, ?_, trivial⟩
  · intro a size
    rw [Thread.home_of_linked (show ({ th with pc := .free old b } : Thread).pc.unlinked = none
      from rfl)]
    change s.os.regions a = _ ↔ _
    rw [hregions, h.home, Thread.home_of_linked hlink]
  · intro hneeds
    cases hneeds
  · exact fun hnot => absurd rfl hnot
  · intro a ha
    obtain ⟨hl, ho⟩ := hlists a ha
    exact ⟨hl, ho⟩
  · intro p holder hholder
    constructor
    · rintro ⟨g, hg, rfl⟩
      change grants p = some g at hg
      by_cases hpb : p = b
      · rw [hpb, hm.block] at hg
        cases hg
        rw [hnew, hpb]
        exact ptr_of_ne hb
      · by_cases hpo : p = old
        · rw [hpo, hm.moved] at hg
          cases hg
          change some old = some p
          rw [hpo]
        · rw [hm.other p hpb hpo] at hg
          rcases hown p g hg hholder with heq | heq
          · exact absurd heq hpb
          · exact absurd heq hpo
    · intro hholds
      cases holder with
      | client => cases hholder
      | moving u =>
          obtain ⟨q', u', hq', _⟩ := hholds
          cases hq'
      | freeing u =>
          obtain rfl : u = t := Option.some.inj hholder
          obtain rfl : old = p := Option.some.inj hholds
          exact ⟨_, hm.moved, rfl⟩
      | fresh u =>
          obtain rfl : u = t := Option.some.inj hholder
          obtain ⟨rfl, _⟩ := ptr_eq_some.mp hholds
          exact ⟨_, hm.block, hnew⟩
  · intro q' p u g hq'
    cases hq'
  · exact ⟨fun hlocked => absurd hlocked hmtx, fun hlocked => by cases hlocked⟩

section Delivery

variable (h : ThreadOk ps s₀ G₀ t th) (hgrants : s.grants = s₀.grants)
  (hregions : ∀ a size, s.os.regions a = some ⟨size, .heap t⟩ ↔
    s₀.os.regions a = some ⟨size, .heap t⟩)
  (hlink : th.pc.unlinked = none) (hrequest : th.pc.request = some q)
  (hfreeing : th.pc.freeing = none) (hresult : ∀ p, th.pc.result = some p → p = b)
  (hd : Deliverable ps s G t b usable origin) (hsize : q.size ≤ usable)
  (hlists : ∀ a, th.heap = some a → Serving s G a none) (hmtx : s.central.mtx ≠ some t)

include h hgrants hrequest hfreeing hresult in
/-- The thread works on the block that it moves, if it moves one, and perhaps on `b`. -/
theorem deliver_own {p : Nat} {g : Grant} (hg : s.grants p = some g)
    (hh : g.holder.thread = some t) : p = b ∨ ∃ u, q.old = some (p, u) := by
  rw [hgrants] at hg
  rcases h.held hg hh with ⟨_, q', u, hq', hold⟩ | ⟨_, hf⟩ | ⟨_, hr⟩
  · cases hrequest.symm.trans hq'
    exact Or.inr ⟨u, hold⟩
  · cases hfreeing.symm.trans hf
  · exact Or.inl (hresult p hr)

include h hgrants hregions hlink hrequest hfreeing hresult hd hsize hlists hmtx

/-- A call that moves no block returns its new one. -/
theorem deliver_new (hold : q.old = none) :
    Inv ps (deliver s t th q b usable origin).1 G ∧
      ThreadOk ps (deliver s t th q b usable origin).1 G t
        (deliver s t th q b usable origin).2 ∧
      StepFrame t s G (deliver s t th q b usable origin).1 G := by
  have hown : ∀ p g, s.grants p = some g → g.holder.thread = some t → p = b := by
    intro p g hg hh
    rcases deliver_own h hgrants hrequest hfreeing hresult hg hh with hp | ⟨u, hu⟩
    · exact hp
    · cases hold.symm.trans hu
  rw [deliver_of_new _ _ _ _ _ _ _ hold]
  have hinv := hd.inv ⟨q.size, usable, .client, origin⟩ rfl rfl hsize
  have hmem : ∀ x, x < b ∨ b + usable ≤ x →
      (if q.clear then fill s.os.mem b q.size 0 else s.os.mem) x = s.os.mem x :=
    fun x hx => deliver_mem _ _ _ _ _ hsize hx
  have hnew : ∀ p g, Function.update s.grants b (some ⟨q.size, usable, .client, origin⟩) p =
      some g → (p = b ∧ g = ⟨q.size, usable, .client, origin⟩) ∨ (p ≠ b ∧ s.grants p = some g) :=
    fun _ _ => PartialMap.insert_eq_some.mp
  refine ⟨?_, ?_, ?_⟩
  · exact hinv.write_grant (p := b) (g := ⟨q.size, usable, .client, origin⟩)
      (Function.update_self ..) hmem
  · refine h.ret b hregions hlink ?_ ?_ hmtx
    · intro p g hg hh
      rcases hnew p g hg with ⟨_, rfl⟩ | ⟨hp, hg⟩
      · cases hh
      · exact hp (hown p g hg hh)
    · intro a ha
      obtain ⟨hl, ho⟩ := hlists a ha
      exact ⟨hl, ho⟩
  · refine StepFrame.grants (b := b) (n := usable)
      (fun g hg => Or.inl (hd.fresh g hg).1) ?_ ?_ ?_ hmem (fun p g hg hne => hd.disjoint hg hne)
    · intro u hu p g hh
      constructor
      · intro hg
        rcases hnew p g hg with ⟨_, rfl⟩ | ⟨_, hg⟩
        · cases hh
        · exact hg
      · intro hg
        have hp : p ≠ b := by
          rintro rfl
          rw [(hd.fresh g hg).1] at hh
          exact hu (Option.some.inj hh).symm
        rw [Function.update_of_ne hp]
        exact hg
    · intro p g hg _
      by_cases hp : p = b
      · exact ⟨_, by rw [hp, Function.update_self]⟩
      · exact ⟨g, by rw [Function.update_of_ne hp]; exact hg⟩
    · intro p g g' hg hg'
      rcases hnew p g' hg' with ⟨rfl, rfl⟩ | ⟨_, hg'⟩
      · obtain ⟨_, ho, hu⟩ := hd.fresh g hg
        exact ⟨ho.symm, hu.symm⟩
      · rw [hg] at hg'
        cases hg'
        exact ⟨rfl, rfl⟩

/-- `hm_realloc` copies the old contents and goes on to free the old block. -/
theorem deliver_move {old oldUsable : Nat} (hold : q.old = some (old, oldUsable)) :
    Inv ps (deliver s t th q b usable origin).1 G ∧
      ThreadOk ps (deliver s t th q b usable origin).1 G t
        (deliver s t th q b usable origin).2 ∧
      StepFrame t s G (deliver s t th q b usable origin).1 G := by
  obtain ⟨g₀, hg₀, hmoving⟩ := (h.holders old (.moving t) rfl).mpr ⟨q, oldUsable, hrequest, hold⟩
  rw [← hgrants] at hg₀
  have hne : old ≠ b := by
    rintro rfl
    rw [(hd.fresh g₀ hg₀).1] at hmoving
    cases hmoving
  have hown : ∀ p g, s.grants p = some g → g.holder.thread = some t → p = b ∨ p = old := by
    intro p g hg hh
    rcases deliver_own h hgrants hrequest hfreeing hresult hg hh with hp | ⟨u, hu⟩
    · exact Or.inl hp
    · cases hold.symm.trans hu
      exact Or.inr rfl
  rw [deliver_of_old _ _ _ _ _ _ _ hold]
  have hmem : ∀ x, x < b ∨ b + usable ≤ x →
      copy (if q.clear then fill s.os.mem b q.size 0 else s.os.mem) b old
        (if q.size < oldUsable then q.size else oldUsable) x = s.os.mem x := by
    intro x hx
    rw [copy_outside _ _ _ _ _ (by split <;> omega)]
    exact deliver_mem _ _ _ _ _ hsize hx
  have hm : MovedTo t b old ⟨q.size, usable, .fresh t, origin⟩ g₀ s.grants _ :=
    movedTo_setHolder hne hg₀
  have hregrant := regranted_setHolder
    (Function.update s.grants b (some ⟨q.size, usable, .fresh t, origin⟩)) old (.freeing t)
  have hinv := ((hd.inv ⟨q.size, usable, .fresh t, origin⟩ rfl rfl hsize).regrant
    hregrant).write_grant (p := b) (g := ⟨q.size, usable, .fresh t, origin⟩) hm.block hmem
  have hb := hinv.grant_ne_zero (p := b) hm.block
  exact ⟨hinv, hm.thread h hregions hlink rfl hb hown hlists hmtx,
    hm.frame hd ⟨rfl, rfl, rfl⟩ hg₀ (by rw [hmoving]; rfl) hmem⟩

/-- A block is delivered. -/
theorem deliver_spec :
    Inv ps (deliver s t th q b usable origin).1 G ∧
      ThreadOk ps (deliver s t th q b usable origin).1 G t
        (deliver s t th q b usable origin).2 ∧
      StepFrame t s G (deliver s t th q b usable origin).1 G := by
  cases hold : q.old with
  | none =>
      exact deliver_new h hgrants hregions hlink hrequest hfreeing hresult hd hsize hlists hmtx hold
  | some o =>
      exact deliver_move h hgrants hregions hlink hrequest hfreeing hresult hd hsize hlists hmtx
        hold

end Delivery

/-- A call returns, and the one pointer that the thread had goes to its client. -/
theorem ThreadOk.handBack (h : ThreadOk ps s₀ G₀ t th) (result : Nat)
    (hregions : ∀ a size, s.os.regions a = some ⟨size, .heap t⟩ ↔
      s₀.os.regions a = some ⟨size, .heap t⟩)
    (hlink : th.pc.unlinked = none) (hinv : Inv ps s G) {p₀ : Nat} {g₀ : Grant}
    (hg₀ : s.grants p₀ = some g₀) (hholder : g₀.holder.thread = some t)
    (hown : ∀ p g, s.grants p = some g → g.holder.thread = some t → p = p₀)
    (hlists : ∀ a, th.heap = some a → Serving s G a none) (hmtx : s.central.mtx ≠ some t) :
    Inv ps { s with grants := setHolder s.grants p₀ .client } G ∧
      ThreadOk ps { s with grants := setHolder s.grants p₀ .client } G t (th.ret result) ∧
      StepFrame t s G { s with grants := setHolder s.grants p₀ .client } G := by
  have hregrant := regranted_setHolder s.grants p₀ .client
  refine ⟨hinv.regrant hregrant, h.ret result hregions hlink ?_ ?_ hmtx, ?_⟩
  · intro p g hg hh
    change setHolder s.grants p₀ .client p = some g at hg
    by_cases hp : p = p₀
    · rw [hp, setHolder_self, Option.map_eq_some_iff] at hg
      obtain ⟨g', _, rfl⟩ := hg
      cases hh
    · rw [setHolder_of_ne _ _ hp] at hg
      exact hp (hown p g hg hh)
  · intro a ha
    obtain ⟨hl, ho⟩ := hlists a ha
    exact ⟨hl, ho⟩
  · refine ⟨fun _ _ _ _ => Iff.rfl,
      fun _ _ _ _ _ => .of_pages rfl rfl rfl rfl, ?_, ?_, ?_,
      fun _ _ _ _ _ _ _ _ => rfl, fun _ _ _ => ⟨rfl, rfl, rfl, fun _ => Iff.rfl⟩,
      fun _ _ hm => hm⟩
    · intro u hu p g hh
      change setHolder s.grants p₀ .client p = some g ↔ _
      by_cases hp : p = p₀
      · rw [hp, setHolder_self, hg₀]
        refine ⟨fun hg => ?_, fun hg => ?_⟩
        · cases hg
          cases hh
        · cases hg
          rw [hholder] at hh
          exact absurd (Option.some.inj hh).symm hu
      · rw [setHolder_of_ne _ _ hp]
    · intro p g hg _
      obtain ⟨g', hg', _⟩ := hregrant.forth p g hg
      exact ⟨g', hg'⟩
    · intro p g g' hg hg'
      obtain ⟨g₁, hg₁, ho, hu, _⟩ := hregrant.back p g' hg'
      rw [hg] at hg₁
      cases hg₁
      exact ⟨ho, hu⟩

/-- A failed allocation call returns null; the block that was to be moved stays
with its client. -/
theorem failAlloc_spec (h : ThreadOk ps s₀ G₀ t th) (hgrants : s.grants = s₀.grants)
    (hregions : ∀ a size, s.os.regions a = some ⟨size, .heap t⟩ ↔
      s₀.os.regions a = some ⟨size, .heap t⟩)
    (hlink : th.pc.unlinked = none) (hrequest : th.pc.request = some q)
    (hfreeing : th.pc.freeing = none) (hresult : th.pc.result = none) (hinv : Inv ps s G)
    (hlists : ∀ a, th.heap = some a → Serving s G a none) (hmtx : s.central.mtx ≠ some t) :
    Inv ps (failAlloc s th q).1 G ∧ ThreadOk ps (failAlloc s th q).1 G t (failAlloc s th q).2 ∧
      StepFrame t s G (failAlloc s th q).1 G := by
  have hown : ∀ p g, s.grants p = some g → g.holder.thread = some t →
      g.holder = .moving t ∧ ∃ u, q.old = some (p, u) := by
    intro p g hg hh
    rw [hgrants] at hg
    rcases h.held hg hh with ⟨hm, q', u, hq', hold'⟩ | ⟨_, hf⟩ | ⟨_, hr⟩
    · cases hrequest.symm.trans hq'
      exact ⟨hm, u, hold'⟩
    · cases hfreeing.symm.trans hf
    · cases hresult.symm.trans hr
  cases hold : q.old with
  | none =>
      have hrun : failAlloc s th q = (s, th.ret 0) := by
        unfold failAlloc
        rw [hold]
      rw [hrun]
      refine ⟨hinv, h.ret 0 hregions hlink ?_ hlists hmtx, StepFrame.refl t s G⟩
      intro p g hg hh
      obtain ⟨_, u, hu⟩ := hown p g hg hh
      rw [hold] at hu
      cases hu
  | some o =>
      obtain ⟨old, oldUsable⟩ := o
      have hrun : failAlloc s th q =
          ({ s with grants := setHolder s.grants old .client }, th.ret 0) := by
        unfold failAlloc
        rw [hold]
      rw [hrun]
      obtain ⟨g₀, hg₀, hmoving⟩ :=
        (h.holders old (.moving t) rfl).mpr ⟨q, oldUsable, hrequest, hold⟩
      rw [← hgrants] at hg₀
      refine h.handBack 0 hregions hlink hinv hg₀ (by rw [hmoving]; rfl) ?_ hlists hmtx
      intro p g hg hh
      obtain ⟨_, u, hu⟩ := hown p g hg hh
      rw [hold] at hu
      cases hu
      rfl

end Deliver

end HMalloc
