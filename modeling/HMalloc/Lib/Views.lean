import Mathlib.Data.List.Basic
import Mathlib.Logic.Function.Basic
import Mathlib.Order.Lattice

/-!
Memory with relaxed loads. A location has the values written to it, in modification
order. The parties are the threads and the objects they synchronise through: mutexes,
and atomic variables with release stores and acquire loads. Each knows a position in
every history; a load returns a value at that position or after it, and what a thread
knows it passes on to an object, and from the object to the next thread.

Program order and reads-from have no cycle here, so a load returns a value that was
written before. Nothing else is assumed of loads.
-/

namespace Views

variable {ι ν π : Type*}

structure Memory (ι ν π : Type*) where
  history : ι → List ν
  known : π → ι → Nat

/-- What a party does in one step, in this order: it learns what others know
(acquire), writes, and passes on what it then knows. A release store or an unlock
replaces what the object had, a release in a read-modify-write adds to it, and a
relaxed store leaves nothing. -/
structure Exchange (ι ν π : Type*) where
  learns : List π
  writes : ι → Option ν
  tells : π → Bool
  adds : π → Bool
  clears : π → Bool

namespace Memory

/-- What party `a` knows when it has learned from others. -/
def reach (M : Memory ι ν π) (a : π) (learns : List π) (x : ι) : Nat :=
  learns.foldr (fun b n => max (M.known b x) n) (M.known a x)

/-- What party `a` knows after its step. -/
def after (M : Memory ι ν π) (a : π) (e : Exchange ι ν π) (x : ι) : Nat :=
  if (e.writes x).isSome then (M.history x).length else M.reach a e.learns x

/-- Party `a` takes a step. -/
def act [DecidableEq π] (M : Memory ι ν π) (a : π) (e : Exchange ι ν π) : Memory ι ν π where
  history := fun x => M.history x ++ (e.writes x).toList
  known := fun b x =>
    if b = a ∨ e.tells b then M.after a e x
    else if e.adds b then max (M.known b x) (M.after a e x)
    else if e.clears b then 0
    else M.known b x

/-- Some locations are replaced by new ones with the value `v`, which everyone knows. -/
def renew (M : Memory ι ν π) (fresh : ι → Bool) (v : ν) : Memory ι ν π where
  history := fun x => if fresh x then [v] else M.history x
  known := fun a x => if fresh x then 0 else M.known a x

/-- Every location has a value, and nobody knows more than was written. -/
def Within (M : Memory ι ν π) : Prop := ∀ a x, M.known a x < (M.history x).length

/-- A relaxed load of `x` by party `a` may return `v`. -/
def Readable (M : Memory ι ν π) (a : π) (x : ι) (v : ν) : Prop :=
  ∃ i, M.known a x ≤ i ∧ (M.history x)[i]? = some v

/-- Party `a` knows the last write to `x`. -/
def Current (M : Memory ι ν π) (a : π) (x : ι) : Prop := M.known a x + 1 = (M.history x).length

variable {M M' : Memory ι ν π} {a b : π} {e : Exchange ι ν π} {x : ι} {v : ν}

section Known

theorem le_reach_self (M : Memory ι ν π) (a : π) (learns : List π) (x : ι) :
    M.known a x ≤ M.reach a learns x := by
  induction learns with
  | nil => exact Nat.le_refl _
  | cons b learns ih => exact Nat.le_trans ih (Nat.le_max_right ..)

theorem le_reach {learns : List π} (hb : b ∈ learns) : M.known b x ≤ M.reach a learns x := by
  induction learns with
  | nil => cases hb
  | cons c learns ih =>
      rcases List.mem_cons.mp hb with rfl | hb
      · exact Nat.le_max_left ..
      · exact Nat.le_trans (ih hb) (Nat.le_max_right ..)

theorem Within.reach_lt (h : M.Within) (a : π) (learns : List π) (x : ι) :
    M.reach a learns x < (M.history x).length := by
  induction learns with
  | nil => exact h a x
  | cons b learns ih => exact Nat.max_lt.mpr ⟨h b x, ih⟩

theorem le_reach_of {learns : List π} (hb : b = a ∨ b ∈ learns) :
    M.known b x ≤ M.reach a learns x := by
  rcases hb with rfl | hb
  · exact le_reach_self ..
  · exact le_reach hb

theorem Within.le_after (h : M.Within) (hb : b = a ∨ b ∈ e.learns) :
    M.known b x ≤ M.after a e x := by
  unfold after
  split
  · exact Nat.le_of_lt (h b x)
  · exact le_reach_of hb

theorem Within.after_lt (h : M.Within) (a : π) (e : Exchange ι ν π) (x : ι) :
    M.after a e x < (M.history x ++ (e.writes x).toList).length := by
  unfold after
  cases hw : e.writes x with
  | some v => simp
  | none =>
      have hlt := h.reach_lt a e.learns x
      simpa using hlt

end Known

section Act

variable [DecidableEq π]

theorem act_self (M : Memory ι ν π) (a : π) (e : Exchange ι ν π) (x : ι) :
    (M.act a e).known a x = M.after a e x :=
  if_pos (Or.inl rfl)

theorem act_other (hne : b ≠ a) (ht : e.tells b = false) (ha : e.adds b = false)
    (hc : e.clears b = false) (x : ι) : (M.act a e).known b x = M.known b x := by
  have hself : ¬ (b = a ∨ e.tells b = true) := by
    rw [ht]
    exact fun h => h.elim hne Bool.false_ne_true
  change ite _ _ _ = _
  rw [if_neg hself, ha, if_neg Bool.false_ne_true, hc, if_neg Bool.false_ne_true]

theorem Within.act (h : M.Within) (a : π) (e : Exchange ι ν π) : (M.act a e).Within := by
  intro b x
  have hgrow : (M.history x).length ≤ (M.history x ++ (e.writes x).toList).length := by simp
  have hafter := h.after_lt a e x
  have hknown := Nat.lt_of_lt_of_le (h b x) hgrow
  change ite _ _ _ < (M.history x ++ _).length
  split
  · exact hafter
  · split
    · exact Nat.max_lt.mpr ⟨hknown, hafter⟩
    · split
      · exact Nat.lt_of_le_of_lt (Nat.zero_le _) hafter
      · exact hknown

/-- A party loses nothing it knows, unless the step clears it or overwrites it with
what a party that did not learn from it knows. -/
theorem Within.le_act (h : M.Within) (hc : e.clears b = false)
    (ht : e.tells b = true → b ∈ e.learns) : M.known b x ≤ (M.act a e).known b x := by
  change _ ≤ ite _ _ _
  split
  · rename_i hb
    exact h.le_after (hb.imp_right ht)
  · split
    · exact Nat.le_max_left ..
    · rw [hc, if_neg Bool.false_ne_true]

theorem Within.le_act_self (h : M.Within) (hb : b = a ∨ b ∈ e.learns) :
    M.known b x ≤ (M.act a e).known a x := by
  rw [act_self]
  exact h.le_after hb

/-- Whom a release reaches knows what the releasing party knows. -/
theorem after_le_act (h : e.tells b = true ∨ e.adds b = true) :
    (M.act a e).known a x ≤ (M.act a e).known b x := by
  rw [act_self]
  change _ ≤ ite _ _ _
  split
  · exact Nat.le_refl _
  · rename_i hb
    rw [if_pos (h.resolve_left fun ht => hb (Or.inr ht))]
    exact Nat.le_max_right ..

theorem act_history (hw : e.writes x = none) : (M.act a e).history x = M.history x := by
  change M.history x ++ (e.writes x).toList = _
  rw [hw]
  exact List.append_nil _

theorem Current.act_self (hw : (e.writes x).isSome = true) : (M.act a e).Current a x := by
  unfold Current
  rw [Memory.act_self]
  change _ = (M.history x ++ (e.writes x).toList).length
  rw [after, if_pos hw]
  obtain ⟨v, hv⟩ := Option.isSome_iff_exists.mp hw
  rw [hv]
  simp

end Act

/-- Who knows more than a party that knows the last write knows it too. -/
theorem Current.mono (h : M.Current a x) (hw : M'.Within) (hx : M'.history x = M.history x)
    (hle : M.known a x ≤ M'.known b x) : M'.Current b x := by
  unfold Current at h ⊢
  have hlt := hw b x
  rw [hx] at hlt ⊢
  omega

section Renew

variable {fresh : ι → Bool}

theorem renew_current (hx : fresh x = true) (a : π) : (M.renew fresh v).Current a x := by
  unfold Current renew
  dsimp only
  rw [if_pos hx, if_pos hx]
  rfl

theorem Within.renew (h : M.Within) (fresh : ι → Bool) (v : ν) : (M.renew fresh v).Within := by
  intro a x
  unfold Memory.renew
  dsimp only
  split
  · exact Nat.zero_lt_one
  · exact h a x

theorem Current.renew (h : M.Current a x) (fresh : ι → Bool) (v : ν) :
    (M.renew fresh v).Current a x := by
  cases hx : fresh x with
  | true => exact renew_current hx a
  | false =>
      unfold Current Memory.renew
      dsimp only
      rw [hx]
      exact h

end Renew

/-- The value `v` of `x` lies behind party `a`: no load of it returns `v` any more. -/
def Past (M : Memory ι ν π) (a : π) (x : ι) (v : ν) : Prop := ¬ M.Readable a x v

theorem Past.mono (h : M.Past a x v) {l : List ν} (hx : M'.history x = M.history x ++ l)
    (hv : v ∉ l) (hle : M.known a x ≤ M'.known b x) : M'.Past b x v := by
  rintro ⟨i, hi, hread⟩
  rw [hx, List.getElem?_append] at hread
  split at hread
  · exact h ⟨i, Nat.le_trans hle hi, hread⟩
  · exact hv (List.mem_of_getElem? hread)

/-- A party that knows the last write reads nothing else. -/
theorem Current.readable_iff (h : M.Current a x) :
    M.Readable a x v ↔ (M.history x).getLast? = some v := by
  unfold Current at h
  rw [List.getLast?_eq_getElem?]
  constructor
  · rintro ⟨i, hi, hread⟩
    obtain ⟨hlt, _⟩ := List.getElem?_eq_some_iff.mp hread
    obtain rfl : i = (M.history x).length - 1 := by omega
    exact hread
  · exact fun hlast => ⟨(M.history x).length - 1, by omega, hlast⟩

end Memory

end Views
