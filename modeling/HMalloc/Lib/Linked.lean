import Mathlib.Tactic

/-!
Intrusive linked lists. The links live in the nodes, so a list is a relation
between a successor function, a head pointer and the sequence of nodes the
pointer leads through; `none` is the null pointer. `Seg` and `Chain` are the
singly linked lists, `DSeg` and `DList` the doubly linked ones, where every
node also knows its predecessor. The lemmas say what the usual edits (push,
splice, unlink) do to the sequence, in terms of the links before and after.
-/

namespace Linked

variable {ι : Type*}

/-- Following `nxt` from `head` leads through `xs` and arrives at `stop`. -/
def Seg (nxt : ι → Option ι) : Option ι → List ι → Option ι → Prop
  | head, [], stop => head = stop
  | head, x :: xs, stop => head = some x ∧ Seg nxt (nxt x) xs stop

/-- A null-terminated list. -/
def Chain (nxt : ι → Option ι) (head : Option ι) (xs : List ι) : Prop :=
  Seg nxt head xs none

theorem Seg.congr {nxt nxt' : ι → Option ι} {head stop : Option ι}
    {xs : List ι} (h : Seg nxt head xs stop)
    (hsame : ∀ x ∈ xs, nxt' x = nxt x) : Seg nxt' head xs stop := by
  induction xs generalizing head with
  | nil => exact h
  | cons x xs ih =>
      refine ⟨h.1, ?_⟩
      rw [hsame x (by simp)]
      exact ih h.2 (fun y hy => hsame y (by simp [hy]))

theorem seg_append {nxt : ι → Option ι} {head stop : Option ι}
    {xs ys : List ι} :
    Seg nxt head (xs ++ ys) stop ↔
      ∃ mid, Seg nxt head xs mid ∧ Seg nxt mid ys stop := by
  induction xs generalizing head with
  | nil => simp [Seg]
  | cons x xs ih =>
      simp only [List.cons_append, Seg, ih]
      constructor
      · rintro ⟨hx, mid, hl, hr⟩
        exact ⟨mid, ⟨hx, hl⟩, hr⟩
      · rintro ⟨mid, ⟨hx, hl⟩, hr⟩
        exact ⟨hx, mid, hl, hr⟩

theorem Chain.congr {nxt nxt' : ι → Option ι} {head : Option ι}
    {xs : List ι} (h : Chain nxt head xs)
    (hsame : ∀ x ∈ xs, nxt' x = nxt x) : Chain nxt' head xs :=
  Seg.congr h hsame

theorem chain_nil {nxt : ι → Option ι} {head : Option ι} :
    Chain nxt head [] ↔ head = none := Iff.rfl

theorem chain_cons {nxt : ι → Option ι} {head : Option ι} {x : ι}
    {xs : List ι} :
    Chain nxt head (x :: xs) ↔ head = some x ∧ Chain nxt (nxt x) xs := Iff.rfl

theorem Chain.head_eq {nxt : ι → Option ι} {head : Option ι} {xs : List ι}
    (h : Chain nxt head xs) : head = xs.head? := by
  cases xs with
  | nil => exact h
  | cons x xs => exact h.1

theorem Chain.nil_of_none {nxt : ι → Option ι} {xs : List ι}
    (h : Chain nxt none xs) : xs = [] := by
  cases xs with
  | nil => rfl
  | cons x xs => cases h.1

/-- The nodes of a list are determined by the links. -/
theorem Chain.unique {nxt : ι → Option ι} {head : Option ι}
    {xs ys : List ι} (hx : Chain nxt head xs) (hy : Chain nxt head ys) :
    xs = ys := by
  induction xs generalizing head ys with
  | nil =>
      rw [chain_nil.mp hx] at hy
      exact hy.nil_of_none.symm
  | cons x xs ih =>
      obtain ⟨rfl, hx⟩ := hx
      cases ys with
      | nil => cases chain_nil.mp hy
      | cons y ys =>
          obtain ⟨hhead, hy⟩ := hy
          cases hhead
          rw [ih hx hy]

/-- A list that ends has no cycle: a node met twice would be followed by two
sequences of different lengths. -/
theorem Chain.nodup {nxt : ι → Option ι} {head : Option ι} {xs : List ι}
    (h : Chain nxt head xs) : xs.Nodup := by
  induction xs generalizing head with
  | nil => exact List.nodup_nil
  | cons x xs ih =>
      refine List.nodup_cons.mpr ⟨?_, ih h.2⟩
      intro hmem
      obtain ⟨l, r, rfl⟩ := List.append_of_mem hmem
      obtain ⟨mid, _, htail⟩ := seg_append.mp h.2
      have heq : l ++ x :: r = r := Chain.unique h.2 htail.2
      have hlen := congrArg List.length heq
      simp at hlen
      omega

/-- Taking a node out of the sequence of a list. -/
theorem filter_ne_middle [DecidableEq ι] {l r : List ι} {p : ι} (h : (l ++ p :: r).Nodup) :
    (l ++ p :: r).filter (· ≠ p) = l ++ r := by
  rw [List.nodup_middle, List.nodup_cons] at h
  rw [List.filter_append, List.filter_cons_of_neg (by simp), ← List.filter_append]
  refine List.filter_eq_self.mpr (fun x hx => ?_)
  have hne : x ≠ p := fun heq => h.1 (heq ▸ hx)
  simpa using hne

/-- Push: a new node in front. -/
theorem Chain.push {nxt nxt' : ι → Option ι} {head : Option ι}
    {xs : List ι} {p : ι} (h : Chain nxt head xs) (hp : nxt' p = head)
    (hsame : ∀ x ∈ xs, nxt' x = nxt x) : Chain nxt' (some p) (p :: xs) := by
  refine ⟨rfl, ?_⟩
  rw [hp]
  exact h.congr hsame

/-- Splice: the last node `t` of one list is linked to the head of another. -/
theorem Chain.splice {nxt nxt' : ι → Option ι} {head head' : Option ι}
    {xs ys : List ι} {t : ι} (hx : Chain nxt head (xs ++ [t]))
    (hy : Chain nxt head' ys) (ht : nxt' t = head')
    (hxs : ∀ x ∈ xs, nxt' x = nxt x) (hys : ∀ y ∈ ys, nxt' y = nxt y) :
    Chain nxt' head (xs ++ [t] ++ ys) := by
  obtain ⟨mid, hl, hr⟩ := seg_append.mp hx
  rw [List.append_assoc]
  refine seg_append.mpr ⟨mid, hl.congr hxs, hr.1, ?_⟩
  rw [ht]
  exact hy.congr hys

/-- A node inside a list: what is left when the walk stands on it. -/
theorem Chain.at_mem {nxt : ι → Option ι} {head : Option ι} {xs ys : List ι}
    {x : ι} (h : Chain nxt head (xs ++ x :: ys)) : Chain nxt (nxt x) ys := by
  obtain ⟨mid, _, hr⟩ := seg_append.mp h
  exact hr.2

/-- Unlinking a node of a singly linked list by redirecting the link in front
of it: `nxt'` is `nxt` except that the predecessor, if there is one, points
past `p`. -/
theorem Chain.unlink {nxt nxt' : ι → Option ι} {head : Option ι}
    {l r : List ι} {p : ι} (h : Chain nxt head (l ++ p :: r))
    (hlast : ∀ q, l.getLast? = some q → nxt' q = nxt p)
    (hl : ∀ x ∈ l, l.getLast? ≠ some x → nxt' x = nxt x)
    (hr : ∀ x ∈ r, nxt' x = nxt x) :
    Chain nxt' (if l = [] then nxt p else head) (l ++ r) := by
  have htail : Chain nxt' (nxt p) r := h.at_mem.congr hr
  induction l generalizing head with
  | nil => simpa using htail
  | cons x l ih =>
      obtain ⟨rfl, h⟩ := h
      rw [if_neg (by simp)]
      refine ⟨rfl, ?_⟩
      cases l with
      | nil =>
          rw [hlast x (by simp)]
          exact htail
      | cons y l =>
          have hnod : (x :: (y :: l ++ p :: r)).Nodup :=
            Chain.nodup (show Chain nxt (some x) _ from ⟨rfl, h⟩)
          have hx : nxt' x = nxt x := by
            apply hl x (by simp)
            intro hlastx
            rw [List.getLast?_cons_cons] at hlastx
            have hxmem := List.mem_of_getLast? hlastx
            rw [List.nodup_cons] at hnod
            exact hnod.1 (List.mem_append_left _ hxmem)
          have hrec := ih h
            (fun q hq => hlast q (by rw [List.getLast?_cons_cons]; exact hq))
            (fun z hz hne => hl z (by simp [List.mem_cons.mp hz])
              (by rw [List.getLast?_cons_cons]; exact hne))
          rw [if_neg (by simp)] at hrec
          rw [hx]
          exact hrec

/-- A doubly linked segment: `before` is what the first node has as its
predecessor. -/
def DSeg (nxt prv : ι → Option ι) :
    Option ι → Option ι → List ι → Option ι → Prop
  | _, head, [], stop => head = stop
  | before, head, x :: xs, stop =>
      head = some x ∧ prv x = before ∧ DSeg nxt prv (some x) (nxt x) xs stop

/-- A null-terminated doubly linked list whose head has a null predecessor. -/
def DList (nxt prv : ι → Option ι) (head : Option ι) (xs : List ι) : Prop :=
  DSeg nxt prv none head xs none

theorem DSeg.toSeg {nxt prv : ι → Option ι} {before head stop : Option ι}
    {xs : List ι} (h : DSeg nxt prv before head xs stop) :
    Seg nxt head xs stop := by
  induction xs generalizing before head with
  | nil => exact h
  | cons x xs ih => exact ⟨h.1, ih h.2.2⟩

theorem DList.toChain {nxt prv : ι → Option ι} {head : Option ι}
    {xs : List ι} (h : DList nxt prv head xs) : Chain nxt head xs :=
  DSeg.toSeg h

theorem DList.nodup {nxt prv : ι → Option ι} {head : Option ι}
    {xs : List ι} (h : DList nxt prv head xs) : xs.Nodup :=
  h.toChain.nodup

theorem dlist_nil {nxt prv : ι → Option ι} {head : Option ι} :
    DList nxt prv head [] ↔ head = none := Iff.rfl

theorem DSeg.congr {nxt prv nxt' prv' : ι → Option ι}
    {before head stop : Option ι} {xs : List ι}
    (h : DSeg nxt prv before head xs stop)
    (hsame : ∀ x ∈ xs, nxt' x = nxt x ∧ prv' x = prv x) :
    DSeg nxt' prv' before head xs stop := by
  induction xs generalizing before head with
  | nil => exact h
  | cons x xs ih =>
      obtain ⟨hn, hp⟩ := hsame x (by simp)
      refine ⟨h.1, hp.trans h.2.1, ?_⟩
      rw [hn]
      exact ih h.2.2 (fun y hy => hsame y (by simp [hy]))

theorem DList.congr {nxt prv nxt' prv' : ι → Option ι} {head : Option ι}
    {xs : List ι} (h : DList nxt prv head xs)
    (hsame : ∀ x ∈ xs, nxt' x = nxt x ∧ prv' x = prv x) :
    DList nxt' prv' head xs :=
  DSeg.congr h hsame

theorem dseg_append {nxt prv : ι → Option ι} {before head stop : Option ι}
    {xs ys : List ι} :
    DSeg nxt prv before head (xs ++ ys) stop ↔
      ∃ mid, DSeg nxt prv before head xs mid ∧
        DSeg nxt prv (xs.getLast?.or before) mid ys stop := by
  induction xs generalizing before head with
  | nil => simp [DSeg]
  | cons x xs ih =>
      have hlast : (x :: xs).getLast?.or before = xs.getLast?.or (some x) := by
        cases xs with
        | nil => rfl
        | cons y ys => simp [List.getLast?_cons]
      simp only [List.cons_append, DSeg, ih, hlast]
      constructor
      · rintro ⟨hx, hp, mid, hl, hr⟩
        exact ⟨mid, ⟨hx, hp, hl⟩, hr⟩
      · rintro ⟨mid, ⟨hx, hp, hl⟩, hr⟩
        exact ⟨hx, hp, mid, hl, hr⟩

/-- The predecessor and successor of a node inside a list. -/
theorem DList.around {nxt prv : ι → Option ι} {head : Option ι}
    {l r : List ι} {p : ι} (h : DList nxt prv head (l ++ p :: r)) :
    prv p = l.getLast? ∧ nxt p = r.head? := by
  obtain ⟨mid, _, hr⟩ := dseg_append.mp h
  refine ⟨by simpa using hr.2.1, ?_⟩
  exact Chain.head_eq (DSeg.toSeg hr.2.2)

variable [DecidableEq ι]

private theorem dseg_relink_start {nxt prv : ι → Option ι} (nxt' prv' : ι → Option ι)
    {before head stop : Option ι} (before' : Option ι) {r : List ι}
    (h : DSeg nxt prv before head r stop) (hnod : r.Nodup)
    (hnxt : ∀ x ∈ r, nxt' x = nxt x)
    (hprv : ∀ x ∈ r, prv' x = if head = some x then before' else prv x) :
    DSeg nxt' prv' before' head r stop := by
  cases r with
  | nil => exact h
  | cons x r =>
      obtain ⟨rfl, _, htail⟩ := h
      refine ⟨rfl, by rw [hprv x (by simp), if_pos rfl], ?_⟩
      rw [hnxt x (by simp)]
      apply htail.congr
      intro y hy
      have hne : some x ≠ some y := by
        intro heq
        cases heq
        exact (List.nodup_cons.mp hnod).1 hy
      exact ⟨hnxt y (by simp [hy]), by rw [hprv y (by simp [hy]), if_neg hne]⟩

/-- Push: a new node in front, the old head pointing back at it. -/
theorem DList.push {nxt prv nxt' prv' : ι → Option ι} {head : Option ι}
    {xs : List ι} {p : ι} (h : DList nxt prv head xs)
    (hn : nxt' p = head) (hp : prv' p = none)
    (hnxt : ∀ x ∈ xs, nxt' x = nxt x)
    (hprv : ∀ x ∈ xs, prv' x = if head = some x then some p else prv x) :
    DList nxt' prv' (some p) (p :: xs) := by
  refine ⟨rfl, hp, ?_⟩
  rw [hn]
  exact dseg_relink_start nxt' prv' (some p) h h.nodup hnxt hprv

omit [DecidableEq ι] in
private theorem dseg_relink_end {nxt prv : ι → Option ι} (nxt' prv' : ι → Option ι)
    {before head stop : Option ι} (stop' : Option ι) {l : List ι}
    (h : DSeg nxt prv before head l stop)
    (hnod : l.Nodup) (hprv : ∀ x ∈ l, prv' x = prv x)
    (hlast : ∀ q, l.getLast? = some q → nxt' q = stop')
    (hnxt : ∀ x ∈ l, l.getLast? ≠ some x → nxt' x = nxt x) :
    DSeg nxt' prv' before (if l = [] then stop' else head) l stop' := by
  induction l generalizing before head with
  | nil => simp [DSeg]
  | cons x l ih =>
      obtain ⟨rfl, hp, htail⟩ := h
      rw [if_neg (by simp)]
      refine ⟨rfl, (hprv x (by simp)).trans hp, ?_⟩
      obtain ⟨hx, hnod⟩ := List.nodup_cons.mp hnod
      cases l with
      | nil => exact hlast x (by simp)
      | cons y l =>
          have hstep : nxt' x = nxt x := by
            apply hnxt x (by simp)
            intro heq
            rw [List.getLast?_cons_cons] at heq
            exact hx (List.mem_of_getLast? heq)
          have hrec := ih htail hnod (fun z hz => hprv z (by simp [List.mem_cons.mp hz]))
            (fun q hq => hlast q (by rw [List.getLast?_cons_cons]; exact hq))
            (fun z hz hne => hnxt z (by simp [List.mem_cons.mp hz])
              (by rw [List.getLast?_cons_cons]; exact hne))
          rw [if_neg (by simp)] at hrec
          rw [hstep]
          exact hrec

/-- Unlink: the neighbours of `p` are linked to each other, every other link
stays, and the head moves on when `p` was the head. -/
theorem DList.unlink {nxt prv nxt' prv' : ι → Option ι} {head : Option ι}
    {l r : List ι} {p : ι} (h : DList nxt prv head (l ++ p :: r))
    (hnxt : ∀ x ∈ l ++ r, nxt' x = if prv p = some x then nxt p else nxt x)
    (hprv : ∀ x ∈ l ++ r, prv' x = if nxt p = some x then prv p else prv x) :
    DList nxt' prv' (if prv p = none then nxt p else head) (l ++ r) := by
  have hnod := h.nodup
  obtain ⟨hbefore, hafter⟩ := h.around
  obtain ⟨mid, hl, hmid, hpp, hr⟩ := dseg_append.mp h
  have hdisj : ∀ x ∈ l, x ∉ r := by
    intro x hx hxr
    have := (List.nodup_append.mp hnod).2.2 x hx x (by simp [hxr])
    exact this rfl
  have hheadr : ∀ x ∈ l, nxt p ≠ some x := by
    intro x hx heq
    rw [hafter] at heq
    exact hdisj x hx (List.mem_of_head? heq)
  have hlastl : ∀ x ∈ r, prv p ≠ some x := by
    intro x hx heq
    rw [hbefore] at heq
    exact hdisj x (List.mem_of_getLast? heq) hx
  have hleft := dseg_relink_end nxt' prv' (nxt p) hl (List.nodup_append.mp hnod).1
    (fun x hx => by rw [hprv x (by simp [hx]), if_neg (hheadr x hx)])
    (fun q hq => by
      rw [hnxt q (by simp [List.mem_of_getLast? hq]), if_pos (hbefore.trans hq)])
    (fun x hx hne => by
      rw [hnxt x (by simp [hx]), if_neg (by rw [hbefore]; exact hne)])
  have hright := dseg_relink_start nxt' prv' (prv p) hr
    (List.nodup_cons.mp (List.nodup_append.mp hnod).2.1).2
    (fun x hx => by rw [hnxt x (by simp [hx]), if_neg (hlastl x hx)])
    (fun x hx => hprv x (by simp [hx]))
  refine dseg_append.mpr ⟨nxt p, ?_, ?_⟩
  · have hcond : (prv p = none) ↔ l = [] := by
      rw [hbefore, List.getLast?_eq_none_iff]
    simpa only [hcond] using hleft
  · rw [hbefore] at hright
    simpa using hright

/-- `q->field = v` for a pointer `q` that is checked for null first. -/
def assign {α : Type*} (field : ι → α) (q : Option ι) (v : α) : ι → α :=
  match q with
  | none => field
  | some a => Function.update field a v

theorem assign_apply {α : Type*} (field : ι → α) (q : Option ι) (v : α) (x : ι) :
    assign field q v x = if q = some x then v else field x := by
  cases q with
  | none => simp [assign]
  | some a =>
      by_cases hx : a = x
      · subst hx
        simp [assign]
      · simp [assign, hx, Function.update_of_ne (fun heq => hx heq.symm)]

/-- Move to front: a node behind the head is unlinked and pushed. -/
theorem DList.rotate {nxt prv : ι → Option ι} {head : Option ι} {l r : List ι} {p : ι}
    (h : DList nxt prv head (l ++ p :: r)) (hl : l ≠ []) :
    DList (Function.update (assign nxt (prv p) (nxt p)) p head)
      (assign (Function.update (assign prv (nxt p) (prv p)) p none) head (some p)) (some p)
      (p :: (l ++ r)) := by
  have hnod := h.nodup
  have hp : p ∉ l ++ r := (List.nodup_cons.mp (List.nodup_middle.mp hnod)).1
  have hne : ∀ x ∈ l ++ r, x ≠ p := fun x hx heq => hp (heq ▸ hx)
  have hbefore : prv p ≠ none := by
    rw [h.around.1]
    simpa using hl
  have hrest : DList (assign nxt (prv p) (nxt p)) (assign prv (nxt p) (prv p)) _ (l ++ r) :=
    h.unlink (fun x _ => assign_apply ..) (fun x _ => assign_apply ..)
  rw [if_neg hbefore] at hrest
  have hhead : head ≠ some p := by
    rw [hrest.toChain.head_eq]
    exact fun heq => hp (List.mem_of_head? heq)
  refine hrest.push (Function.update_self ..) ?_ ?_ ?_
  · rw [assign_apply, if_neg hhead, Function.update_self]
  · intro x hx
    rw [Function.update_of_ne (hne x hx)]
  · intro x hx
    rw [assign_apply, Function.update_of_ne (hne x hx)]

end Linked
