import HMalloc.PageOps
import HMalloc.Thread

/-!
The cross-thread free list of a page, one atomic operation at a time. A thread in
`heap_free_remote` reads the head, writes it into its block and tries to exchange
it, as often as it takes; the collector exchanges the whole chain for null, walks
it and splices it in front of the local list. The chain goes through the blocks
themselves, which may be handed out and freed again between the read and the
exchange. Every successful exchange is on the chain in memory or on exactly one
chain that a collector has taken.
-/

namespace HMalloc

open Bytes Linked

/-- Where a thread is in `heap_free_remote`: what it does with block `b` next. -/
inductive PushPc where
  | load (b : Nat)
  | store (b head : Nat)
  | exchange (b head : Nat)
  deriving DecidableEq

def PushPc.block : PushPc → Nat
  | .load b | .store b _ | .exchange b _ => b

/-- Where the collector is in `page_collect` or `collect_locked`. -/
inductive CollectPc where
  | idle
  | walk (list tail n : Nat)
  /-- `tail->next = pg->free`. -/
  | link (list tail n : Nat)
  /-- `pg->free = list`. -/
  | publish (list n : Nat)
  /-- `pg->used -= n`. -/
  | subtract (n : Nat)
  deriving DecidableEq

/-- A page, the threads that free blocks of it from outside, and the one that may
collect it: its owner, or the holder of the central lock if it is abandoned. The
blocks in `out` are handed out or in the hands of a thread that frees them. -/
structure Remote where
  mem : Mem
  page : PageState
  pusher : Nat → Option PushPc
  collector : CollectPc
  out : List Nat

def Remote.goto (r : Remote) (t : Nat) (pc : Option PushPc) : Remote :=
  { r with pusher := Function.update r.pusher t pc }

/-- The next operation of a thread in `heap_free_remote`. The exchange may fail for
no reason, and the thread then has the head it has found. -/
def Remote.push (r : Remote) (t : Nat) (spurious : Bool) : Remote :=
  match r.pusher t with
  | none => r
  | some (.load b) => r.goto t (some (.store b r.page.threadFree))
  | some (.store b head) =>
      { r with mem := writeWord r.mem b head }.goto t (some (.exchange b head))
  | some (.exchange b head) =>
      if r.page.threadFree = head ∧ spurious = false then
        { r with
          page := { r.page with threadFree := b }
          out := r.out.erase b }.goto t none
      else r.goto t (some (.store b r.page.threadFree))

/-- The next operation of the collector. -/
def Remote.collect (r : Remote) : Remote :=
  match r.collector with
  | .idle =>
      { r with
        page := { r.page with threadFree := 0 }
        collector := if r.page.threadFree = 0 then .idle
          else .walk r.page.threadFree r.page.threadFree 1 }
  | .walk list tail n =>
      { r with
        collector := if readWord r.mem tail = 0 then .link list tail n
          else .walk list (readWord r.mem tail) (Word.add 32 n 1) }
  | .link list tail n =>
      { r with mem := writeWord r.mem tail r.page.free, collector := .publish list n }
  | .publish list n =>
      { r with page := { r.page with free := list }, collector := .subtract n }
  | .subtract n =>
      { r with
        page := { r.page with used := Word.sub 32 r.page.used n }
        collector := .idle }

/-- What can happen next. The owner's own operations are single steps: nobody else
uses the fields they read and write. -/
inductive RemoteAct where
  /-- Thread `t` calls `heap_free_remote` with block `b`. -/
  | free (t b : Nat)
  | push (t : Nat) (spurious : Bool)
  | collect
  /-- `page_pop`. -/
  | pop
  /-- The local branch of `heap_free`. -/
  | pushLocal (b : Nat)
  /-- `page_extend` with a batch of `n` blocks. -/
  | extend (n : Nat)
  /-- A client writes byte `i` of its block `b`. -/
  | write (b i : Nat) (v : UInt8)

def Remote.exec (r : Remote) : RemoteAct → Remote
  | .free t b => r.goto t (some (.load b))
  | .push t spurious => r.push t spurious
  | .collect => r.collect
  | .pop =>
      { r with
        page := { r.page with
          free := readWord r.mem r.page.free
          used := Word.add 32 r.page.used 1 }
        out := r.page.free :: r.out }
  | .pushLocal b =>
      { r with
        mem := writeWord r.mem b r.page.free
        page := { r.page with free := b, used := Word.sub 32 r.page.used 1 }
        out := r.out.erase b }
  | .extend n =>
      let (mem, head) := extendLoop (r.page.area + r.page.reserved * r.page.blockSize)
        r.page.blockSize n r.mem r.page.free
      { r with
        mem := mem
        page := { r.page with free := head, reserved := Word.add 32 r.page.reserved n } }
  | .write b i v => { r with mem := Function.update r.mem (b + i) v }

/-- The block is handed out, and no thread is freeing it. -/
def Remote.Held (r : Remote) (b : Nat) : Prop :=
  b ∈ r.out ∧ ∀ t pc, r.pusher t = some pc → pc.block ≠ b

/-- A block is freed and written only by who holds it, and the owner does one thing
at a time. -/
def Remote.Allowed (r : Remote) : RemoteAct → Prop
  | .free t b => r.pusher t = none ∧ r.Held b
  | .push t _ => r.pusher t ≠ none
  | .collect => True
  | .pop => r.collector = .idle ∧ r.page.free ≠ 0
  | .pushLocal b => r.collector = .idle ∧ r.Held b
  | .extend n => r.collector = .idle ∧ r.page.reserved + n ≤ r.page.capacity
  | .write b i _ => r.Held b ∧ i < r.page.blockSize

/-- What has happened so far: the blocks of the successful exchanges of
`heap_free_remote`, in order; the chains that collectors have walked to the end, and
what the present one has walked; the number of successes since the last exchange of
a collector, and between that one and the one before. -/
structure RemoteLog where
  pushes : List Nat
  chains : List (List Nat)
  walked : List Nat
  since : Nat
  due : Nat

def RemoteLog.note (log : RemoteLog) (r : Remote) : RemoteAct → RemoteLog
  | .push t spurious =>
      match r.pusher t with
      | some (.exchange b head) =>
          if r.page.threadFree = head ∧ spurious = false then
            { log with pushes := log.pushes ++ [b], since := log.since + 1 }
          else log
      | _ => log
  | .collect =>
      match r.collector with
      | .idle =>
          { log with
            walked := if r.page.threadFree = 0 then [] else [r.page.threadFree]
            since := 0
            due := log.since }
      | .walk _ tail _ =>
          if readWord r.mem tail = 0 then
            { log with chains := log.chains ++ [log.walked], walked := [] }
          else { log with walked := log.walked ++ [readWord r.mem tail] }
      | _ => log
  | _ => log

/-- A page in service that nobody is working on. -/
structure Remote.Start (r : Remote) (g : PageGhost) : Prop where
  service : InService r.mem r.page g
  pos : 0 < r.page.area
  fits : r.page.area + pageSize ≤ 2 ^ 64
  pusher : ∀ t, r.pusher t = none
  collector : r.collector = .idle
  out : r.out = g.out

/-- The blocks on the remote list at the start count as pushed. -/
def RemoteLog.start (g : PageGhost) : RemoteLog where
  pushes := g.remote.reverse
  chains := []
  walked := []
  since := g.remote.length
  due := 0

/-- The states that any number of threads can reach, with what has happened. -/
inductive RemoteRun (r₀ : Remote) (log₀ : RemoteLog) : Remote → RemoteLog → Prop where
  | refl : RemoteRun r₀ log₀ r₀ log₀
  | step {r : Remote} {log : RemoteLog} {act : RemoteAct} (h : RemoteRun r₀ log₀ r log)
      (hok : r.Allowed act) : RemoteRun r₀ log₀ (r.exec act) (log.note r act)

/-- The page once the collector has subtracted its count. -/
def CollectPc.settle (v : PageState) : CollectPc → PageState
  | .subtract n => { v with used := Word.sub 32 v.used n }
  | _ => v

/-- The blocks of a chain that is still being walked. -/
def CollectPc.unwalked (cur : List Nat) : CollectPc → List Nat
  | .walk _ _ _ => cur
  | _ => []

/-- The collector has taken the chain `cur`. -/
def Collecting (r : Remote) (log : RemoteLog) (cur : List Nat) : Prop :=
  match r.collector with
  | .idle => cur = []
  | .walk list tail n => Chain (link r.mem) (ptr list) cur ∧ log.due = cur.length ∧
      ∃ before after, cur = before ++ tail :: after ∧ log.walked = before ++ [tail] ∧
        n = before.length + 1
  | .link list tail n => Chain (link r.mem) (ptr list) cur ∧ log.due = n ∧ n = cur.length ∧
      log.chains.getLast? = some cur ∧ ∃ before, cur = before ++ [tail]
  | .publish list n => Seg (link r.mem) (ptr list) cur (ptr r.page.free) ∧ log.due = n ∧
      n = cur.length ∧ log.chains.getLast? = some cur
  | .subtract n => cur = [] ∧ log.due = n ∧ ∃ chain, log.chains.getLast? = some chain ∧
      n = chain.length

/-- The blocks of the page are on the local list, on the chain a collector has taken,
on the remote list, or out. -/
structure RemoteInv (r : Remote) (log : RemoteLog) (free cur stack : List Nat) : Prop where
  pos : 0 < r.page.area
  fits : r.page.area + pageSize ≤ 2 ^ 64
  service : InService r.mem (r.collector.settle r.page) ⟨free, stack, cur ++ r.out, .limbo⟩
  collecting : Collecting r log cur
  pushing : ∀ t pc, r.pusher t = some pc → pc.block ∈ r.out
  heads : ∀ t b head, r.pusher t = some (.store b head) → head < 2 ^ 64
  linked : ∀ t b head, r.pusher t = some (.exchange b head) → readWord r.mem b = head
  apart : ∀ t u pc pc', r.pusher t = some pc → r.pusher u = some pc' → pc.block = pc'.block → t = u
  pushes : log.pushes =
    log.chains.flatMap List.reverse ++ ((r.collector.unwalked cur).reverse ++ stack.reverse)
  since : log.since = stack.length
  chains : ∀ chain ∈ log.chains, chain.Nodup

section Steps

variable {r : Remote} {log : RemoteLog} {free cur stack : List Nat} {t b : Nat}

@[simp] theorem CollectPc.settle_area (v : PageState) (pc : CollectPc) :
    (pc.settle v).area = v.area := by
  cases pc <;> rfl

@[simp] theorem CollectPc.settle_blockSize (v : PageState) (pc : CollectPc) :
    (pc.settle v).blockSize = v.blockSize := by
  cases pc <;> rfl

@[simp] theorem CollectPc.settle_threadFree (v : PageState) (pc : CollectPc) :
    (pc.settle v).threadFree = v.threadFree := by
  cases pc <;> rfl

theorem CollectPc.settle_setThreadFree (v : PageState) (pc : CollectPc) (head : Nat) :
    pc.settle { v with threadFree := head } = { pc.settle v with threadFree := head } := by
  cases pc <;> rfl

/-- Every place a block can be in. -/
def Placed (r : Remote) (free cur stack : List Nat) (a : Nat) : Prop :=
  a ∈ free ∨ a ∈ stack ∨ a ∈ cur ++ r.out

theorem RemoteInv.start {g : PageGhost} (h : r.Start g) :
    RemoteInv r (RemoteLog.start g) g.free [] g.remote where
  pos := h.pos
  fits := h.fits
  service := by
    obtain ⟨hs, _, _, _, hcollector, hout⟩ := h
    rw [hcollector, hout]
    exact ⟨hs.cls, hs.blockSize, hs.capacity, hs.reserved, hs.blocks, hs.used, hs.free, hs.remote,
      hs.inUse⟩
  collecting := by
    unfold Collecting
    rw [h.collector]
  pushing := fun t pc hpc => by rw [h.pusher t] at hpc; cases hpc
  heads := fun t b head hpc => by rw [h.pusher t] at hpc; cases hpc
  linked := fun t b head hpc => by rw [h.pusher t] at hpc; cases hpc
  apart := fun t u pc pc' hpc => by rw [h.pusher t] at hpc; cases hpc
  pushes := by
    rw [h.collector]
    rfl
  since := rfl
  chains := fun chain hc => by cases hc

/-- No block is in two places. -/
theorem RemoteInv.nodup (h : RemoteInv r log free cur stack) :
    (free ++ stack ++ (cur ++ r.out)).Nodup := h.service.nodup

/-- A block that is out or taken is on neither list. -/
theorem RemoteInv.not_listed (h : RemoteInv r log free cur stack) (hb : b ∈ cur ++ r.out) :
    b ∉ free ∧ b ∉ stack :=
  ⟨fun hf => h.service.free_ne_out (Or.inl hf) hb rfl,
    fun hs => h.service.free_ne_out (Or.inr hs) hb rfl⟩

theorem RemoteInv.out_not_taken (h : RemoteInv r log free cur stack) (hb : b ∈ r.out) :
    b ∉ cur := by
  intro hc
  have hnodup := (List.nodup_append.mp h.nodup).2.1
  exact (List.nodup_append.mp hnodup).2.2 b hc b hb rfl

/-- Memory that is written inside one block has the link words of the others. -/
theorem RemoteInv.frame (h : RemoteInv r log free cur stack) {mem' : Mem} (hb : b ∈ cur ++ r.out)
    (hmem : ∀ x, x < b ∨ b + r.page.blockSize ≤ x → mem' x = r.mem x) {a : Nat}
    (ha : Placed r free cur stack a) (hne : a ≠ b) :
    ∀ x, a ≤ x → x < a + 8 → mem' x = r.mem x := by
  obtain ⟨i, _, rfl⟩ := h.service.exists_slot (Or.inr (Or.inr hb))
  obtain ⟨j, _, rfl⟩ := h.service.exists_slot ha
  have hd := h.service.slots_disjoint hne
  have hsize := h.service.block_size.2.1
  simp only [CollectPc.settle_blockSize] at hd hsize
  intro x hlo hhi
  exact hmem x (by omega)

/-- The lists of the page after such a write. -/
theorem RemoteInv.service_write (h : RemoteInv r log free cur stack) {mem' : Mem}
    (hb : b ∈ cur ++ r.out) (hmem : ∀ x, x < b ∨ b + r.page.blockSize ≤ x → mem' x = r.mem x) :
    InService mem' (r.collector.settle r.page) ⟨free, stack, cur ++ r.out, .limbo⟩ := by
  refine h.service.congr (fun a ha => ?_)
  obtain ⟨hfree, hstack⟩ := h.not_listed hb
  refine h.frame hb hmem (ha.imp_right Or.inl) ?_
  rintro rfl
  exact ha.elim hfree hstack

/-- Who holds a block writes into it. -/
theorem RemoteInv.write (h : RemoteInv r log free cur stack) {mem' : Mem} (hb : b ∈ r.out)
    (hmem : ∀ x, x < b ∨ b + r.page.blockSize ≤ x → mem' x = r.mem x)
    (hfree : ∀ t head, r.pusher t ≠ some (.exchange b head)) :
    RemoteInv { r with mem := mem' } log free cur stack := by
  have hout : b ∈ cur ++ r.out := List.mem_append_right _ hb
  have hlinks : ∀ a ∈ cur, link mem' a = link r.mem a := by
    intro a ha
    refine link_congr (h.frame hout hmem (Or.inr (Or.inr (List.mem_append_left _ ha))) ?_)
    rintro rfl
    exact h.out_not_taken hb ha
  refine { h with service := h.service_write hout hmem, collecting := ?_, linked := ?_ }
  · have hc := h.collecting
    unfold Collecting at hc ⊢
    cases hpc : r.collector with
    | idle | subtract n =>
        rw [hpc] at hc
        exact hc
    | walk list tail n | link list tail n =>
        rw [hpc] at hc
        exact ⟨hc.1.congr hlinks, hc.2⟩
    | publish list n =>
        rw [hpc] at hc
        exact ⟨Seg.congr hc.1 hlinks, hc.2⟩
  · intro t a head hpc
    rw [← h.linked t a head hpc]
    have ha : a ∈ r.out := h.pushing t _ hpc
    refine readWord_congr (h.frame hout hmem (Or.inr (Or.inr (List.mem_append_right _ ha))) ?_)
    rintro rfl
    exact hfree t head hpc

/-- A thread goes on in `heap_free_remote`, with a block that no other thread has. -/
theorem RemoteInv.goto (h : RemoteInv r log free cur stack) {pc : Option PushPc}
    (hblock : ∀ p, pc = some p → p.block ∈ r.out ∧
      ∀ u p', u ≠ t → r.pusher u = some p' → p'.block ≠ p.block)
    (hhead : ∀ b head, pc = some (.store b head) → head < 2 ^ 64)
    (hlink : ∀ b head, pc = some (.exchange b head) → readWord r.mem b = head) :
    RemoteInv (r.goto t pc) log free cur stack := by
  have hother : ∀ {u}, u ≠ t → (r.goto t pc).pusher u = r.pusher u := fun hu =>
    Function.update_of_ne hu ..
  have hself : (r.goto t pc).pusher t = pc := Function.update_self ..
  refine { h with pushing := ?_, heads := ?_, linked := ?_, apart := ?_ }
  · intro u p hp
    by_cases hu : u = t
    · subst hu
      rw [hself] at hp
      exact (hblock p hp).1
    · rw [hother hu] at hp
      exact h.pushing u p hp
  · intro u b head hp
    by_cases hu : u = t
    · subst hu
      rw [hself] at hp
      exact hhead b head hp
    · rw [hother hu] at hp
      exact h.heads u b head hp
  · intro u b head hp
    by_cases hu : u = t
    · subst hu
      rw [hself] at hp
      exact hlink b head hp
    · rw [hother hu] at hp
      exact h.linked u b head hp
  · intro u w p p' hp hp' heq
    by_cases hu : u = t
    · subst hu
      by_cases hw : w = u
      · exact hw.symm
      · rw [hself] at hp
        rw [hother hw] at hp'
        exact absurd heq.symm ((hblock p hp).2 w p' hw hp')
    · rw [hother hu] at hp
      by_cases hw : w = t
      · subst hw
        rw [hself] at hp'
        exact absurd heq ((hblock p' hp').2 u p hu hp)
      · rw [hother hw] at hp'
        exact h.apart u w p p' hp hp' heq

/-- The head of the remote list is a word. -/
theorem RemoteInv.threadFree_lt (h : RemoteInv r log free cur stack) :
    r.page.threadFree < 2 ^ 64 := by
  have hfits : (r.collector.settle r.page).area + pageSize ≤ 2 ^ 64 := by
    rw [CollectPc.settle_area]
    exact h.fits
  have hchain := h.service.remote
  rw [CollectPc.settle_threadFree] at hchain
  exact chain_head_lt hchain (fun a ha => h.service.block_lt hfits (Or.inr (Or.inl ha)))

/-- The thread has read the head. -/
theorem RemoteInv.load (h : RemoteInv r log free cur stack) {p : PushPc}
    (hpc : r.pusher t = some p) :
    RemoteInv (r.goto t (some (.store p.block r.page.threadFree))) log free cur stack := by
  refine h.goto ?_ ?_ (fun b head heq => by cases heq)
  · intro _ heq
    cases heq
    exact ⟨h.pushing t p hpc, fun u p' hu hp' heq => hu (h.apart u t p' p hp' hpc heq)⟩
  · rintro b head heq
    cases heq
    exact h.threadFree_lt

/-- `b->next = head`. -/
theorem RemoteInv.store (h : RemoteInv r log free cur stack) {head : Nat}
    (hpc : r.pusher t = some (.store b head)) :
    RemoteInv ({ r with mem := writeWord r.mem b head }.goto t (some (.exchange b head))) log free
      cur stack := by
  have hb : b ∈ r.out := h.pushing t _ hpc
  have hsize := h.service.block_size.2.1
  rw [CollectPc.settle_blockSize] at hsize
  have hwrite : RemoteInv { r with mem := writeWord r.mem b head } log free cur stack := by
    refine h.write hb (fun x hx => writeWord_outside _ _ _ _ (by omega)) (fun u head' hu => ?_)
    obtain rfl := h.apart u t _ _ hu hpc rfl
    rw [hu] at hpc
    cases hpc
  refine hwrite.goto ?_ (fun b head heq => by cases heq) ?_
  · intro _ heq
    cases heq
    exact ⟨hb, fun u p' hu hp' heq => hu (h.apart u t p' _ hp' hpc heq)⟩
  · rintro b' head' heq
    cases heq
    exact readWord_writeWord _ _ _ (h.heads t b head hpc)

/-- The exchange succeeds. The head may have been collected, handed out and freed
again since it was read: the block is linked to it all the same. -/
theorem RemoteInv.exchange (h : RemoteInv r log free cur stack) {head : Nat}
    (hpc : r.pusher t = some (.exchange b head)) (hhead : r.page.threadFree = head) :
    RemoteInv ({ r with
        page := { r.page with threadFree := b }
        out := r.out.erase b }.goto t none)
      { log with pushes := log.pushes ++ [b], since := log.since + 1 } free cur (b :: stack) := by
  have hb : b ∈ r.out := h.pushing t _ hpc
  have hgone : ∀ u p, (r.goto t none).pusher u = some p → u ≠ t ∧ r.pusher u = some p := by
    intro u p hp
    by_cases hu : u = t
    · subst hu
      rw [show (r.goto u none).pusher u = none from Function.update_self ..] at hp
      cases hp
    · rw [show (r.goto t none).pusher u = r.pusher u from Function.update_of_ne hu ..] at hp
      exact ⟨hu, hp⟩
  have hpush := h.service.remotePush (by rw [CollectPc.settle_area]; exact h.pos)
    (List.mem_append_right cur hb)
    (by rw [CollectPc.settle_threadFree, hhead]; exact h.linked t b head hpc)
  rw [← CollectPc.settle_setThreadFree] at hpush
  refine ⟨h.pos, h.fits, ?_, ?_, ?_, ?_, ?_, ?_, ?_, ?_, h.chains⟩
  · rw [List.erase_append_right _ (h.out_not_taken hb)] at hpush
    exact hpush
  · exact h.collecting
  · intro u p hp
    obtain ⟨hu, hp⟩ := hgone u p hp
    refine (List.mem_erase_of_ne (fun heq => hu ?_)).mpr (h.pushing u p hp)
    exact h.apart u t p _ hp hpc heq
  · intro u a head' hp
    exact h.heads u a head' (hgone u _ hp).2
  · intro u a head' hp
    exact h.linked u a head' (hgone u _ hp).2
  · intro u w p p' hp hp'
    exact h.apart u w p p' (hgone u p hp).2 (hgone w p' hp').2
  · change log.pushes ++ [b] = log.chains.flatMap List.reverse ++
      ((r.collector.unwalked cur).reverse ++ (b :: stack).reverse)
    rw [h.pushes, List.reverse_cons]
    simp only [List.append_assoc]
  · change log.since + 1 = (b :: stack).length
    rw [h.since, List.length_cons]

/-- A step of a thread in `heap_free_remote`. -/
theorem RemoteInv.push (h : RemoteInv r log free cur stack) (spurious : Bool)
    (hbusy : r.pusher t ≠ none) :
    ∃ stack', RemoteInv (r.push t spurious) (log.note r (.push t spurious)) free cur stack' := by
  obtain ⟨p, hpc⟩ := Option.ne_none_iff_exists'.mp hbusy
  unfold Remote.push RemoteLog.note
  simp only [hpc]
  cases p with
  | load b => exact ⟨stack, h.load hpc⟩
  | store b head => exact ⟨stack, h.store hpc⟩
  | exchange b head =>
      by_cases hswap : r.page.threadFree = head ∧ spurious = false
      · simp only [if_pos hswap]
        exact ⟨b :: stack, h.exchange hpc hswap.1⟩
      · simp only [if_neg hswap]
        exact ⟨stack, h.load hpc⟩

/-- What holds at program counter `pc` of the collector. -/
theorem RemoteInv.at_pc {pc : CollectPc} (h : RemoteInv r log free cur stack)
    (hpc : r.collector = pc) : Collecting { r with collector := pc } log cur ∧
      InService r.mem (pc.settle r.page) ⟨free, stack, cur ++ r.out, .limbo⟩ ∧
      log.pushes =
        log.chains.flatMap List.reverse ++ ((pc.unwalked cur).reverse ++ stack.reverse) := by
  subst hpc
  exact ⟨h.collecting, h.service, h.pushes⟩

/-- The collector takes the chain. -/
theorem RemoteInv.take (h : RemoteInv r log free cur stack) (hidle : r.collector = .idle) :
    ∃ cur' stack', RemoteInv r.collect (log.note r .collect) free cur' stack' := by
  obtain ⟨hcur, hs, hpushes⟩ := h.at_pc hidle
  obtain rfl : cur = [] := hcur
  have hchain : Chain (link r.mem) (ptr r.page.threadFree) stack := hs.remote
  have htaken : InService r.mem { r.page with threadFree := 0 }
      ⟨free, [], stack ++ r.out, .limbo⟩ := by
    refine { hs with blocks := ?_, used := ?_, remote := ptr_zero }
    · refine List.Perm.trans ?_ hs.blocks
      simp
    · have hused : r.page.used = r.out.length + stack.length := hs.used
      simp only [List.length_append, List.length_nil]
      omega
  refine ⟨stack, [], ?_⟩
  cases stack with
  | nil =>
      have hnull : r.page.threadFree = 0 := ptr_eq_none.mp hchain
      unfold Remote.collect RemoteLog.note
      simp only [hidle, if_pos hnull]
      exact ⟨h.pos, h.fits, htaken, rfl, h.pushing, h.heads, h.linked, h.apart, hpushes, rfl,
        h.chains⟩
  | cons head rest =>
      obtain ⟨heq, hne⟩ := ptr_eq_some.mp hchain.1
      have hbusy : r.page.threadFree ≠ 0 := by
        rw [heq]
        exact hne
      unfold Remote.collect RemoteLog.note
      simp only [hidle, if_neg hbusy]
      refine ⟨h.pos, h.fits, htaken, ?_, h.pushing, h.heads, h.linked, h.apart, ?_, rfl, h.chains⟩
      · exact ⟨hchain, h.since, [], rest, by rw [heq]; rfl, rfl, rfl⟩
      · simpa [CollectPc.unwalked] using hpushes

/-- One round of the walk. -/
theorem RemoteInv.walk (h : RemoteInv r log free cur stack) {list tail n : Nat}
    (hpc : r.collector = .walk list tail n) :
    RemoteInv r.collect (log.note r .collect) free cur stack := by
  obtain ⟨⟨hchain, hdue, before, after, hcur, hwalked, hn⟩, hs, hpushes⟩ := h.at_pc hpc
  have htail : link r.mem tail = after.head? := by
    rw [hcur] at hchain
    exact hchain.at_mem.head_eq
  unfold Remote.collect RemoteLog.note
  simp only [hpc]
  cases after with
  | nil =>
      have hnull : readWord r.mem tail = 0 := ptr_eq_none.mp htail
      simp only [if_pos hnull]
      have hall : cur = log.walked := by rw [hcur, hwalked]
      refine ⟨h.pos, h.fits, hs, ?_, h.pushing, h.heads, h.linked, h.apart, ?_, h.since, ?_⟩
      · refine ⟨hchain, ?_, ?_, ?_, before, hcur⟩
        · rw [hdue, hcur, hn]
          simp
        · rw [hcur, hn]
          simp
        · rw [hall]
          exact List.getLast?_concat
      · change log.pushes = (log.chains ++ [log.walked]).flatMap List.reverse ++
          ([] ++ stack.reverse)
        rw [hpushes, ← hall]
        simp [CollectPc.unwalked]
      · intro chain hmem
        rcases List.mem_append.mp hmem with hold | hnew
        · exact h.chains chain hold
        · rw [List.mem_singleton.mp hnew, ← hall]
          exact hchain.nodup
  | cons next after =>
      obtain ⟨heq, hne⟩ := ptr_eq_some.mp htail
      have hmore : readWord r.mem tail ≠ 0 := by
        rw [heq]
        exact hne
      simp only [if_neg hmore]
      refine ⟨h.pos, h.fits, hs, ?_, h.pushing, h.heads, h.linked, h.apart, hpushes, h.since,
        h.chains⟩
      refine ⟨hchain, hdue, before ++ [tail], after, ?_, ?_, ?_⟩
      · rw [hcur, heq]
        simp
      · change log.walked ++ [readWord r.mem tail] = _
        rw [hwalked]
      · have hlen := h.service.used_lt
        have hused := h.service.used
        rw [hpc] at hlen hused
        have hcount : cur.length = before.length + (after.length + 1 + 1) := by
          rw [hcur]
          simp
        simp only [CollectPc.settle, List.length_append] at hlen hused
        rw [Word.add_eq (by omega), hn]
        simp

/-- `tail->next = pg->free`. -/
theorem RemoteInv.link (h : RemoteInv r log free cur stack) {list tail n : Nat}
    (hpc : r.collector = .link list tail n) :
    RemoteInv r.collect (log.note r .collect) free cur stack := by
  obtain ⟨⟨hchain, hdue, hn, hlast, before, hcur⟩, _, hpushes⟩ := h.at_pc hpc
  have htail : tail ∈ cur := by simp [hcur]
  have hout : tail ∈ cur ++ r.out := List.mem_append_left _ htail
  have hsize := h.service.block_size.2.1
  rw [CollectPc.settle_blockSize] at hsize
  have hmem : ∀ x, x < tail ∨ tail + r.page.blockSize ≤ x →
      writeWord r.mem tail r.page.free x = r.mem x :=
    fun x hx => writeWord_outside _ _ _ _ (by omega)
  have hs := h.service_write hout hmem
  rw [hpc] at hs
  have hfree : r.page.free < 2 ^ 64 :=
    chain_head_lt hs.free (fun a ha => hs.block_lt h.fits (Or.inl ha))
  unfold Remote.collect RemoteLog.note
  simp only [hpc]
  refine ⟨h.pos, h.fits, hs, ⟨?_, hdue, hn, hlast⟩, h.pushing, h.heads, ?_, h.apart, hpushes,
    h.since, h.chains⟩
  · rw [hcur] at hchain ⊢
    obtain ⟨mid, hbefore, hend⟩ := seg_append.mp hchain
    refine seg_append.mpr ⟨mid, hbefore.congr (fun a ha => link_congr ?_), hend.1, ?_⟩
    · refine h.frame hout hmem (Or.inr (Or.inr (List.mem_append_left _ ?_))) ?_
      · rw [hcur]
        exact List.mem_append_left _ ha
      · rintro rfl
        exact (List.nodup_append.mp hchain.nodup).2.2 a ha a (List.mem_singleton_self a) rfl
    · exact link_writeWord _ _ _ hfree
  · intro u b head hp
    rw [← h.linked u b head hp]
    have hb : b ∈ r.out := h.pushing u _ hp
    refine readWord_congr (h.frame hout hmem (Or.inr (Or.inr (List.mem_append_right _ hb))) ?_)
    rintro rfl
    exact h.out_not_taken hb htail

/-- `pg->free = list`. -/
theorem RemoteInv.publish (h : RemoteInv r log free cur stack) {list n : Nat}
    (hpc : r.collector = .publish list n) :
    RemoteInv r.collect (log.note r .collect) (cur ++ free) [] stack := by
  obtain ⟨⟨hseg, hdue, hn, hlast⟩, hs, hpushes⟩ := h.at_pc hpc
  unfold Remote.collect RemoteLog.note
  simp only [hpc]
  refine ⟨h.pos, h.fits, ?_, ⟨rfl, hdue, cur, hlast, hn⟩, h.pushing, h.heads, h.linked, h.apart,
    hpushes, h.since, h.chains⟩
  refine { hs with blocks := ?_, used := ?_, free := ?_ }
  · refine List.Perm.trans ?_ hs.blocks
    simpa using (@List.perm_append_comm _ cur (free ++ stack)).append_right r.out
  · have hused : r.page.used = (cur ++ r.out).length + stack.length := hs.used
    have hle : r.page.used ≤ 4096 := hs.used_lt
    rw [List.length_append] at hused
    change Word.sub 32 r.page.used n = r.out.length + stack.length
    rw [Word.sub_eq (by omega) (by omega)]
    omega
  · exact seg_append.mpr ⟨_, hseg, hs.free⟩

theorem RemoteInv.subtract (h : RemoteInv r log free cur stack) {n : Nat}
    (hpc : r.collector = .subtract n) :
    RemoteInv r.collect (log.note r .collect) free [] stack := by
  obtain ⟨⟨rfl, _⟩, hs, hpushes⟩ := h.at_pc hpc
  unfold Remote.collect RemoteLog.note
  simp only [hpc]
  exact ⟨h.pos, h.fits, hs, rfl, h.pushing, h.heads, h.linked, h.apart, hpushes, h.since, h.chains⟩

/-- A step of the collector. -/
theorem RemoteInv.collect (h : RemoteInv r log free cur stack) :
    ∃ free' cur' stack', RemoteInv r.collect (log.note r .collect) free' cur' stack' := by
  cases hpc : r.collector with
  | idle => exact ⟨free, h.take hpc⟩
  | walk list tail n => exact ⟨free, cur, stack, h.walk hpc⟩
  | link list tail n => exact ⟨free, cur, stack, h.link hpc⟩
  | publish list n => exact ⟨cur ++ free, [], stack, h.publish hpc⟩
  | subtract n => exact ⟨free, [], stack, h.subtract hpc⟩

/-- The page while the collector is idle. -/
theorem RemoteInv.at_rest (h : RemoteInv r log free cur stack) (hidle : r.collector = .idle) :
    cur = [] ∧ InService r.mem r.page ⟨free, stack, r.out, .limbo⟩ := by
  obtain ⟨hcur, hs, _⟩ := h.at_pc hidle
  obtain rfl : cur = [] := hcur
  exact ⟨rfl, hs⟩

/-- The owner does something while the collector is idle: blocks go from the local
list to those that are out, or back, or new ones come. -/
theorem RemoteInv.own (h : RemoteInv r log free cur stack) (hidle : r.collector = .idle)
    {mem' : Mem} {page' : PageState} {out' free' : List Nat}
    (hs : InService mem' page' ⟨free', stack, out', .limbo⟩) (harea : page'.area = r.page.area)
    (hout : ∀ t pc, r.pusher t = some pc → pc.block ∈ out')
    (hmem : ∀ t b head, r.pusher t = some (.exchange b head) → readWord mem' b = readWord r.mem b) :
    RemoteInv { r with mem := mem', page := page', out := out' } log free' [] stack := by
  obtain ⟨rfl, _⟩ := h.at_rest hidle
  refine ⟨?_, ?_, ?_, ?_, hout, h.heads, ?_, h.apart, ?_, h.since, h.chains⟩
  · change 0 < page'.area
    rw [harea]
    exact h.pos
  · change page'.area + pageSize ≤ 2 ^ 64
    rw [harea]
    exact h.fits
  · rw [hidle]
    exact hs
  · unfold Collecting
    rw [hidle]
  · intro t b head hp
    exact (hmem t b head hp).trans (h.linked t b head hp)
  · exact h.pushes

/-- Every step keeps the blocks in their places. -/
theorem RemoteInv.step (h : RemoteInv r log free cur stack) {act : RemoteAct}
    (hok : r.Allowed act) :
    ∃ free' cur' stack', RemoteInv (r.exec act) (log.note r act) free' cur' stack' := by
  cases act with
  | free t b =>
      obtain ⟨_, hb, hheld⟩ := hok
      refine ⟨free, cur, stack, h.goto ?_ (fun b head heq => by cases heq)
        (fun b head heq => by cases heq)⟩
      intro _ heq
      cases heq
      exact ⟨hb, fun u p' _ hp' => hheld u p' hp'⟩
  | push t spurious =>
      obtain ⟨stack', hpush⟩ := h.push spurious hok
      exact ⟨free, cur, stack', hpush⟩
  | collect => exact h.collect
  | pop =>
      obtain ⟨hidle, hne⟩ := hok
      obtain ⟨rfl, hs⟩ := h.at_rest hidle
      cases free with
      | nil => exact absurd (ptr_eq_none.mp hs.free) hne
      | cons b rest =>
          obtain ⟨hb, _⟩ := ptr_eq_some.mp hs.free.1
          have hpop := hs.pop rfl
          rw [← hb] at hpop
          refine ⟨rest, [], stack, h.own hidle hpop rfl ?_ (fun t b head _ => rfl)⟩
          exact fun t pc hp => List.mem_cons_of_mem _ (h.pushing t pc hp)
  | pushLocal b =>
      obtain ⟨hidle, hb, hheld⟩ := hok
      obtain ⟨rfl, hs⟩ := h.at_rest hidle
      have hsize := hs.block_size.2.1
      refine ⟨b :: free, [], stack, h.own hidle (hs.push h.pos h.fits hb) rfl ?_ ?_⟩
      · exact fun t pc hp => (List.mem_erase_of_ne (hheld t pc hp)).mpr (h.pushing t pc hp)
      · intro t a head hp
        have ha : a ∈ r.out := h.pushing t _ hp
        refine readWord_writeWord_disjoint _ _ _ _ ?_
        exact hs.links_disjoint (Or.inr (Or.inr ha)) (Or.inr (Or.inr hb)) (hheld t _ hp)
  | extend n =>
      obtain ⟨hidle, hn⟩ := hok
      obtain ⟨rfl, hs⟩ := h.at_rest hidle
      obtain ⟨mem', head, hloop, hext, hsame⟩ := hs.extend h.pos h.fits hn
      have hadd : Word.add 32 r.page.reserved n = r.page.reserved + n :=
        Word.add_eq (by have hcap := hs.capacity_le; omega)
      rw [← hadd] at hext
      -- The fresh blocks lie behind all blocks carved before.
      have hwords : ∀ t a head, r.pusher t = some (.exchange a head) →
          readWord mem' a = readWord r.mem a := by
        intro t a head hp
        obtain ⟨i, hi, heq⟩ := hs.mem_blocks.mp (Or.inr (Or.inr (h.pushing t _ hp)))
        have hbelow : (i + 1) * r.page.blockSize ≤ r.page.reserved * r.page.blockSize :=
          Nat.mul_le_mul_right _ hi
        have hsize := hs.block_size.2.1
        rw [Nat.add_mul] at hbelow
        refine readWord_congr (fun x hlo hhi => hsame x (Or.inl ?_))
        simp only [PushPc.block, PageState.block] at heq ⊢
        omega
      have hnext := h.own hidle hext rfl h.pushing hwords
      refine ⟨(List.range n).map (fun i => r.page.block (r.page.reserved + i)) ++ free, [], stack,
        ?_⟩
      simp only [Remote.exec, hloop]
      exact hnext
  | write b i v =>
      obtain ⟨⟨hb, hheld⟩, hi⟩ := hok
      refine ⟨free, cur, stack, h.write hb (fun x hx => Function.update_of_ne (by omega) ..) ?_⟩
      exact fun t head hp => hheld t _ hp rfl

end Steps

theorem RemoteRun.inv {r₀ r : Remote} {g : PageGhost} {log : RemoteLog} (h₀ : r₀.Start g)
    (h : RemoteRun r₀ (.start g) r log) : ∃ free cur stack, RemoteInv r log free cur stack := by
  induction h with
  | refl => exact ⟨_, _, _, RemoteInv.start h₀⟩
  | step _ hok ih =>
      obtain ⟨free, cur, stack, hinv⟩ := ih
      exact hinv.step hok

section Alone

variable {s s' : Store} {pg : PageId} {out : List Nat}

/-- A page of the store that nobody is working on. -/
def Store.remote (s : Store) (pg : PageId) (out : List Nat) : Remote where
  mem := s.os.mem
  page := s.page.row pg
  pusher := fun _ => none
  collector := .idle
  out := out

/-- The loop of `page_collect` in steps. -/
theorem walkTail_steps {r : Remote} {fuel list start n₀ tail n : Nat}
    (h : walkTail r.mem fuel start n₀ = some (tail, n)) (hpc : r.collector = .walk list start n₀) :
    ∃ k, Remote.collect^[k] r = { r with collector := .link list tail n } := by
  induction fuel generalizing r start n₀ with
  | zero => cases h
  | succ fuel ih =>
      have hstep : r.collect = { r with
          collector := if readWord r.mem start = 0 then .link list start n₀
            else .walk list (readWord r.mem start) (Word.add 32 n₀ 1) } := by
        unfold Remote.collect
        rw [hpc]
      unfold walkTail at h
      split at h
      · rename_i hnull
        cases h
        refine ⟨1, ?_⟩
        rw [Function.iterate_one, hstep, if_pos hnull]
      · rename_i hmore
        rw [if_neg hmore] at hstep
        obtain ⟨k, hk⟩ := ih (r := r.collect) (by rw [hstep]; exact h) (by rw [hstep])
        refine ⟨k + 1, ?_⟩
        rw [Function.iterate_succ_apply, hk, hstep]

/-- `page_collect` of the system is what the steps of the collector come to when
nobody else takes one. -/
theorem pageCollect_alone (h : pageCollect s pg = some s') :
    ∃ k, Remote.collect^[k] (s.remote pg out) = s'.remote pg out := by
  unfold pageCollect at h
  dsimp only at h
  split at h
  · rename_i hnull
    cases h
    refine ⟨1, ?_⟩
    simp [Remote.collect, Store.remote, Pages.row, hnull]
  · rename_i hbusy
    simp only [Option.bind_eq_bind, Option.bind_eq_some_iff] at h
    obtain ⟨⟨tail, n⟩, hwalk, h⟩ := h
    cases h
    have htake : (s.remote pg out).collect = { s.remote pg out with
        page := { s.page.row pg with threadFree := 0 }
        collector := .walk (s.page.threadFree pg) (s.page.threadFree pg) 1 } := by
      simp [Remote.collect, Store.remote, Pages.row, hbusy]
    have hpc : (s.remote pg out).collect.collector =
        .walk (s.page.threadFree pg) (s.page.threadFree pg) 1 := by rw [htake]
    obtain ⟨k, hk⟩ := walkTail_steps (by rw [htake]; exact hwalk) hpc
    refine ⟨3 + (k + 1), ?_⟩
    rw [Function.iterate_add_apply, Function.iterate_succ_apply _ k, hk, htake]
    simp [Remote.collect, Store.remote, Pages.row]

/-- A thread of the system in `heap_free_remote` with head `head`. -/
def Store.pushing (s : Store) (t p head : Nat) (out : List Nat) : Remote :=
  (s.remote (pageOf p) out).goto t (some (.exchange p head))

/-- The first step of a remote `hm_free` of the system is the load of the head and the
store of the link. -/
theorem stepFree_alone {t p result : Nat} {th th' : Thread}
    (h : stepFree s th p result = some (s', th')) (hlarge : isLarge s.os.mem p = false)
    (hremote : s.page.owner (pageOf p) ≠ Owner.ofHeap th.heap) :
    [.free t p, .push t false, .push t false].foldl Remote.exec (s.remote (pageOf p) out) =
      s'.pushing t p (s.page.threadFree (pageOf p)) out := by
  unfold stepFree at h
  simp only [hlarge, Bool.false_eq_true, if_false, if_neg hremote] at h
  cases h
  simp [Remote.exec, Remote.push, Remote.goto, Store.pushing, Store.remote, Pages.row]

/-- Its next steps are the exchange, and after a failure the store of the new head. -/
theorem stepRemote_alone {o : Oracle} {t p head result : Nat} {th : Thread} :
    (s.page.threadFree (pageOf p) = head ∧ o.spurious = false →
      (s.pushing t p head out).push t o.spurious =
        ((stepRemote o s th p head result).1.remote (pageOf p) (out.erase p)).goto t none) ∧
    (¬ (s.page.threadFree (pageOf p) = head ∧ o.spurious = false) →
      ((s.pushing t p head out).push t o.spurious).push t false =
        (stepRemote o s th p head result).1.pushing t p (s.page.threadFree (pageOf p)) out) := by
  constructor
  · intro hswap
    unfold stepRemote
    rw [if_pos hswap]
    simp [Remote.push, Remote.goto, Store.pushing, Store.remote, Pages.row, hswap, finishFree]
  · intro hfail
    unfold stepRemote
    rw [if_neg hfail]
    simp [Remote.push, Remote.goto, Store.pushing, Store.remote, Pages.row, hfail]

end Alone

/-- The count of a collector that has walked its chain. -/
def CollectPc.count : CollectPc → Option Nat
  | .link _ _ n | .publish _ n | .subtract n => some n
  | _ => none

/-- The remote list of a page loses and duplicates nothing, whatever the order in
which any number of threads and collects take their steps. The chain in memory and
the one that a collector walks are finite, no block is in two places, and every
successful exchange is on exactly one chain: one that a collector has walked, the
one it is walking, or the one in memory. A collector counts the exchanges that
succeeded between the exchange of the collector before and its own. Between two
collects the page is in the state the system has it in. -/
theorem remote_frees_exact {r₀ r : Remote} {g : PageGhost} {log : RemoteLog} (h₀ : r₀.Start g)
    (h : RemoteRun r₀ (.start g) r log) : ∃ free cur stack : List Nat,
    Chain (link r.mem) (ptr r.page.threadFree) stack ∧
    (free ++ stack ++ (cur ++ r.out)).Nodup ∧
    log.pushes =
      log.chains.flatMap List.reverse ++ ((r.collector.unwalked cur).reverse ++ stack.reverse) ∧
    (∀ chain ∈ log.chains, chain.Nodup) ∧ log.since = stack.length ∧
    (∀ list tail n, r.collector = .walk list tail n → Chain (link r.mem) (ptr list) cur ∧
      log.walked <+: cur ∧ n = log.walked.length ∧ log.due = cur.length) ∧
    (∀ n, r.collector.count = some n → n = log.due ∧
      ∃ chain, log.chains.getLast? = some chain ∧ n = chain.length) ∧
    (r.collector = .idle → InService r.mem r.page ⟨free, stack, r.out, .limbo⟩) := by
  obtain ⟨free, cur, stack, hinv⟩ := h.inv h₀
  have hc := hinv.collecting
  have hchain := hinv.service.remote
  rw [CollectPc.settle_threadFree] at hchain
  refine ⟨free, cur, stack, hchain, hinv.nodup, hinv.pushes, hinv.chains, hinv.since, ?_, ?_,
    fun hidle => (hinv.at_rest hidle).2⟩
  · intro list tail n hpc
    obtain ⟨⟨hwalk, hdue, before, after, hcur, hwalked, hn⟩, _⟩ := hinv.at_pc hpc
    refine ⟨hwalk, ⟨after, ?_⟩, ?_, hdue⟩
    · rw [hwalked, hcur]
      simp
    · rw [hwalked, hn]
      simp
  · intro n hn
    unfold Collecting at hc
    cases hpc : r.collector with
    | idle | walk =>
        rw [hpc] at hn
        cases hn
    | link list tail m =>
        rw [hpc] at hn hc
        cases hn
        obtain ⟨_, hdue, hlen, hlast, _⟩ := hc
        exact ⟨hdue.symm, cur, hlast, hlen⟩
    | publish list m =>
        rw [hpc] at hn hc
        cases hn
        obtain ⟨_, hdue, hlen, hlast⟩ := hc
        exact ⟨hdue.symm, cur, hlast, hlen⟩
    | subtract m =>
        rw [hpc] at hn hc
        cases hn
        obtain ⟨_, hdue, chain, hlast, hlen⟩ := hc
        exact ⟨hdue.symm, chain, hlast, hlen⟩

/-- The block is held, as far as the threads of `us` are concerned. -/
def Remote.isHeld (r : Remote) (us : List Nat) (b : Nat) : Bool :=
  decide (b ∈ r.out) && us.all fun t => (r.pusher t).all fun pc => pc.block != b

/-- The condition of a step in which only threads of `us` free blocks. -/
def Remote.ready (r : Remote) (us : List Nat) : RemoteAct → Bool
  | .free t b => decide (t ∈ us) && (r.pusher t).isNone && r.isHeld us b
  | .push t _ => decide (t ∈ us) && (r.pusher t).isSome
  | .collect => true
  | .pop => decide (r.collector = .idle) && decide (r.page.free ≠ 0)
  | .pushLocal b => decide (r.collector = .idle) && r.isHeld us b
  | .extend n => decide (r.collector = .idle) && decide (r.page.reserved + n ≤ r.page.capacity)
  | .write b i _ => r.isHeld us b && decide (i < r.page.blockSize)

theorem Remote.held_of_isHeld {r : Remote} {us : List Nat} (hus : ∀ t, t ∉ us → r.pusher t = none)
    {b : Nat} (h : r.isHeld us b = true) : r.Held b := by
  simp only [Remote.isHeld, Bool.and_eq_true, decide_eq_true_eq, List.all_eq_true] at h
  refine ⟨h.1, fun t pc hpc => ?_⟩
  by_cases ht : t ∈ us
  · have hall := h.2 t ht
    rw [hpc, Option.all_some, bne_iff_ne] at hall
    exact hall
  · rw [hus t ht] at hpc
    cases hpc

theorem Remote.allowed_of_ready {r : Remote} {us : List Nat}
    (hus : ∀ t, t ∉ us → r.pusher t = none) {act : RemoteAct} (h : r.ready us act = true) :
    r.Allowed act ∧ ∀ t, t ∉ us → (r.exec act).pusher t = none := by
  have hgoto : ∀ (r' : Remote) t pc, r'.pusher = r.pusher → t ∈ us →
      ∀ u, u ∉ us → (r'.goto t pc).pusher u = none := by
    intro r' t pc hsame ht u hu
    have hne : u ≠ t := fun heq => hu (heq ▸ ht)
    change Function.update r'.pusher t pc u = none
    rw [Function.update_of_ne hne, hsame]
    exact hus u hu
  cases act with
  | free t b =>
      simp only [Remote.ready, Bool.and_eq_true, decide_eq_true_eq, Option.isNone_iff_eq_none] at h
      exact ⟨⟨h.1.2, Remote.held_of_isHeld hus h.2⟩, hgoto r t _ rfl h.1.1⟩
  | push t spurious =>
      simp only [Remote.ready, Bool.and_eq_true, decide_eq_true_eq] at h
      refine ⟨Option.isSome_iff_ne_none.mp h.2, ?_⟩
      change ∀ u, u ∉ us → (r.push t spurious).pusher u = none
      unfold Remote.push
      split
      · exact hus
      · exact hgoto _ _ _ rfl h.1
      · exact hgoto _ _ _ rfl h.1
      · split <;> exact hgoto _ _ _ rfl h.1
  | collect =>
      refine ⟨trivial, ?_⟩
      change ∀ u, u ∉ us → r.collect.pusher u = none
      unfold Remote.collect
      split <;> exact hus
  | pop =>
      simp only [Remote.ready, Bool.and_eq_true, decide_eq_true_eq] at h
      exact ⟨h, hus⟩
  | pushLocal b =>
      simp only [Remote.ready, Bool.and_eq_true, decide_eq_true_eq] at h
      exact ⟨⟨h.1, Remote.held_of_isHeld hus h.2⟩, hus⟩
  | extend n =>
      simp only [Remote.ready, Bool.and_eq_true, decide_eq_true_eq] at h
      exact ⟨h, hus⟩
  | write b i v =>
      simp only [Remote.ready, Bool.and_eq_true, decide_eq_true_eq] at h
      exact ⟨⟨Remote.held_of_isHeld hus h.1, h.2⟩, hus⟩

/-- A run that can be computed. -/
def remoteSchedule (us : List Nat) :
    List RemoteAct → Remote → RemoteLog → Option (Remote × RemoteLog)
  | [], r, log => some (r, log)
  | act :: acts, r, log =>
      if r.ready us act then remoteSchedule us acts (r.exec act) (log.note r act) else none

theorem remoteSchedule_run {us : List Nat} {acts : List RemoteAct} {r₀ r r' : Remote}
    {log₀ log log' : RemoteLog} (hrun : RemoteRun r₀ log₀ r log)
    (hus : ∀ t, t ∉ us → r.pusher t = none)
    (h : remoteSchedule us acts r log = some (r', log')) : RemoteRun r₀ log₀ r' log' := by
  induction acts generalizing r log with
  | nil =>
      cases h
      exact hrun
  | cons act acts ih =>
      unfold remoteSchedule at h
      split at h
      · rename_i hready
        obtain ⟨hok, hus'⟩ := Remote.allowed_of_ready hus hready
        exact ih (hrun.step hok) hus' h
      · cases h

/-- A page with two blocks, both handed out. -/
def twoBlocks : Remote where
  mem := fun _ => 0
  page :=
    { free := 0, used := 2, capacity := 4096, reserved := 2, blockSize := 16, sizeClass := 0,
      inUse := true, owner := .null, area := 65536, threadFree := 0 }
  pusher := fun _ => none
  collector := .idle
  out := [65536, 65552]

theorem twoBlocks_start : twoBlocks.Start ⟨[], [], [65536, 65552], .limbo⟩ where
  service := by
    refine ⟨by decide, by decide, by decide, by decide, ?_, rfl, rfl, rfl, rfl⟩
    decide
  pos := by decide
  fits := by decide
  pusher := fun _ => rfl
  collector := rfl
  out := rfl

/-- Thread 2 reads the head that thread 1 has pushed; the block is collected, handed
out and freed again before thread 2 exchanges. Both exchanges of the block and the
one of thread 2 are where they belong. -/
theorem remote_frees_exact_aba : ∃ r log,
    RemoteRun twoBlocks (.start ⟨[], [], [65536, 65552], .limbo⟩) r log ∧
    log.pushes = [65536, 65536, 65552] ∧ log.chains = [[65536]] ∧
    Chain (link r.mem) (ptr r.page.threadFree) [65552, 65536] := by
  have hrun : ((remoteSchedule [1, 2]
      [.free 1 65536, .push 1 false, .push 1 false, .push 1 false,
        .free 2 65552, .push 2 false, .push 2 false,
        .collect, .collect, .collect, .collect, .collect, .pop,
        .free 1 65536, .push 1 false, .push 1 false, .push 1 true, .push 1 false, .push 1 false,
        .push 2 false] twoBlocks (.start ⟨[], [], [65536, 65552], .limbo⟩)).any fun x =>
      x.2.pushes == [65536, 65536, 65552] && x.2.chains == [[65536]] &&
        decide (x.1.collector = .idle)) = true := by
    decide +kernel
  simp only [Option.any_eq_true, Bool.and_eq_true, beq_iff_eq, decide_eq_true_eq] at hrun
  obtain ⟨⟨r, log⟩, hsteps, ⟨hpushes, hchains⟩, hidle⟩ := hrun
  have hr := remoteSchedule_run .refl (fun _ _ => rfl) hsteps
  obtain ⟨free, cur, stack, hchain, _, hall, _⟩ := remote_frees_exact twoBlocks_start hr
  rw [hpushes, hchains, hidle] at hall
  have hstack : stack = [65552, 65536] := by
    have hrest : [65536, 65552] = stack.reverse := by simpa [CollectPc.unwalked] using hall
    rw [← List.reverse_reverse stack, ← hrest]
    rfl
  rw [hstack] at hchain
  exact ⟨r, log, hr, hpushes, hchains, hchain⟩

end HMalloc
