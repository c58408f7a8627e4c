import HMalloc.Lib.Refinement
import HMalloc.OutOfMemory

/-!
What the allocator is for, without pages, lists, locks and threads' heaps: a map
from addresses to blocks, on which each call acts at one moment between the time
it is made and the time it returns (`Serves`). This is a statement of purpose,
not a translation; `Linearization` relates the code to it.
-/

namespace HMalloc

/-- A block as its client sees it: the size asked for, and the bytes there are to
use. -/
structure Block where
  size : Nat
  bytes : List UInt8

/-- How far the call of a thread is: there is none, it has been made, or it has
acted and its answer is known. -/
inductive Phase where
  | idle
  | asked (call : Call)
  | answered (result : Nat)

/-- The heap as an atomic object. -/
@[ext] structure AtomicHeap where
  blocks : Nat → Option Block
  phase : Nat → Phase

/-- What clients see and do. -/
inductive Event where
  | call (t : Nat) (call : Call)
  | ret (t result : Nat)
  | write (p i : Nat) (v : UInt8)
  deriving DecidableEq

/-- The pointer a call is given, if it is not null. -/
def Call.given : Call → Option Nat
  | .free p | .realloc p _ => ptr p
  | _ => none

/-- The pointer a call gives up for nothing. -/
def Call.released : Call → Option Nat
  | .free p => ptr p
  | .realloc p n => if n = 0 then ptr p else none
  | _ => none

/-- The addresses from `p` on, `len` of them, are in no block. -/
structure Unused (blocks : Nat → Option Block) (p len : Nat) : Prop where
  ne_null : p ≠ 0
  bound : p + len ≤ 2 ^ 64
  apart : ∀ q b, blocks q = some b → q + b.bytes.length ≤ p ∨ p + len ≤ q

/-- A new block at `p` of the size and alignment a call asks for, as long as needed
and, for `hm_calloc`, zeroed. -/
structure Suits (call : Call) (p : Nat) (b : Block) : Prop where
  size : b.size = call.size
  pos : 0 < call.size
  long : call.size ≤ b.bytes.length
  aligned : call.alignment ∣ p
  zeroed : ∀ nmemb n, call = .calloc nmemb n → ∀ i < call.size, b.bytes.getD i 0 = 0

/-- What a call does to the blocks, and what it answers. -/
inductive Serves (blocks : Nat → Option Block) : Call → Nat → (Nat → Option Block) → Prop where
  /-- Null, and all blocks stay. -/
  | refuse {call : Call} (h : call.released = none) : Serves blocks call 0 blocks
  | release {call : Call} {p : Nat} {b : Block} (h : call.released = some p)
      (hb : blocks p = some b) : Serves blocks call 0 (Function.update blocks p none)
  | create {call : Call} {p : Nat} {b : Block} (h : call.given = none)
      (hnew : Unused blocks p b.bytes.length) (hb : Suits call p b) :
      Serves blocks call p (Function.update blocks p (some b))
  /-- `hm_realloc` in place. -/
  | keep {p n : Nat} {b : Block} (hb : blocks p = some b) (hn : n ≠ 0)
      (hfits : n ≤ b.bytes.length) :
      Serves blocks (.realloc p n) p (Function.update blocks p (some { b with size := n }))
  /-- `hm_realloc` to another place, with what fits of the contents. -/
  | move {p n q : Nat} {b b' : Block} (hb : blocks p = some b)
      (hnew : Unused blocks q b'.bytes.length) (hb' : Suits (.realloc p n) q b')
      (hcopy : ∀ i < n, i < b.bytes.length → b'.bytes.getD i 0 = b.bytes.getD i 0) :
      Serves blocks (.realloc p n) q
        (Function.update (Function.update blocks p none) q (some b'))

/-- The client may use the block at `p`: no call has been given it. -/
def AtomicHeap.Unclaimed (A : AtomicHeap) (p : Nat) : Prop :=
  ∀ t call, A.phase t = .asked call → call.given ≠ some p

/-- One step: a call is made, acts, or returns, or a client writes a byte. -/
inductive AtomicHeap.Step (A : AtomicHeap) : List Event → AtomicHeap → Prop where
  | call {t : Nat} {call : Call} (hidle : A.phase t = .idle)
      (hgiven : ∀ p, call.given = some p → A.blocks p ≠ none ∧ A.Unclaimed p) :
      A.Step [.call t call] { A with phase := Function.update A.phase t (.asked call) }
  | serve {t result : Nat} {call : Call} {blocks : Nat → Option Block}
      (hasked : A.phase t = .asked call) (h : Serves A.blocks call result blocks) :
      A.Step [] ⟨blocks, Function.update A.phase t (.answered result)⟩
  | ret {t result : Nat} (hdone : A.phase t = .answered result) :
      A.Step [.ret t result] { A with phase := Function.update A.phase t .idle }
  | write {p i : Nat} {v : UInt8} {b : Block} (hb : A.blocks p = some b)
      (hfree : A.Unclaimed p) (hi : i < b.bytes.length) :
      A.Step [.write p i v] { A with
        blocks := Function.update A.blocks p (some { b with bytes := b.bytes.set i v }) }

/-- The atomic heap, at first without blocks and calls. -/
def atomicHeap : Refinement.Machine AtomicHeap Event where
  start := ⟨fun _ => none, fun _ => .idle⟩
  step := AtomicHeap.Step

end HMalloc
