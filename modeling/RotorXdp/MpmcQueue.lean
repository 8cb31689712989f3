import RotorXdp.Lib.TicketOrder
import Mathlib.Data.Fintype.Basic

/-!
# The packet queue

`mpmc_queue.c`: a bounded queue for several producers and consumers without locks. Every access to
`tail`, to `head` and to the `sequence` of a cell is one atomic step, and so is the access to the
`data` of a cell; the steps of the threads interleave in any order. The counters are `size_t` and
wrap, the difference of `sequence` and `pos` is taken as a signed number. A weak compare-and-swap
may fail without need.

* `mpmcQueueInit`: the queue, or the code of the error;
* `MpmcPc`, `MpmcQueue.next`: where a thread is in `mpmc_queue_push`, `mpmc_queue_pull` or
  `mpmc_queue_available`, and its next step;
* `Mpmc.step`, `Mpmc.event`: the queue with its threads;
* `Mpmc.Fresh`: no thread sleeps in a call for `2 ^ 62` calls of the others.
-/

namespace RotorXdp

open Function Fifo
open TicketQueue (Act)

variable {ι α : Type*}

/-- `struct mpmc_queue_cell` -/
structure MpmcQueueCell (α : Type*) where
  sequence : BitVec 64
  data : α

/-- `struct mpmc_queue`, with what `buffer` points to. -/
structure MpmcQueue (α : Type*) where
  bufferMask : BitVec 64
  buffer : ℕ → MpmcQueueCell α
  tail : BitVec 64
  head : BitVec 64

/-- The loop of `mpmc_queue_init` over the first `n` cells. -/
def initCells (memory : ℕ → MpmcQueueCell α) : ℕ → ℕ → MpmcQueueCell α
  | 0 => memory
  | n + 1 =>
    let cells := initCells memory n
    update cells n { cells n with sequence := BitVec.ofNat 64 n }

/-- `mpmc_queue_init`. `alloc` is `memory_alloc`: what the memory of this many bytes contains. -/
def mpmcQueueInit (alloc : BitVec 64 → Option (ℕ → MpmcQueueCell α)) (size : BitVec 64) :
    Except ℤ (MpmcQueue α) :=
  if size < 2#64 ∨ size &&& (size - 1#64) ≠ 0#64 then .error (-1)
  else
    match alloc (16#64 * size) with
    | none => .error (-2)
    | some memory => .ok ⟨size - 1#64, initCells memory size.toNat, 0#64, 0#64⟩

/-- Where a thread is: about to read `tail` or `head`, the `sequence` of the cell, about to do the
compare-and-swap, to access `data`, to store `sequence`. -/
inductive MpmcPc (α : Type*)
  | idle
  | pushTail (ptr : α)
  | pushSequence (ptr : α) (pos : BitVec 64)
  | pushCas (ptr : α) (pos : BitVec 64)
  | pushData (ptr : α) (pos : BitVec 64)
  | pushRelease (ptr : α) (pos : BitVec 64)
  | pullHead
  | pullSequence (pos : BitVec 64)
  | pullCas (pos : BitVec 64)
  | pullData (pos : BitVec 64)
  | pullRelease (pos : BitVec 64) (ptr : α)
  | availableTail
  | availableHead (tail : BitVec 64)
  | ret (o : Op α) (r : Res α (BitVec 64))

/-- `&q->buffer[pos & q->buffer_mask]` -/
def MpmcQueue.index (q : MpmcQueue α) (pos : BitVec 64) : ℕ := (pos &&& q.bufferMask).toNat

def MpmcQueue.cell (q : MpmcQueue α) (pos : BitVec 64) : MpmcQueueCell α := q.buffer (q.index pos)

/-- Change the cell of `pos`. -/
def MpmcQueue.setCell (q : MpmcQueue α) (pos : BitVec 64) (cell : MpmcQueueCell α) :
    MpmcQueue α :=
  { q with buffer := update q.buffer (q.index pos) cell }

/-- The next step of a thread. The relaxed, acquire and release accesses of the source are all taken
as sequentially consistent, and `available` reads `tail` first, though C leaves the order of its two
reads open. -/
def MpmcQueue.next (q : MpmcQueue α) (spurious : Bool) : MpmcPc α → Option (MpmcQueue α × MpmcPc α)
  | .idle => none
  | .pushTail ptr => some (q, .pushSequence ptr q.tail)
  | .pushSequence ptr pos =>
    let diff := ((q.cell pos).sequence - pos).toInt
    if diff = 0 then some (q, .pushCas ptr pos)
    else if diff < 0 then some (q, .ret (.push ptr) (.pushed false))
    else some (q, .pushTail ptr)
  | .pushCas ptr pos =>
    if q.tail = pos ∧ spurious = false then
      some ({ q with tail := pos + 1#64 }, .pushData ptr pos)
    else some (q, .pushSequence ptr q.tail)
  | .pushData ptr pos => some (q.setCell pos { q.cell pos with data := ptr }, .pushRelease ptr pos)
  | .pushRelease ptr pos =>
    some (q.setCell pos { q.cell pos with sequence := pos + 1#64 },
      .ret (.push ptr) (.pushed true))
  | .pullHead => some (q, .pullSequence q.head)
  | .pullSequence pos =>
    let diff := ((q.cell pos).sequence - (pos + 1#64)).toInt
    if diff = 0 then some (q, .pullCas pos)
    else if diff < 0 then some (q, .ret .pull (.pulled none))
    else some (q, .pullHead)
  | .pullCas pos =>
    if q.head = pos ∧ spurious = false then some ({ q with head := pos + 1#64 }, .pullData pos)
    else some (q, .pullSequence q.head)
  | .pullData pos => some (q, .pullRelease pos (q.cell pos).data)
  | .pullRelease pos ptr =>
    some (q.setCell pos { q.cell pos with sequence := pos + q.bufferMask + 1#64 },
      .ret .pull (.pulled (some ptr)))
  | .availableTail => some (q, .availableHead q.tail)
  | .availableHead tail => some (q, .ret .available (.available (tail - q.head)))
  | .ret _ _ => none

/-- `mpmc_queue_push`, `mpmc_queue_pull`, `mpmc_queue_available` -/
def MpmcPc.enter : Op α → MpmcPc α
  | .push ptr => .pushTail ptr
  | .pull => .pullHead
  | .available => .availableTail

/-- The queue and the threads that use it. -/
structure Mpmc (ι α : Type*) where
  q : MpmcQueue α
  pc : ι → MpmcPc α

/-- A queue that no thread has called. -/
def Mpmc.start (q : MpmcQueue α) : Mpmc ι α := ⟨q, fun _ => .idle⟩

/-- A thread calls, takes a step, returns. -/
def Mpmc.step [DecidableEq ι] (s : Mpmc ι α) : Act ι α → Option (Mpmc ι α)
  | .call i o =>
    match s.pc i with
    | .idle => some { s with pc := update s.pc i (.enter o) }
    | _ => none
  | .step i spurious => (s.q.next spurious (s.pc i)).map fun r => ⟨r.1, update s.pc i r.2⟩
  | .ret i =>
    match s.pc i with
    | .ret _ _ => some { s with pc := update s.pc i .idle }
    | _ => none

/-- The calls and the returns. -/
def Mpmc.event (s : Mpmc ι α) : Act ι α → Option (Atomic.Event ι (Op α) (Res α (BitVec 64)))
  | .call i o => some (.call i o)
  | .step _ _ => none
  | .ret i =>
    match s.pc i with
    | .ret o r => some (.ret i o r)
    | _ => none

/-- The counter has moved by less than `2 ^ 62` since the thread has read it. -/
def MpmcPc.Fresh (q : MpmcQueue α) : MpmcPc α → Prop
  | .pushSequence _ pos => (q.tail - pos).toNat < 2 ^ 62
  | .pushCas _ pos => (q.tail - pos).toNat < 2 ^ 62
  | .pullSequence pos => (q.head - pos).toNat < 2 ^ 62
  | .pullCas pos => (q.head - pos).toNat < 2 ^ 62
  | _ => True

/-- No thread sleeps in its loop for `2 ^ 62` calls of the others. -/
def Mpmc.Fresh (s : Mpmc ι α) : Prop := ∀ i, (s.pc i).Fresh s.q

instance MpmcPc.decidableFresh (q : MpmcQueue α) : ∀ pc : MpmcPc α, Decidable (pc.Fresh q)
  | .pushSequence _ pos => inferInstanceAs (Decidable ((q.tail - pos).toNat < 2 ^ 62))
  | .pushCas _ pos => inferInstanceAs (Decidable ((q.tail - pos).toNat < 2 ^ 62))
  | .pullSequence pos => inferInstanceAs (Decidable ((q.head - pos).toNat < 2 ^ 62))
  | .pullCas pos => inferInstanceAs (Decidable ((q.head - pos).toNat < 2 ^ 62))
  | .idle | .pushTail _ | .pushData _ _ | .pushRelease _ _ | .pullHead | .pullData _
  | .pullRelease _ _ | .availableTail | .availableHead _ | .ret _ _ => isTrue trivial

instance Mpmc.decidableFresh [Fintype ι] (s : Mpmc ι α) : Decidable s.Fresh :=
  inferInstanceAs (Decidable (∀ i, (s.pc i).Fresh s.q))

theorem initCells_of_lt (memory : ℕ → MpmcQueueCell α) {n c : ℕ} (h : c < n) :
    (initCells memory n c).sequence = BitVec.ofNat 64 c := by
  induction n with
  | zero => exact absurd h (Nat.not_lt_zero c)
  | succ n ih =>
    simp only [initCells]
    by_cases hc : c = n
    · subst hc; rw [update_self]
    · rw [update_of_ne hc]
      exact ih (by omega)

end RotorXdp
