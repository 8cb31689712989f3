import RotorXdp.Lib.Fifo
import Mathlib.Data.Nat.ModEq

/-!
# Queues with tickets

A bounded queue in a ring of `N` cells, for any number of producers and consumers, with counters
that never wrap. A push takes the ticket `tail`, a pull the ticket `head`; ticket `t` belongs to
cell `t % N`, whose number `seq` says whose turn it is: `t` when the cell waits for push `t`,
`t + 1` when it waits for pull `t`. A thread reads the counter, reads the number of the cell, takes
the ticket by a compare-and-swap of the counter, and then has the cell for itself.

* `Queue`, `Pc`, `State`: the ring, where a thread is, all threads; `items` are the items of all
  pushes that have a ticket;
* `Next`, `Step`: one step of a thread, one step of the system;
* `Inv`, `Inv.step`: the invariant, and that every step keeps it.
-/

namespace TicketQueue

open Function Atomic Fifo

variable {ι α W : Type*}

structure Queue (α : Type*) where
  items : List α
  head : ℕ
  seq : ℕ → ℕ
  data : ℕ → α

/-- The next ticket of a push. -/
def Queue.tail (q : Queue α) : ℕ := q.items.length

theorem Queue.tail_concat (q : Queue α) (x : α) :
    Queue.tail { q with items := q.items ++ [x] } = q.tail + 1 := by
  rw [Queue.tail, List.length_append, List.length_singleton]; rfl

/-- Where a thread is: `p` is the ticket it tries to take, or has. -/
inductive Pc (α W : Type*)
  | idle
  | pushLoad (x : α)
  | pushSeq (x : α) (p : ℕ)
  | pushCas (x : α) (p : ℕ)
  | pushWrite (x : α) (p : ℕ)
  | pushStore (x : α) (p : ℕ)
  | pullLoad
  | pullSeq (p : ℕ)
  | pullCas (p : ℕ)
  | pullRead (p : ℕ)
  | pullStore (p : ℕ) (v : α)
  | availTail
  | availHead (t : ℕ)
  | ret (o : Op α) (r : Res α W)

/-- The first thing a call does. -/
def Pc.start : Op α → Pc α W
  | .push x => .pushLoad x
  | .pull => .pullLoad
  | .available => .availTail

/-- The ticket of a thread that has a cell for itself to put an item. -/
def Pc.writes : Pc α W → Option ℕ
  | .pushWrite _ p => some p
  | .pushStore _ p => some p
  | _ => none

/-- The ticket of a thread that has a cell for itself to take the item. -/
def Pc.reads : Pc α W → Option ℕ
  | .pullRead p => some p
  | .pullStore p _ => some p
  | _ => none

/-- The queue and the threads. -/
structure State (ι α W : Type*) where
  q : Queue α
  pc : ι → Pc α W

/-- The empty ring: cell `c` waits for push `c`. -/
def State.init (data : ℕ → α) : State ι α W := ⟨⟨[], 0, id, data⟩, fun _ => .idle⟩

/-- One step of a thread. `spurious`: a compare-and-swap that fails without need. `enc` is how a
length is given. -/
inductive Next (N : ℕ) (enc : ℤ → W) (spurious : Bool) :
    Queue α → Pc α W → Queue α → Pc α W → Prop
  | pushLoad {q : Queue α} {x : α} : Next N enc spurious q (.pushLoad x) q (.pushSeq x q.tail)
  | pushReady {q : Queue α} {x : α} {p : ℕ} (h : q.seq (p % N) = p) :
      Next N enc spurious q (.pushSeq x p) q (.pushCas x p)
  | pushFull {q : Queue α} {x : α} {p : ℕ} (h : q.seq (p % N) < p) :
      Next N enc spurious q (.pushSeq x p) q (.ret (.push x) (.pushed false))
  | pushLate {q : Queue α} {x : α} {p : ℕ} (h : p < q.seq (p % N)) :
      Next N enc spurious q (.pushSeq x p) q (.pushLoad x)
  | pushClaim {q : Queue α} {x : α} {p : ℕ} (h : q.tail = p) :
      Next N enc spurious q (.pushCas x p) { q with items := q.items ++ [x] } (.pushWrite x p)
  | pushRetry {q : Queue α} {x : α} {p : ℕ} (h : spurious = true ∨ q.tail ≠ p) :
      Next N enc spurious q (.pushCas x p) q (.pushSeq x q.tail)
  | pushWrite {q : Queue α} {x : α} {p : ℕ} :
      Next N enc spurious q (.pushWrite x p) { q with data := update q.data (p % N) x }
        (.pushStore x p)
  | pushStore {q : Queue α} {x : α} {p : ℕ} :
      Next N enc spurious q (.pushStore x p) { q with seq := update q.seq (p % N) (p + 1) }
        (.ret (.push x) (.pushed true))
  | pullLoad {q : Queue α} : Next N enc spurious q .pullLoad q (.pullSeq q.head)
  | pullReady {q : Queue α} {p : ℕ} (h : q.seq (p % N) = p + 1) :
      Next N enc spurious q (.pullSeq p) q (.pullCas p)
  | pullEmpty {q : Queue α} {p : ℕ} (h : q.seq (p % N) < p + 1) :
      Next N enc spurious q (.pullSeq p) q (.ret .pull (.pulled none))
  | pullLate {q : Queue α} {p : ℕ} (h : p + 1 < q.seq (p % N)) :
      Next N enc spurious q (.pullSeq p) q .pullLoad
  | pullClaim {q : Queue α} {p : ℕ} (h : q.head = p) :
      Next N enc spurious q (.pullCas p) { q with head := p + 1 } (.pullRead p)
  | pullRetry {q : Queue α} {p : ℕ} (h : spurious = true ∨ q.head ≠ p) :
      Next N enc spurious q (.pullCas p) q (.pullSeq q.head)
  | pullRead {q : Queue α} {p : ℕ} :
      Next N enc spurious q (.pullRead p) q (.pullStore p (q.data (p % N)))
  | pullStore {q : Queue α} {p : ℕ} {v : α} :
      Next N enc spurious q (.pullStore p v) { q with seq := update q.seq (p % N) (p + N) }
        (.ret .pull (.pulled (some v)))
  | availTail {q : Queue α} : Next N enc spurious q .availTail q (.availHead q.tail)
  | availHead {q : Queue α} {t : ℕ} :
      Next N enc spurious q (.availHead t) q
        (.ret .available (.available (enc ((t : ℤ) - (q.head : ℤ)))))

inductive Act (ι α : Type*)
  | call (i : ι) (o : Op α)
  | step (i : ι) (spurious : Bool)
  | ret (i : ι)

/-- One step of the system. -/
inductive Step [DecidableEq ι] (N : ℕ) (enc : ℤ → W) : State ι α W → Act ι α → State ι α W → Prop
  | call {s : State ι α W} {i : ι} {o : Op α} (h : s.pc i = .idle) :
      Step N enc s (.call i o) { s with pc := update s.pc i (.start o) }
  | step {s : State ι α W} {i : ι} {spurious : Bool} {q : Queue α} {pc : Pc α W}
      (h : Next N enc spurious s.q (s.pc i) q pc) :
      Step N enc s (.step i spurious) ⟨q, update s.pc i pc⟩
  | ret {s : State ι α W} {i : ι} {o : Op α} {r : Res α W} (h : s.pc i = .ret o r) :
      Step N enc s (.ret i) { s with pc := update s.pc i .idle }

/-! ### The invariant -/

/-- The cell of ticket `t` waits for push `t`. -/
def Queue.Free (N : ℕ) (q : Queue α) (t : ℕ) : Prop := q.seq (t % N) = t

/-- The cell of ticket `t` waits for pull `t`. -/
def Queue.Full (N : ℕ) (q : Queue α) (t : ℕ) : Prop := q.seq (t % N) = t + 1

/-- The cell of `t` waits for push `t`; if the ticket is taken, a thread is putting the item. -/
structure FreeCell (N : ℕ) (s : State ι α W) (t : ℕ) : Prop where
  free : s.q.Free N t
  head_le : s.q.head ≤ t
  writer : t < s.q.tail → ∃ i, (s.pc i).writes = some t

/-- The cell of `t` has item `t`; if the pull ticket is taken, a thread is taking the item. -/
structure FullCell (N : ℕ) (s : State ι α W) (t : ℕ) : Prop where
  full : s.q.Full N t
  item : s.q.items[t]? = some (s.q.data (t % N))
  reader : t < s.q.head → ∃ i, (s.pc i).reads = some t

/-- The cell of `t` is at ticket `t`, which is one of the last `N` and one of the next `N`. -/
structure Cell (N : ℕ) (s : State ι α W) (t : ℕ) : Prop where
  tail_le : s.q.tail ≤ t + N
  lt_head : t < s.q.head + N
  state : FreeCell N s t ∨ FullCell N s t

/-- What a thread knows. -/
def PcInv (N : ℕ) (q : Queue α) : Pc α W → Prop
  | .pushSeq _ p => p ≤ q.tail
  | .pushCas _ p => p ≤ q.tail ∧ (p = q.tail → q.Free N p)
  | .pushWrite x p => q.Free N p ∧ q.items[p]? = some x
  | .pushStore x p => q.Free N p ∧ q.items[p]? = some x ∧ q.data (p % N) = x
  | .pullSeq p => p ≤ q.head
  | .pullCas p => p ≤ q.head ∧ (p = q.head → q.Full N p)
  | .pullRead p => q.Full N p ∧ p < q.head
  | .pullStore p v => q.Full N p ∧ p < q.head ∧ q.items[p]? = some v
  | .availHead t => t ≤ q.tail
  | _ => True

structure Inv (N : ℕ) (s : State ι α W) : Prop where
  head_le : s.q.head ≤ s.q.tail
  cell : ∀ c < N, ∃ t, t % N = c ∧ Cell N s t
  thread : ∀ i, PcInv N s.q (s.pc i)
  one_writer : ∀ i j t, (s.pc i).writes = some t → (s.pc j).writes = some t → i = j
  one_reader : ∀ i j t, (s.pc i).reads = some t → (s.pc j).reads = some t → i = j

variable {N : ℕ} {s s' : State ι α W} {q : Queue α} {t p : ℕ} {i j : ι}

/-! ### Tickets of one cell -/

theorem succ_mod_ne (hN : 2 ≤ N) (t : ℕ) : (t + 1) % N ≠ t % N := by
  intro h
  have hdvd : N ∣ t + 1 - t := (Nat.modEq_iff_dvd' (Nat.le_succ t)).1 h.symm
  rw [Nat.add_sub_cancel_left] at hdvd
  exact absurd (Nat.le_of_dvd Nat.one_pos hdvd) (by omega)

theorem add_le_of_mod_eq (h : t % N = p % N) (hlt : t < p) : t + N ≤ p := by
  have hdvd : N ∣ p - t := (Nat.modEq_iff_dvd' hlt.le).1 h
  have := Nat.le_of_dvd (by omega) hdvd
  omega

theorem Queue.Free.eq (ht : q.Free N t) (hp : q.Free N p) (h : t % N = p % N) : t = p := by
  unfold Queue.Free at ht hp
  rw [← ht, ← hp, h]

theorem Queue.Full.eq (ht : q.Full N t) (hp : q.Full N p) (h : t % N = p % N) : t = p := by
  unfold Queue.Full at ht hp
  rw [h, hp] at ht
  omega

theorem Queue.Free.not_full (hN : 2 ≤ N) (ht : q.Free N t) (hp : q.Full N p) :
    t % N ≠ p % N := by
  intro h
  unfold Queue.Free at ht
  unfold Queue.Full at hp
  rw [h, hp] at ht
  rw [← ht] at h
  exact succ_mod_ne hN p h

theorem Inv.at (h : Inv N s) (hN : 2 ≤ N) (p : ℕ) : ∃ t, t % N = p % N ∧ Cell N s t :=
  h.cell (p % N) (Nat.mod_lt p (by omega))

theorem Inv.of_free (h : Inv N s) (hN : 2 ≤ N) (hp : s.q.Free N p) :
    Cell N s p ∧ FreeCell N s p := by
  obtain ⟨t, ht, hc⟩ := h.at hN p
  rcases hc.state with hfree | hfull
  · obtain rfl := hfree.free.eq hp ht
    exact ⟨hc, hfree⟩
  · exact absurd ht.symm (hp.not_full hN hfull.full)

theorem Inv.of_full (h : Inv N s) (hN : 2 ≤ N) (hp : s.q.Full N p) :
    Cell N s p ∧ FullCell N s p := by
  obtain ⟨t, ht, hc⟩ := h.at hN p
  rcases hc.state with hfree | hfull
  · exact absurd ht (hfree.free.not_full hN hp)
  · obtain rfl := hfull.full.eq hp ht
    exact ⟨hc, hfull⟩

theorem FullCell.lt_tail (h : FullCell N s t) : t < s.q.tail :=
  (List.getElem?_eq_some_iff.1 h.item).1

/-- At most `N` items have been put and not taken. -/
theorem Inv.tail_le (h : Inv N s) (hN : 2 ≤ N) : s.q.tail ≤ s.q.head + N := by
  obtain ⟨t, ht, hc⟩ := h.at hN s.q.head
  have htail := hc.tail_le
  have hlt := hc.lt_head
  by_contra hgt
  have := add_le_of_mod_eq ht.symm (by omega)
  omega

/-- The number of a cell is close to the counters. -/
theorem Inv.seq_bounds (h : Inv N s) (hN : 2 ≤ N) (p : ℕ) :
    s.q.tail ≤ s.q.seq (p % N) + N ∧ s.q.seq (p % N) ≤ s.q.head + N := by
  obtain ⟨t, ht, hc⟩ := h.at hN p
  have htail := hc.tail_le
  have hhead := hc.lt_head
  rcases hc.state with hf | hf
  · have hseq : s.q.seq (p % N) = t := ht ▸ hf.free
    omega
  · have hseq : s.q.seq (p % N) = t + 1 := ht ▸ hf.full
    omega

/-! ### What the threads read -/

/-- A push that finds a smaller number: `N` items are in the queue, or the oldest is being
taken. -/
theorem Inv.push_full (h : Inv N s) (hN : 2 ≤ N) (hp : p ≤ s.q.tail) (hlt : s.q.seq (p % N) < p) :
    s.q.tail = s.q.head + N ∨ ∃ i t, (s.pc i).reads = some t ∧ t + N = s.q.tail := by
  obtain ⟨t, ht, hc⟩ := h.at hN p
  have htail := hc.tail_le
  have hle := h.tail_le hN
  rcases hc.state with hfree | hfull
  · have hseq : s.q.seq (p % N) = t := ht ▸ hfree.free
    have := add_le_of_mod_eq ht (by omega)
    have := hfree.head_le
    exact .inl (by omega)
  · have hseq : s.q.seq (p % N) = t + 1 := ht ▸ hfull.full
    have := add_le_of_mod_eq ht (by omega)
    rcases Nat.lt_or_ge t s.q.head with hlt' | hge
    · obtain ⟨i, hi⟩ := hfull.reader hlt'
      exact .inr ⟨i, t, hi, by omega⟩
    · exact .inl (by omega)

/-- A push that finds a greater number is late. -/
theorem Inv.push_late (h : Inv N s) (hN : 2 ≤ N) (hp : p ≤ s.q.tail) (hlt : p < s.q.seq (p % N)) :
    p < s.q.tail := by
  obtain ⟨t, ht, hc⟩ := h.at hN p
  have hhead := h.head_le
  have hlt' := hc.lt_head
  rcases hc.state with hfree | hfull
  · have hseq : s.q.seq (p % N) = t := ht ▸ hfree.free
    have := add_le_of_mod_eq ht.symm (by omega)
    omega
  · have hseq : s.q.seq (p % N) = t + 1 := ht ▸ hfull.full
    have := hfull.lt_tail
    omega

/-- A pull that finds a smaller number: the queue is empty, or the oldest item is being put. -/
theorem Inv.pull_empty (h : Inv N s) (hN : 2 ≤ N) (hp : p ≤ s.q.head)
    (hlt : s.q.seq (p % N) < p + 1) :
    s.q.head = s.q.tail ∨ ∃ i, (s.pc i).writes = some s.q.head := by
  obtain ⟨t, ht, hc⟩ := h.at hN p
  have htail := hc.tail_le
  have hhead := h.head_le
  have hcase : t = p ∨ t + N ≤ p := by
    rcases Nat.lt_trichotomy t p with hl | he | hg
    · exact .inr (add_le_of_mod_eq ht hl)
    · exact .inl he
    · have := add_le_of_mod_eq ht.symm hg
      rcases hc.state with hfree | hfull
      · have hseq : s.q.seq (p % N) = t := ht ▸ hfree.free
        omega
      · have hseq : s.q.seq (p % N) = t + 1 := ht ▸ hfull.full
        omega
  rcases hcase with rfl | hle
  · rcases hc.state with hfree | hfull
    · have := hfree.head_le
      obtain rfl : t = s.q.head := by omega
      rcases Nat.lt_or_ge s.q.head s.q.tail with hl | hg
      · exact .inr (hfree.writer hl)
      · exact .inl (by omega)
    · have hseq : s.q.seq (t % N) = t + 1 := hfull.full
      omega
  · exact .inl (by omega)

/-- A pull that finds a greater number is late. -/
theorem Inv.pull_late (h : Inv N s) (hN : 2 ≤ N) (hp : p ≤ s.q.head)
    (hlt : p + 1 < s.q.seq (p % N)) : p < s.q.head := by
  obtain ⟨t, ht, hc⟩ := h.at hN p
  have hlt' := hc.lt_head
  have hpt : p < t := by
    rcases hc.state with hfree | hfull
    · have hseq : s.q.seq (p % N) = t := ht ▸ hfree.free
      omega
    · have hseq : s.q.seq (p % N) = t + 1 := ht ▸ hfull.full
      omega
  have := add_le_of_mod_eq ht.symm hpt
  omega

/-! ### What a thread knows is not spoilt by others -/

variable {pc : Pc α W} {x : α}

theorem PcInv.of_writes (h : PcInv N q pc) (ht : pc.writes = some t) :
    q.Free N t ∧ t < q.tail := by
  cases pc with
  | pushWrite x p =>
    obtain rfl : p = t := Option.some.inj ht
    exact ⟨h.1, (List.getElem?_eq_some_iff.1 h.2).1⟩
  | pushStore x p =>
    obtain rfl : p = t := Option.some.inj ht
    exact ⟨h.1, (List.getElem?_eq_some_iff.1 h.2.1).1⟩
  | _ => exact absurd ht (by simp [Pc.writes])

theorem PcInv.of_reads (h : PcInv N q pc) (ht : pc.reads = some t) :
    q.Full N t ∧ t < q.head := by
  cases pc with
  | pullRead p =>
    obtain rfl : p = t := Option.some.inj ht
    exact h
  | pullStore p v =>
    obtain rfl : p = t := Option.some.inj ht
    exact ⟨h.1, h.2.1⟩
  | _ => exact absurd ht (by simp [Pc.reads])

theorem PcInv.claimPush (h : PcInv N q pc) (x : α) :
    PcInv N { q with items := q.items ++ [x] } pc := by
  have hitem : ∀ {p : ℕ} {v : α}, q.items[p]? = some v → (q.items ++ [x])[p]? = some v := by
    intro p v hv
    rw [List.getElem?_append_left (List.getElem?_eq_some_iff.1 hv).1, hv]
  have htail := q.tail_concat x
  cases pc with
  | pushSeq _ p =>
    simp only [PcInv] at h ⊢
    omega
  | pushCas _ p =>
    simp only [PcInv] at h ⊢
    exact ⟨by omega, fun he => by omega⟩
  | pushWrite _ p => exact ⟨h.1, hitem h.2⟩
  | pushStore _ p => exact ⟨h.1, hitem h.2.1, h.2.2⟩
  | pullStore p v => exact ⟨h.1, h.2.1, hitem h.2.2⟩
  | availHead t =>
    simp only [PcInv] at h ⊢
    omega
  | _ => exact h

theorem PcInv.claimPull (h : PcInv N q pc) : PcInv N { q with head := q.head + 1 } pc := by
  cases pc with
  | pullSeq p => exact Nat.le_succ_of_le h
  | pullCas p =>
    refine ⟨Nat.le_succ_of_le h.1, fun he => ?_⟩
    have hle := h.1
    simp only at he
    omega
  | pullRead p => exact ⟨h.1, Nat.lt_succ_of_lt h.2⟩
  | pullStore p v => exact ⟨h.1, Nat.lt_succ_of_lt h.2.1, h.2.2⟩
  | _ => exact h

theorem PcInv.write (h : PcInv N q pc) (hp : ∀ t, pc.writes = some t → t % N ≠ p % N) (x : α) :
    PcInv N { q with data := update q.data (p % N) x } pc := by
  cases pc with
  | pushStore _ t => exact ⟨h.1, h.2.1, by rw [← h.2.2]; exact update_of_ne (hp t rfl) _ _⟩
  | _ => exact h

/-- The number of a cell changes, which is neither the cell of a thread nor the cell of a counter
that waits for its ticket. -/
theorem PcInv.store {c v : ℕ} (h : PcInv N q pc)
    (hfree : ∀ t, q.Free N t → t % N = c → pc.writes ≠ some t ∧ t ≠ q.tail)
    (hfull : ∀ t, q.Full N t → t % N = c → pc.reads ≠ some t ∧ t ≠ q.head) :
    PcInv N { q with seq := update q.seq c v } pc := by
  have hkeep : ∀ {t : ℕ}, t % N ≠ c → (update q.seq c v) (t % N) = q.seq (t % N) :=
    fun ht => update_of_ne ht _ _
  have hfree' : ∀ {t}, q.Free N t → t % N ≠ c → ({ q with seq := update q.seq c v }).Free N t :=
    fun hq ht => (hkeep ht).trans hq
  have hfull' : ∀ {t}, q.Full N t → t % N ≠ c → ({ q with seq := update q.seq c v }).Full N t :=
    fun hq ht => (hkeep ht).trans hq
  cases pc with
  | pushCas _ t =>
    exact ⟨h.1, fun he => hfree' (h.2 he) fun hc => (hfree t (h.2 he) hc).2 he⟩
  | pushWrite _ t => exact ⟨hfree' h.1 fun hc => (hfree t h.1 hc).1 rfl, h.2⟩
  | pushStore _ t => exact ⟨hfree' h.1 fun hc => (hfree t h.1 hc).1 rfl, h.2⟩
  | pullCas t =>
    exact ⟨h.1, fun he => hfull' (h.2 he) fun hc => (hfull t (h.2 he) hc).2 he⟩
  | pullRead t => exact ⟨hfull' h.1 fun hc => (hfull t h.1 hc).1 rfl, h.2⟩
  | pullStore t _ => exact ⟨hfull' h.1 fun hc => (hfull t h.1 hc).1 rfl, h.2⟩
  | _ => exact h

variable [DecidableEq ι]

/-- A thread moves on; what another thread has for itself it still has. -/
theorem exists_update_iff {f : Pc α W → Option ℕ} {t : ℕ} (hf : f pc = f (s.pc i)) :
    (∃ j, f (s.pc j) = some t) ↔ ∃ j, f (update s.pc i pc j) = some t := by
  have hj : ∀ j, f (update s.pc i pc j) = f (s.pc j) := fun j => by
    by_cases h : j = i
    · subst h; rw [update_self, hf]
    · rw [update_of_ne h]
  simp only [hj]

theorem unique_update {f : Pc α W → Option ℕ}
    (h : ∀ j k t, f (s.pc j) = some t → f (s.pc k) = some t → j = k)
    (hpc : ∀ t, f pc = some t → ∀ j, f (s.pc j) = some t → j = i) :
    ∀ j k t, f (update s.pc i pc j) = some t → f (update s.pc i pc k) = some t → j = k := by
  intro j k t hj hk
  by_cases hji : j = i <;> by_cases hki : k = i
  · rw [hji, hki]
  · subst hji
    rw [update_self] at hj
    rw [update_of_ne hki] at hk
    exact (hpc t hj k hk).symm
  · subst hki
    rw [update_self] at hk
    rw [update_of_ne hji] at hj
    exact hpc t hk j hj
  · rw [update_of_ne hji] at hj
    rw [update_of_ne hki] at hk
    exact h j k t hj hk

/-! ### The steps keep the invariant -/

theorem Inv.move (h : Inv N s) (hpc : PcInv N s.q pc) (hw : pc.writes = (s.pc i).writes)
    (hr : pc.reads = (s.pc i).reads) : Inv N { s with pc := update s.pc i pc } where
  head_le := h.head_le
  cell c hc := by
    obtain ⟨t, ht, hcell⟩ := h.cell c hc
    refine ⟨t, ht, hcell.tail_le, hcell.lt_head, ?_⟩
    rcases hcell.state with hf | hf
    · exact .inl ⟨hf.free, hf.head_le, fun hlt => (exists_update_iff hw).1 (hf.writer hlt)⟩
    · exact .inr ⟨hf.full, hf.item, fun hlt => (exists_update_iff hr).1 (hf.reader hlt)⟩
  thread j := by
    by_cases hj : j = i
    · subst hj; simpa only [update_self] using hpc
    · simpa only [update_of_ne hj] using h.thread j
  one_writer := unique_update h.one_writer fun t ht j hj => h.one_writer j i t hj (hw ▸ ht)
  one_reader := unique_update h.one_reader fun t ht j hj => h.one_reader j i t hj (hr ▸ ht)

/-- A thread that has not this ticket for itself is another thread than the one that moves. -/
theorem exists_update_of_ne {f : Pc α W → Option ℕ} {t : ℕ} (hne : f (s.pc i) ≠ some t)
    (h : ∃ j, f (s.pc j) = some t) : ∃ j, f (update s.pc i pc j) = some t := by
  obtain ⟨j, hj⟩ := h
  refine ⟨j, ?_⟩
  rw [update_of_ne]
  · exact hj
  · rintro rfl
    exact hne hj

theorem Inv.claimPush (h : Inv N s) (hN : 2 ≤ N) (hpc : s.pc i = .pushCas x s.q.tail) :
    Inv N ⟨{ s.q with items := s.q.items ++ [x] }, update s.pc i (.pushWrite x s.q.tail)⟩ := by
  have hfree : s.q.Free N s.q.tail := by
    have := h.thread i
    rw [hpc] at this
    exact this.2 rfl
  have htail := s.q.tail_concat x
  have hw : (s.pc i).writes = none := by rw [hpc]; rfl
  have hr : (s.pc i).reads = none := by rw [hpc]; rfl
  refine ⟨?_, fun c hc => ?_, fun j => ?_, unique_update h.one_writer ?_,
    unique_update h.one_reader ?_⟩
  · dsimp only
    rw [htail]
    exact Nat.le_succ_of_le h.head_le
  · obtain ⟨t, ht, hcell⟩ := h.cell c hc
    have hle : s.q.tail + 1 ≤ t + N := by
      have := hcell.tail_le
      by_contra hgt
      have hmod : t % N = s.q.tail % N := by
        rw [show s.q.tail = t + N by omega, Nat.add_mod_right]
      rcases hcell.state with hf | hf
      · have := hf.free.eq hfree hmod
        omega
      · exact hfree.not_full hN hf.full hmod.symm
    refine ⟨t, ht, by rwa [htail], hcell.lt_head, ?_⟩
    rcases hcell.state with hf | hf
    · refine .inl ⟨hf.free, hf.head_le, fun hlt => ?_⟩
      rw [htail] at hlt
      rcases Nat.lt_succ_iff_lt_or_eq.1 hlt with hlt | rfl
      · exact exists_update_of_ne (by rw [hw]; simp) (hf.writer hlt)
      · exact ⟨i, by dsimp only; rw [update_self]; rfl⟩
    · refine .inr ⟨hf.full, ?_, fun hlt => exists_update_of_ne (by rw [hr]; simp) (hf.reader hlt)⟩
      rw [List.getElem?_append_left hf.lt_tail]
      exact hf.item
  · by_cases hj : j = i
    · subst hj
      simp only [update_self]
      exact ⟨hfree, List.getElem?_concat_length⟩
    · simp only [update_of_ne hj]
      exact (h.thread j).claimPush x
  · intro t ht j hj
    obtain rfl : s.q.tail = t := Option.some.inj ht
    exact absurd ((h.thread j).of_writes hj).2 (lt_irrefl _)
  · intro t ht
    exact absurd ht (by simp [Pc.reads])

theorem Inv.write (h : Inv N s) (hN : 2 ≤ N) (hpc : s.pc i = .pushWrite x p) :
    Inv N ⟨{ s.q with data := update s.q.data (p % N) x }, update s.pc i (.pushStore x p)⟩ := by
  obtain ⟨hfree, hitem⟩ : s.q.Free N p ∧ s.q.items[p]? = some x := by
    have := h.thread i
    rwa [hpc] at this
  have hw : (Pc.pushStore x p : Pc α W).writes = (s.pc i).writes := by rw [hpc]; rfl
  have hr : (Pc.pushStore x p : Pc α W).reads = (s.pc i).reads := by rw [hpc]; rfl
  refine ⟨h.head_le, fun c hc => ?_, fun j => ?_,
    unique_update h.one_writer fun t ht j hj => h.one_writer j i t hj (hw ▸ ht),
    unique_update h.one_reader fun t ht j hj => h.one_reader j i t hj (hr ▸ ht)⟩
  · obtain ⟨t, ht, hcell⟩ := h.cell c hc
    refine ⟨t, ht, hcell.tail_le, hcell.lt_head, ?_⟩
    rcases hcell.state with hf | hf
    · exact .inl ⟨hf.free, hf.head_le, fun hlt => (exists_update_iff hw).1 (hf.writer hlt)⟩
    · refine .inr ⟨hf.full, ?_, fun hlt => (exists_update_iff hr).1 (hf.reader hlt)⟩
      rw [hf.item]
      simp only [update_of_ne (hfree.not_full hN hf.full).symm]
  · by_cases hj : j = i
    · subst hj
      simp only [update_self]
      exact ⟨hfree, hitem, update_self _ _ _⟩
    · simp only [update_of_ne hj]
      refine (h.thread j).write (fun t ht hmod => hj ?_) x
      obtain rfl := ((h.thread j).of_writes ht).1.eq hfree hmod
      exact h.one_writer j i t ht (by rw [hpc]; rfl)

theorem Inv.storePush (h : Inv N s) (hN : 2 ≤ N) (hpc : s.pc i = .pushStore x p) :
    Inv N ⟨{ s.q with seq := update s.q.seq (p % N) (p + 1) },
      update s.pc i (.ret (.push x) (.pushed true))⟩ := by
  obtain ⟨hfree, hitem, hdata⟩ :
      s.q.Free N p ∧ s.q.items[p]? = some x ∧ s.q.data (p % N) = x := by
    have := h.thread i
    rwa [hpc] at this
  have hlt : p < s.q.tail := (List.getElem?_eq_some_iff.1 hitem).1
  have hw : (s.pc i).writes = some p := by rw [hpc]; rfl
  have hr : (s.pc i).reads = none := by rw [hpc]; rfl
  obtain ⟨hcell, hf⟩ := h.of_free hN hfree
  refine ⟨h.head_le, fun c hc => ?_, fun j => ?_, unique_update h.one_writer (by simp [Pc.writes]),
    unique_update h.one_reader (by simp [Pc.reads])⟩
  · by_cases hcp : c = p % N
    · subst hcp
      refine ⟨p, rfl, hcell.tail_le, hcell.lt_head, .inr ⟨update_self _ _ _, ?_, fun hl => ?_⟩⟩
      · simp only [hitem, hdata]
      · exact absurd hl (not_lt.2 hf.head_le)
    · obtain ⟨t, ht, hcellt⟩ := h.cell c hc
      have htp : t % N ≠ p % N := ht ▸ hcp
      have hkeep : update s.q.seq (p % N) (p + 1) (t % N) = s.q.seq (t % N) := update_of_ne htp _ _
      refine ⟨t, ht, hcellt.tail_le, hcellt.lt_head, ?_⟩
      rcases hcellt.state with hft | hft
      · refine .inl ⟨hkeep.trans hft.free, hft.head_le, fun hl => ?_⟩
        refine exists_update_of_ne ?_ (hft.writer hl)
        rw [hw]
        rintro ⟨⟩
        exact htp rfl
      · exact .inr ⟨hkeep.trans hft.full, hft.item, fun hl =>
          exists_update_of_ne (by rw [hr]; simp) (hft.reader hl)⟩
  · by_cases hj : j = i
    · subst hj; simp only [update_self]; trivial
    · simp only [update_of_ne hj]
      refine (h.thread j).store (fun t ht hmod => ?_) fun t ht hmod => ?_
      · obtain rfl := ht.eq hfree hmod
        exact ⟨fun hwj => hj (h.one_writer j i t hwj hw), hlt.ne⟩
      · exact absurd hmod.symm (hfree.not_full hN ht)

theorem Inv.claimPull (h : Inv N s) (hN : 2 ≤ N) (hpc : s.pc i = .pullCas s.q.head) :
    Inv N ⟨{ s.q with head := s.q.head + 1 }, update s.pc i (.pullRead s.q.head)⟩ := by
  have hfull : s.q.Full N s.q.head := by
    have := h.thread i
    rw [hpc] at this
    exact this.2 rfl
  have hw : (s.pc i).writes = none := by rw [hpc]; rfl
  have hr : (s.pc i).reads = none := by rw [hpc]; rfl
  refine ⟨(h.of_full hN hfull).2.lt_tail, fun c hc => ?_, fun j => ?_,
    unique_update h.one_writer (by simp [Pc.writes]), unique_update h.one_reader ?_⟩
  · obtain ⟨t, ht, hcell⟩ := h.cell c hc
    refine ⟨t, ht, hcell.tail_le, by have := hcell.lt_head; dsimp only; omega, ?_⟩
    rcases hcell.state with hf | hf
    · refine .inl ⟨hf.free, lt_of_le_of_ne hf.head_le ?_, fun hl =>
        exists_update_of_ne (by rw [hw]; simp) (hf.writer hl)⟩
      rintro rfl
      exact hf.free.not_full hN hfull rfl
    · refine .inr ⟨hf.full, hf.item, fun hl => ?_⟩
      rcases Nat.lt_succ_iff_lt_or_eq.1 hl with hl | rfl
      · exact exists_update_of_ne (by rw [hr]; simp) (hf.reader hl)
      · exact ⟨i, by dsimp only; rw [update_self]; rfl⟩
  · by_cases hj : j = i
    · subst hj
      simp only [update_self]
      exact ⟨hfull, Nat.lt_succ_self _⟩
    · simp only [update_of_ne hj]
      exact (h.thread j).claimPull
  · intro t ht j hj
    obtain rfl : s.q.head = t := Option.some.inj ht
    exact absurd ((h.thread j).of_reads hj).2 (lt_irrefl _)

theorem Inv.storePull {v : α} (h : Inv N s) (hN : 2 ≤ N) (hpc : s.pc i = .pullStore p v) :
    Inv N ⟨{ s.q with seq := update s.q.seq (p % N) (p + N) },
      update s.pc i (.ret .pull (.pulled (some v)))⟩ := by
  obtain ⟨hfull, hlt, -⟩ : s.q.Full N p ∧ p < s.q.head ∧ s.q.items[p]? = some v := by
    have := h.thread i
    rwa [hpc] at this
  have hw : (s.pc i).writes = none := by rw [hpc]; rfl
  have hr : (s.pc i).reads = some p := by rw [hpc]; rfl
  obtain ⟨hcell, -⟩ := h.of_full hN hfull
  refine ⟨h.head_le, fun c hc => ?_, fun j => ?_, unique_update h.one_writer (by simp [Pc.writes]),
    unique_update h.one_reader (by simp [Pc.reads])⟩
  · by_cases hcp : c = p % N
    · subst hcp
      have htail := hcell.tail_le
      have hhead := h.head_le
      refine ⟨p + N, Nat.add_mod_right p N, by dsimp only [Queue.tail] at htail ⊢; omega,
        by dsimp only; omega, .inl ⟨?_, by dsimp only; omega, fun hl => ?_⟩⟩
      · rw [Queue.Free, Nat.add_mod_right]
        exact update_self _ _ _
      · exact absurd htail (not_le.2 hl)
    · obtain ⟨t, ht, hcellt⟩ := h.cell c hc
      have htp : t % N ≠ p % N := ht ▸ hcp
      have hkeep : update s.q.seq (p % N) (p + N) (t % N) = s.q.seq (t % N) := update_of_ne htp _ _
      refine ⟨t, ht, hcellt.tail_le, hcellt.lt_head, ?_⟩
      rcases hcellt.state with hft | hft
      · exact .inl ⟨hkeep.trans hft.free, hft.head_le, fun hl =>
          exists_update_of_ne (by rw [hw]; simp) (hft.writer hl)⟩
      · refine .inr ⟨hkeep.trans hft.full, hft.item, fun hl => ?_⟩
        refine exists_update_of_ne ?_ (hft.reader hl)
        rw [hr]
        rintro ⟨⟩
        exact htp rfl
  · by_cases hj : j = i
    · subst hj; simp only [update_self]; trivial
    · simp only [update_of_ne hj]
      refine (h.thread j).store (fun t ht hmod => ?_) fun t ht hmod => ?_
      · exact absurd hmod (ht.not_full hN hfull)
      · obtain rfl := ht.eq hfull hmod
        exact ⟨fun hrj => hj (h.one_reader j i t hrj hr), hlt.ne⟩

omit [DecidableEq ι] in
/-- The empty ring meets the invariant. -/
theorem Inv.init (N : ℕ) (data : ℕ → α) : Inv N (State.init data : State ι α W) where
  head_le := Nat.le_refl 0
  cell c hc := by
    refine ⟨c, Nat.mod_eq_of_lt hc, Nat.zero_le _, by simpa [State.init] using hc,
      .inl ⟨?_, ?_, ?_⟩⟩
    · exact Nat.mod_eq_of_lt hc
    · exact Nat.zero_le _
    · exact fun hlt => absurd hlt (Nat.not_lt_zero c)
  thread _ := trivial
  one_writer := by simp [State.init, Pc.writes]
  one_reader := by simp [State.init, Pc.reads]

/-- **One step of the system keeps the invariant.** -/
theorem Inv.step {enc : ℤ → W} {a : Act ι α} (h : Inv N s) (hN : 2 ≤ N) (hs : Step N enc s a s') :
    Inv N s' := by
  cases hs with
  | @call i o hi =>
    refine h.move ?_ ?_ ?_
    · cases o <;> trivial
    · rw [hi]; cases o <;> rfl
    · rw [hi]; cases o <;> rfl
  | @ret i o r hi => exact h.move trivial (by rw [hi]; rfl) (by rw [hi]; rfl)
  | @step i spurious q pc hn =>
    have hpc := h.thread i
    generalize hi : s.pc i = pc₀ at hn hpc
    have hw : (s.pc i).writes = pc₀.writes := by rw [hi]
    have hr : (s.pc i).reads = pc₀.reads := by rw [hi]
    generalize hq : s.q = q₀ at hn
    cases hn with
    | pushLoad => subst hq; exact h.move (Nat.le_refl _) hw.symm hr.symm
    | pushReady hseq =>
      subst hq
      exact h.move ⟨hpc, fun _ => hseq⟩ hw.symm hr.symm
    | pushFull => subst hq; exact h.move trivial hw.symm hr.symm
    | pushLate => subst hq; exact h.move trivial hw.symm hr.symm
    | pushClaim hp => subst hq hp; exact h.claimPush hN hi
    | pushRetry => subst hq; exact h.move (Nat.le_refl _) hw.symm hr.symm
    | pushWrite => subst hq; exact h.write hN hi
    | pushStore => subst hq; exact h.storePush hN hi
    | pullLoad => subst hq; exact h.move (Nat.le_refl _) hw.symm hr.symm
    | pullReady hseq =>
      subst hq
      exact h.move ⟨hpc, fun _ => hseq⟩ hw.symm hr.symm
    | pullEmpty => subst hq; exact h.move trivial hw.symm hr.symm
    | pullLate => subst hq; exact h.move trivial hw.symm hr.symm
    | pullClaim hp => subst hq hp; exact h.claimPull hN hi
    | pullRetry => subst hq; exact h.move (Nat.le_refl _) hw.symm hr.symm
    | pullRead =>
      subst hq
      exact h.move ⟨hpc.1, hpc.2, (h.of_full hN hpc.1).2.item⟩ hw.symm hr.symm
    | pullStore => subst hq; exact h.storePull hN hi
    | availTail => subst hq; exact h.move (Nat.le_refl _) hw.symm hr.symm
    | availHead => subst hq; exact h.move trivial hw.symm hr.symm

end TicketQueue
