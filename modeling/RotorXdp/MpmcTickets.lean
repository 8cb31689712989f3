import RotorXdp.MpmcQueue

/-!
# The packet queue and its tickets

The wrapping 64-bit counters of the packet queue behave like the tickets of a queue that never wrap,
as long as no thread sleeps for `2 ^ 62` calls.

* `word`: where a thread is, with its ticket cut to 64 bits;
* `QueueTickets`, `Tickets`: the queue, the queue with its threads, as a ticket queue;
* `Tickets.step`: every step of the packet queue is a step of the ticket queue;
* `mpmcQueueInit_ok`: what `mpmc_queue_init` leaves behind.
-/

namespace RotorXdp

open Function Fifo
open TicketQueue (Act)

variable {ι α : Type*}

/-- Where a thread is, with its ticket cut to 64 bits. -/
def word : TicketQueue.Pc α (BitVec 64) → MpmcPc α
  | .idle => .idle
  | .pushLoad x => .pushTail x
  | .pushSeq x p => .pushSequence x (BitVec.ofNat 64 p)
  | .pushCas x p => .pushCas x (BitVec.ofNat 64 p)
  | .pushWrite x p => .pushData x (BitVec.ofNat 64 p)
  | .pushStore x p => .pushRelease x (BitVec.ofNat 64 p)
  | .pullLoad => .pullHead
  | .pullSeq p => .pullSequence (BitVec.ofNat 64 p)
  | .pullCas p => .pullCas (BitVec.ofNat 64 p)
  | .pullRead p => .pullData (BitVec.ofNat 64 p)
  | .pullStore p v => .pullRelease (BitVec.ofNat 64 p) v
  | .availTail => .availableTail
  | .availHead t => .availableHead (BitVec.ofNat 64 t)
  | .ret o r => .ret o r

/-- The counter has moved by at most `2 ^ 62` since the thread has read it. -/
def Near (q : TicketQueue.Queue α) : TicketQueue.Pc α (BitVec 64) → Prop
  | .pushSeq _ p => q.tail ≤ p + 2 ^ 62
  | .pushCas _ p => q.tail ≤ p + 2 ^ 62
  | .pullSeq p => q.head ≤ p + 2 ^ 62
  | .pullCas p => q.head ≤ p + 2 ^ 62
  | _ => True

/-- The queue has the counters and the cells of `a`, cut to 64 bits. -/
structure QueueTickets (k : ℕ) (q : MpmcQueue α) (a : TicketQueue.Queue α) : Prop where
  mask : q.bufferMask = BitVec.ofNat 64 (2 ^ k - 1)
  tail : q.tail = BitVec.ofNat 64 a.tail
  head : q.head = BitVec.ofNat 64 a.head
  sequence : ∀ c < 2 ^ k, (q.buffer c).sequence = BitVec.ofNat 64 (a.seq c)
  data : ∀ c < 2 ^ k, (q.buffer c).data = a.data c

structure Tickets (k : ℕ) (s : Mpmc ι α) (a : TicketQueue.State ι α (BitVec 64)) : Prop where
  queue : QueueTickets k s.q a.q
  pc : ∀ i, s.pc i = word (a.pc i)
  near : ∀ i, Near a.q (a.pc i)

/-! ### Words -/

variable {k p a b : ℕ}

theorem toInt_ofNat_sub (h : a < b + 2 ^ 63) (h' : b < a + 2 ^ 63) :
    (BitVec.ofNat 64 a - BitVec.ofNat 64 b).toInt = (a : ℤ) - (b : ℤ) := by
  rw [BitVec.toInt_sub, BitVec.toInt_ofNat', BitVec.toInt_ofNat', ← Int.sub_bmod]
  exact Int.bmod_eq_of_le (by omega) (by omega)

theorem toNat_ofNat_sub64 (h : b ≤ a) (h' : a < b + 2 ^ 64) :
    (BitVec.ofNat 64 a - BitVec.ofNat 64 b).toNat = a - b := by
  simp only [BitVec.toNat_sub, BitVec.toNat_ofNat]
  omega

theorem ofNat_eq_iff (h : b ≤ a) (h' : a < b + 2 ^ 64) :
    BitVec.ofNat 64 a = BitVec.ofNat 64 b ↔ a = b := by
  refine ⟨fun he => ?_, fun he => by rw [he]⟩
  have hsub := toNat_ofNat_sub64 h h'
  rw [he, BitVec.sub_self] at hsub
  simp only [BitVec.toNat_zero] at hsub
  omega

theorem ofInt_sub_natCast (t h : ℕ) :
    BitVec.ofInt 64 ((t : ℤ) - (h : ℤ)) = BitVec.ofNat 64 t - BitVec.ofNat 64 h := by
  apply BitVec.eq_of_toInt_eq
  rw [BitVec.toInt_sub, BitVec.toInt_ofNat', BitVec.toInt_ofNat', ← Int.sub_bmod,
    BitVec.toInt_ofInt]

theorem toNat_and_mask (hk : k ≤ 59) (p : ℕ) :
    (BitVec.ofNat 64 p &&& BitVec.ofNat 64 (2 ^ k - 1)).toNat = p % 2 ^ k := by
  have hlt : 2 ^ k - 1 < 2 ^ 64 := by
    have := Nat.pow_le_pow_right (n := 2) (by decide) (show k ≤ 64 by omega)
    omega
  have hdvd : 2 ^ k ∣ 2 ^ 64 := pow_dvd_pow 2 (by omega)
  rw [BitVec.toNat_and, BitVec.toNat_ofNat, BitVec.toNat_ofNat, Nat.mod_eq_of_lt hlt,
    Nat.and_two_pow_sub_one_eq_mod, Nat.mod_mod_of_dvd _ hdvd]

/-! ### One step of a thread -/

variable {q q' : MpmcQueue α} {aq : TicketQueue.Queue α}

theorem QueueTickets.index_eq (h : QueueTickets k q aq) (hk : k ≤ 59) (p : ℕ) :
    q.index (BitVec.ofNat 64 p) = p % 2 ^ k := by
  rw [MpmcQueue.index, h.mask, toNat_and_mask hk]

theorem QueueTickets.sequence_eq (h : QueueTickets k q aq) (hk : k ≤ 59) (p : ℕ) :
    (q.cell (BitVec.ofNat 64 p)).sequence = BitVec.ofNat 64 (aq.seq (p % 2 ^ k)) := by
  rw [MpmcQueue.cell, h.index_eq hk]
  exact h.sequence _ (Nat.mod_lt _ (Nat.two_pow_pos k))

theorem QueueTickets.data_eq (h : QueueTickets k q aq) (hk : k ≤ 59) (p : ℕ) :
    (q.cell (BitVec.ofNat 64 p)).data = aq.data (p % 2 ^ k) := by
  rw [MpmcQueue.cell, h.index_eq hk]
  exact h.data _ (Nat.mod_lt _ (Nat.two_pow_pos k))

theorem QueueTickets.setSequence (h : QueueTickets k q aq) (hk : k ≤ 59) (p v : ℕ) :
    QueueTickets k (q.setCell (BitVec.ofNat 64 p)
        { q.cell (BitVec.ofNat 64 p) with sequence := BitVec.ofNat 64 v })
      { aq with seq := update aq.seq (p % 2 ^ k) v } where
  mask := h.mask
  tail := h.tail
  head := h.head
  sequence c hc := by
    simp only [MpmcQueue.setCell, h.index_eq hk]
    by_cases hcp : c = p % 2 ^ k
    · subst hcp; simp only [update_self]
    · simp only [update_of_ne hcp]
      exact h.sequence c hc
  data c hc := by
    simp only [MpmcQueue.setCell, h.index_eq hk]
    by_cases hcp : c = p % 2 ^ k
    · subst hcp; simp only [update_self]; exact h.data_eq hk p
    · simp only [update_of_ne hcp]
      exact h.data c hc

theorem QueueTickets.setData (h : QueueTickets k q aq) (hk : k ≤ 59) (p : ℕ) (x : α) :
    QueueTickets k (q.setCell (BitVec.ofNat 64 p) { q.cell (BitVec.ofNat 64 p) with data := x })
      { aq with data := update aq.data (p % 2 ^ k) x } where
  mask := h.mask
  tail := h.tail
  head := h.head
  sequence c hc := by
    simp only [MpmcQueue.setCell, h.index_eq hk]
    by_cases hcp : c = p % 2 ^ k
    · subst hcp; simp only [update_self]; exact h.sequence_eq hk p
    · simp only [update_of_ne hcp]
      exact h.sequence c hc
  data c hc := by
    simp only [MpmcQueue.setCell, h.index_eq hk]
    by_cases hcp : c = p % 2 ^ k
    · subst hcp; simp only [update_self]
    · simp only [update_of_ne hcp]
      exact h.data c hc

/-- The numbers that a thread compares are close. -/
structure Close (k : ℕ) (a : TicketQueue.Queue α) : Prop where
  head_le : a.head ≤ a.tail
  tail_le : a.tail ≤ a.head + 2 ^ k
  seq : ∀ p, a.tail ≤ a.seq (p % 2 ^ k) + 2 ^ k ∧ a.seq (p % 2 ^ k) ≤ a.head + 2 ^ k

variable {pc : TicketQueue.Pc α (BitVec 64)} {pc' : MpmcPc α} {spurious : Bool}

theorem one_word (p : ℕ) : BitVec.ofNat 64 p + 1#64 = BitVec.ofNat 64 (p + 1) := by
  rw [BitVec.ofNat_add]

theorem QueueTickets.release_word (h : QueueTickets k q aq) (p : ℕ) :
    BitVec.ofNat 64 p + q.bufferMask + 1#64 = BitVec.ofNat 64 (p + 2 ^ k) := by
  have := Nat.two_pow_pos k
  rw [h.mask, ← BitVec.ofNat_add, one_word]
  congr 1
  omega

/-- The loop of `mpmc_queue_push` compares the numbers of the tickets. -/
theorem push_diff (h : QueueTickets k q aq) (hk : k ≤ 59) (hc : Close k aq) {p : ℕ}
    (hp : p ≤ aq.tail) (hn : aq.tail ≤ p + 2 ^ 62) :
    ((q.cell (BitVec.ofNat 64 p)).sequence - BitVec.ofNat 64 p).toInt =
      (aq.seq (p % 2 ^ k) : ℤ) - (p : ℤ) := by
  have hpow := Nat.pow_le_pow_right (n := 2) (by decide) hk
  have hhead := hc.head_le
  obtain ⟨h₁, h₂⟩ := hc.seq p
  rw [h.sequence_eq hk, toInt_ofNat_sub (by omega) (by omega)]

theorem pull_diff (h : QueueTickets k q aq) (hk : k ≤ 59) (hc : Close k aq) {p : ℕ}
    (hp : p ≤ aq.head) (hn : aq.head ≤ p + 2 ^ 62) :
    ((q.cell (BitVec.ofNat 64 p)).sequence - (BitVec.ofNat 64 p + 1#64)).toInt =
      (aq.seq (p % 2 ^ k) : ℤ) - ((p + 1 : ℕ) : ℤ) := by
  have hpow := Nat.pow_le_pow_right (n := 2) (by decide) hk
  have hhead := hc.head_le
  obtain ⟨h₁, h₂⟩ := hc.seq p
  rw [one_word, h.sequence_eq hk, toInt_ofNat_sub (by omega) (by omega)]

/-- **One step of a thread** of the packet queue is one step of a thread of the ticket queue. -/
theorem QueueTickets.next (h : QueueTickets k q aq) (hk : k ≤ 59) (hc : Close k aq)
    (hpc : TicketQueue.PcInv (2 ^ k) aq pc) (hn : Near aq pc)
    (hs : q.next spurious (word pc) = some (q', pc')) :
    ∃ aq' apc', TicketQueue.Next (2 ^ k) (BitVec.ofInt 64) spurious aq pc aq' apc' ∧
      QueueTickets k q' aq' ∧ pc' = word apc' := by
  cases pc with
  | idle => exact absurd hs (by simp [word, MpmcQueue.next])
  | ret o r => exact absurd hs (by simp [word, MpmcQueue.next])
  | pushLoad x =>
    simp only [word, MpmcQueue.next, Option.some.injEq, Prod.mk.injEq] at hs
    obtain ⟨rfl, rfl⟩ := hs
    exact ⟨aq, _, .pushLoad, h, by rw [h.tail]; rfl⟩
  | pushSeq x p =>
    simp only [word, MpmcQueue.next, push_diff h hk hc hpc hn] at hs
    split at hs
    · rename_i hd
      cases hs
      exact ⟨aq, _, .pushReady (by omega), h, rfl⟩
    · split at hs
      · rename_i hd
        cases hs
        exact ⟨aq, _, .pushFull (by omega), h, rfl⟩
      · cases hs
        exact ⟨aq, _, .pushLate (by omega), h, rfl⟩
  | pushCas x p =>
    have heq := ofNat_eq_iff (a := aq.tail) (b := p) hpc.1 (by have : _ ≤ _ := hn; omega)
    simp only [word, MpmcQueue.next, h.tail, heq] at hs
    split at hs
    · rename_i hd
      obtain ⟨rfl, -⟩ := hd
      cases hs
      refine ⟨_, _, .pushClaim rfl, ⟨h.mask, ?_, h.head, h.sequence, h.data⟩, rfl⟩
      rw [TicketQueue.Queue.tail_concat]
      exact one_word _
    · rename_i hd
      cases hs
      refine ⟨aq, _, .pushRetry ?_, h, rfl⟩
      cases spurious with
      | true => exact .inl rfl
      | false => exact .inr fun he => hd ⟨he, rfl⟩
  | pushWrite x p =>
    simp only [word, MpmcQueue.next, Option.some.injEq, Prod.mk.injEq] at hs
    obtain ⟨rfl, rfl⟩ := hs
    exact ⟨_, _, .pushWrite, h.setData hk p x, rfl⟩
  | pushStore x p =>
    simp only [word, MpmcQueue.next, Option.some.injEq, Prod.mk.injEq] at hs
    obtain ⟨rfl, rfl⟩ := hs
    refine ⟨_, _, .pushStore, ?_, rfl⟩
    rw [one_word]
    exact h.setSequence hk p (p + 1)
  | pullLoad =>
    simp only [word, MpmcQueue.next, Option.some.injEq, Prod.mk.injEq] at hs
    obtain ⟨rfl, rfl⟩ := hs
    exact ⟨aq, _, .pullLoad, h, by rw [h.head]; rfl⟩
  | pullSeq p =>
    simp only [word, MpmcQueue.next, pull_diff h hk hc hpc hn] at hs
    split at hs
    · rename_i hd
      cases hs
      exact ⟨aq, _, .pullReady (by omega), h, rfl⟩
    · split at hs
      · rename_i hd
        cases hs
        exact ⟨aq, _, .pullEmpty (by omega), h, rfl⟩
      · cases hs
        exact ⟨aq, _, .pullLate (by omega), h, rfl⟩
  | pullCas p =>
    have heq := ofNat_eq_iff (a := aq.head) (b := p) hpc.1 (by have : _ ≤ _ := hn; omega)
    simp only [word, MpmcQueue.next, h.head, heq] at hs
    split at hs
    · rename_i hd
      obtain ⟨rfl, -⟩ := hd
      cases hs
      exact ⟨_, _, .pullClaim rfl, ⟨h.mask, h.tail, one_word _, h.sequence, h.data⟩, rfl⟩
    · rename_i hd
      cases hs
      refine ⟨aq, _, .pullRetry ?_, h, rfl⟩
      cases spurious with
      | true => exact .inl rfl
      | false => exact .inr fun he => hd ⟨he, rfl⟩
  | pullRead p =>
    simp only [word, MpmcQueue.next, Option.some.injEq, Prod.mk.injEq] at hs
    obtain ⟨rfl, rfl⟩ := hs
    exact ⟨aq, _, .pullRead, h, by rw [h.data_eq hk]; rfl⟩
  | pullStore p v =>
    simp only [word, MpmcQueue.next, Option.some.injEq, Prod.mk.injEq] at hs
    obtain ⟨rfl, rfl⟩ := hs
    refine ⟨_, _, .pullStore, ?_, rfl⟩
    rw [h.release_word]
    exact h.setSequence hk p (p + 2 ^ k)
  | availTail =>
    simp only [word, MpmcQueue.next, Option.some.injEq, Prod.mk.injEq] at hs
    obtain ⟨rfl, rfl⟩ := hs
    exact ⟨aq, _, .availTail, h, by rw [h.tail]; rfl⟩
  | availHead t =>
    simp only [word, MpmcQueue.next, Option.some.injEq, Prod.mk.injEq] at hs
    obtain ⟨rfl, rfl⟩ := hs
    exact ⟨aq, _, .availHead, h, by rw [h.head, word, ofInt_sub_natCast]⟩

/-! ### One step of the system -/

variable {s t : Mpmc ι α} {as : TicketQueue.State ι α (BitVec 64)} {act : Act ι α}

theorem close_of_inv (h : TicketQueue.Inv (2 ^ k) as) (hN : 2 ≤ 2 ^ k) : Close k as.q :=
  ⟨h.head_le, h.tail_le hN, h.seq_bounds hN⟩

/-- A thread that moves on has just read the counter, or has read it before. -/
theorem near_next {aq' : TicketQueue.Queue α} {apc' : TicketQueue.Pc α (BitVec 64)}
    (h : TicketQueue.Next (2 ^ k) (BitVec.ofInt 64) spurious aq pc aq' apc') (hn : Near aq pc) :
    Near aq' apc' := by
  cases h with
  | pushLoad | pushRetry | pullLoad | pullRetry => exact Nat.le_add_right _ _
  | pushReady | pullReady => exact hn
  | _ => trivial

/-- A thread that has been awake lately is still near when another takes a ticket. -/
theorem near_of_fresh {aq' : TicketQueue.Queue α} (h : QueueTickets k q aq)
    (hf : (word pc).Fresh q) (hpc : TicketQueue.PcInv (2 ^ k) aq pc) (hn : Near aq pc)
    (htail : aq'.tail ≤ aq.tail + 1) (hhead : aq'.head ≤ aq.head + 1) : Near aq' pc := by
  cases pc with
  | pushSeq x p =>
    simp only [Near, TicketQueue.PcInv, word, MpmcPc.Fresh, h.tail] at hn hpc hf ⊢
    rw [toNat_ofNat_sub64 hpc (by omega)] at hf
    omega
  | pushCas x p =>
    simp only [Near, TicketQueue.PcInv, word, MpmcPc.Fresh, h.tail] at hn hpc hf ⊢
    rw [toNat_ofNat_sub64 hpc.1 (by omega)] at hf
    omega
  | pullSeq p =>
    simp only [Near, TicketQueue.PcInv, word, MpmcPc.Fresh, h.head] at hn hpc hf ⊢
    rw [toNat_ofNat_sub64 hpc (by omega)] at hf
    omega
  | pullCas p =>
    simp only [Near, TicketQueue.PcInv, word, MpmcPc.Fresh, h.head] at hn hpc hf ⊢
    rw [toNat_ofNat_sub64 hpc.1 (by omega)] at hf
    omega
  | _ => trivial

theorem word_start (o : Op α) : word (.start o) = MpmcPc.enter o := by
  cases o <;> rfl

theorem near_start (q : TicketQueue.Queue α) (o : Op α) : Near q (.start o) := by
  cases o <;> trivial

theorem word_eq_idle (h : word pc = .idle) : pc = .idle := by
  cases pc <;> first | rfl | exact absurd h (by simp [word])

theorem word_eq_ret {o : Op α} {r : Res α (BitVec 64)} (h : word pc = .ret o r) :
    pc = .ret o r := by
  cases pc with
  | ret o' r' => simpa [word] using h
  | _ => exact absurd h (by simp [word])

/-- What is seen of a step is what is seen of it on the ticket queue. -/
theorem Tickets.event_eq (h : Tickets k s as) (act : Act ι α) :
    s.event act = TicketQueue.event as act := by
  cases act with
  | call i o => rfl
  | step i spurious => rfl
  | ret i =>
    simp only [Mpmc.event, TicketQueue.event, h.pc i]
    cases as.pc i <;> rfl

variable [DecidableEq ι]

/-- A thread moves on, alone. -/
theorem Tickets.move {i : ι} {q : MpmcQueue α} {aq : TicketQueue.Queue α}
    {apc : TicketQueue.Pc α (BitVec 64)} (h : Tickets k s as) (hq : QueueTickets k q aq)
    (hi : Near aq apc) (hne : ∀ j, j ≠ i → Near aq (as.pc j)) :
    Tickets k ⟨q, update s.pc i (word apc)⟩ ⟨aq, update as.pc i apc⟩ where
  queue := hq
  pc j := by
    by_cases hj : j = i
    · subst hj; simp only [update_self]
    · simp only [update_of_ne hj]
      exact h.pc j
  near j := by
    by_cases hj : j = i
    · subst hj; simpa only [update_self] using hi
    · simpa only [update_of_ne hj] using hne j hj

/-- **Every step of the packet queue is a step of the ticket queue**, if no thread sleeps too
long. -/
theorem Tickets.step (h : Tickets k s as) (hI : TicketQueue.Inv (2 ^ k) as) (hN : 2 ≤ 2 ^ k)
    (hk : k ≤ 59) (hf : s.Fresh) (hs : s.step act = some t) :
    ∃ bs, TicketQueue.Step (2 ^ k) (BitVec.ofInt 64) as act bs ∧ Tickets k t bs := by
  cases act with
  | call i o =>
    simp only [Mpmc.step] at hs
    split at hs
    · rename_i hi
      cases hs
      rw [h.pc] at hi
      refine ⟨_, .call (word_eq_idle hi), ?_⟩
      rw [← word_start]
      exact h.move h.queue (near_start _ o) fun j _ => h.near j
    · exact absurd hs (by simp)
  | ret i =>
    simp only [Mpmc.step] at hs
    split at hs
    · rename_i o r hi
      cases hs
      rw [h.pc] at hi
      have hidle : Near as.q .idle := trivial
      exact ⟨_, .ret (word_eq_ret hi), h.move h.queue hidle fun j _ => h.near j⟩
    · exact absurd hs (by simp)
  | step i spurious =>
    simp only [Mpmc.step, h.pc] at hs
    obtain ⟨⟨q', pc'⟩, hnext, rfl⟩ := Option.map_eq_some_iff.1 hs
    obtain ⟨aq', apc', hn, hq', rfl⟩ :=
      h.queue.next hk (close_of_inv hI hN) (hI.thread i) (h.near i) hnext
    have htk := hn.tickets
    unfold TicketQueue.Queue.tickets at htk
    refine ⟨_, .step hn, h.move hq' (near_next hn (h.near i)) fun j _ => ?_⟩
    have hfj := hf j
    rw [h.pc] at hfj
    exact near_of_fresh h.queue hfj (hI.thread j) (h.near j) (by omega) (by omega)

/-! ### The initial queue -/

theorem size_eq_two_pow {size : BitVec 64} (h2 : ¬ size < 2#64)
    (hand : size &&& (size - 1#64) = 0#64) (hsize : size.toNat < 2 ^ 60) :
    ∃ k, 2 ≤ 2 ^ k ∧ k ≤ 59 ∧ size.toNat = 2 ^ k := by
  have hge : 2 ≤ size.toNat := Nat.le_of_not_lt fun hlt => h2 (BitVec.lt_def.2 hlt)
  have hsub : (size - 1#64).toNat = size.toNat - 1 := by
    rw [BitVec.toNat_sub_of_le (by rw [BitVec.le_def]; exact le_trans (by decide) hge)]
    rfl
  have hpow : size.toNat.isPowerOfTwo := by
    rw [← Nat.and_sub_one_eq_zero_iff_isPowerOfTwo (by omega), ← hsub, ← BitVec.toNat_and, hand]
    rfl
  obtain ⟨k, hk⟩ := hpow
  refine ⟨k, hk ▸ hge, ?_, hk⟩
  by_contra hgt
  have := Nat.pow_le_pow_right (n := 2) (by decide) (show 60 ≤ k by omega)
  omega

omit [DecidableEq ι] in
/-- `mpmc_queue_init` leaves an empty queue of `2 ^ k` cells behind. -/
theorem mpmcQueueInit_ok {alloc : BitVec 64 → Option (ℕ → MpmcQueueCell α)} {size : BitVec 64}
    (h : mpmcQueueInit alloc size = .ok q) (hsize : size.toNat < 2 ^ 60) :
    ∃ k, 2 ≤ 2 ^ k ∧ k ≤ 59 ∧ size.toNat = 2 ^ k ∧
      Tickets k (Mpmc.start q : Mpmc ι α) (.init fun c => (q.buffer c).data) := by
  unfold mpmcQueueInit at h
  split at h
  · exact absurd h (by simp)
  · rename_i hok
    split at h
    · exact absurd h (by simp)
    · rename_i memory _
      cases h
      rw [not_or, not_not] at hok
      obtain ⟨k, h2, hk, hpow⟩ := size_eq_two_pow hok.1 hok.2 hsize
      have hone : size - 1#64 = BitVec.ofNat 64 (2 ^ k - 1) := by
        rw [← hpow]
        apply BitVec.eq_of_toNat_eq
        rw [BitVec.toNat_sub_of_le (by rw [BitVec.le_def, hpow]; exact le_trans (by decide) h2),
          BitVec.toNat_ofNat]
        have := size.isLt
        exact (Nat.mod_eq_of_lt (by omega)).symm
      refine ⟨k, h2, hk, hpow, ⟨hone, rfl, rfl, fun c hc => ?_, fun _ _ => rfl⟩, fun _ => rfl,
        fun _ => trivial⟩
      exact initCells_of_lt memory (hpow ▸ hc)

end RotorXdp
