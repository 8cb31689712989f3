import RotorXdp.MpmcTickets
import Mathlib.Algebra.BigOperators.Group.List.Basic

/-!
# What the packet queue guarantees

Runs of the packet queue from `mpmc_queue_init` on, with any number of threads, in which no thread
sleeps in its loop for `2 ^ 62` calls of the others.

* `mpmc_linearizable`: the calls behave like those of an atomic queue, which may refuse a push while
  an item is being taken, and find nothing while an item is being put;
* `mpmc_one_consumer`: with one consumer the capacity and the length are exact;
* `mpmc_consumer_order`: what the consumer gets, and what each producer has put;
* `mpmc_one_holder`: no two threads have a cell for themselves at once;
* `mpmc_steps_le`: how many steps the calls of a thread take.
-/

namespace RotorXdp

open Function Fifo Atomic Runs
open TicketQueue (Act)

variable {ι α : Type*} {k : ℕ}

/-- The state as a ticket queue that meets its invariant. -/
def MpmcInv (k : ℕ) (s : Mpmc ι α) (as : TicketQueue.State ι α (BitVec 64)) : Prop :=
  Tickets k s as ∧ TicketQueue.Inv (2 ^ k) as

/-- The counters that a step has moved. -/
def Mpmc.moved (s t : Mpmc ι α) : ℕ :=
  (if t.q.tail = s.q.tail then 0 else 1) + (if t.q.head = s.q.head then 0 else 1)

variable [DecidableEq ι]

/-- How often the counters move along a run: each time some thread gets its compare-and-swap. -/
def Mpmc.moves : Mpmc ι α → List (Act ι α) → ℕ
  | _, [] => 0
  | s, a :: as => ((s.step a).map fun t => s.moved t + t.moves as).getD 0

variable {s t : Mpmc ι α} {as : TicketQueue.State ι α (BitVec 64)} {act : Act ι α}

theorem MpmcInv.step (h : MpmcInv k s as) (hN : 2 ≤ 2 ^ k) (hk : k ≤ 59) (hf : s.Fresh)
    (hs : s.step act = some t) :
    ∃ bs, TicketQueue.Step (2 ^ k) (BitVec.ofInt 64) as act bs ∧ MpmcInv k t bs := by
  obtain ⟨bs, hstep, ht⟩ := h.1.step h.2 hN hk hf hs
  exact ⟨bs, hstep, ht, h.2.step hN hstep⟩

omit [DecidableEq ι] in
theorem MpmcInv.start {alloc : BitVec 64 → Option (ℕ → MpmcQueueCell α)} {size : BitVec 64}
    {q : MpmcQueue α} (h : mpmcQueueInit alloc size = .ok q) (hsize : size.toNat < 2 ^ 60) :
    ∃ k, 2 ≤ 2 ^ k ∧ k ≤ 59 ∧ size.toNat = 2 ^ k ∧
      MpmcInv k (Mpmc.start q : Mpmc ι α) (.init fun c => (q.buffer c).data) := by
  obtain ⟨k, h2, hk, hpow, ht⟩ := mpmcQueueInit_ok (ι := ι) h hsize
  exact ⟨k, h2, hk, hpow, ht, .init _ _⟩

/-- Every run is followed by the relaxed queue. -/
theorem MpmcInv.exec (h : MpmcInv k s as) (hN : 2 ≤ 2 ^ k) (hk : k ≤ 59) {acts : List (Act ι α)}
    (hfresh : Along Mpmc.step (fun s _ => s.Fresh) s acts) (hrun : run Mpmc.step s acts = some t) :
    ∃ bs, MpmcInv k t bs ∧
      Exec (Relaxed (2 ^ k)) (TicketQueue.seen as) (history Mpmc.step Mpmc.event s acts)
        (TicketQueue.seen bs) := by
  have hsim : ∀ (s : Mpmc ι α) a t c, (∃ as, MpmcInv k s as ∧ c = TicketQueue.seen as) →
      s.Fresh → s.step a = some t → ∃ d, Exec (Relaxed (2 ^ k)) c (s.event a).toList d ∧
        ∃ bs, MpmcInv k t bs ∧ d = TicketQueue.seen bs := by
    rintro s a t c ⟨as, has, rfl⟩ hf hs
    obtain ⟨bs, hstep, hbs⟩ := has.step hN hk hf hs
    refine ⟨_, ?_, bs, hbs, rfl⟩
    rw [has.1.event_eq]
    exact TicketQueue.exec_seen has.2 hN hstep
  obtain ⟨d, hexec, bs, hbs, rfl⟩ := exec_of_simulation _ hsim ⟨as, h, rfl⟩ hfresh hrun
  exact ⟨bs, hbs, hexec⟩

/-- Every run with the one consumer `c` is followed by the queue that `c` owns. -/
theorem MpmcInv.exec_owned (h : MpmcInv k s as) (hN : 2 ≤ 2 ^ k) (hk : k ≤ 59) {c : ι}
    (ho : TicketQueue.OwnedBy c as) {acts : List (Act ι α)}
    (halong : Along Mpmc.step (fun s a => s.Fresh ∧ a.By c) s acts)
    (hrun : run Mpmc.step s acts = some t) :
    ∃ bs, MpmcInv k t bs ∧ Exec (Owned (2 ^ k) (BitVec.ofInt 64))
      (TicketQueue.owned (BitVec.ofInt 64) c as) (history Mpmc.step Mpmc.event s acts)
      (TicketQueue.owned (BitVec.ofInt 64) c bs) := by
  have hsim : ∀ (s : Mpmc ι α) a t d, (∃ as, (MpmcInv k s as ∧ TicketQueue.OwnedBy c as) ∧
      d = TicketQueue.owned (BitVec.ofInt 64) c as) → s.Fresh ∧ a.By c → s.step a = some t →
      ∃ e, Exec (Owned (2 ^ k) (BitVec.ofInt 64)) d (s.event a).toList e ∧
        ∃ bs, (MpmcInv k t bs ∧ TicketQueue.OwnedBy c bs) ∧
          e = TicketQueue.owned (BitVec.ofInt 64) c bs := by
    rintro s a t d ⟨as, ⟨has, ho⟩, rfl⟩ ⟨hf, hby⟩ hs
    obtain ⟨bs, hstep, hbs⟩ := has.step hN hk hf hs
    refine ⟨_, ?_, bs, ⟨hbs, ho.step hby hstep⟩, rfl⟩
    rw [has.1.event_eq]
    exact TicketQueue.exec_owned ho has.2 hN hstep
  obtain ⟨d, hexec, bs, ⟨hbs, -⟩, rfl⟩ := exec_of_simulation _ hsim ⟨as, ⟨h, ho⟩, rfl⟩ halong hrun
  exact ⟨bs, hbs, hexec⟩

variable {alloc : BitVec 64 → Option (ℕ → MpmcQueueCell α)} {size : BitVec 64} {q : MpmcQueue α}
  {acts : List (Act ι α)}

/-- A queue of two cells after `mpmc_queue_init`. -/
def twoCells : MpmcQueue ℕ := ⟨1#64, initCells (fun _ => ⟨0#64, 0⟩) 2, 0#64, 0#64⟩

/-- Thread 0 pushes; thread 1 pulls while the item is being put, and again when it is there. -/
def pushAndPull : List (Act (Fin 2) ℕ) :=
  [.call 0 (.push 7), .step 0 false, .step 0 false, .step 0 true, .step 0 false, .step 0 false,
    .call 1 .pull, .step 1 false, .step 1 false, .ret 1, .step 0 false, .step 0 false, .ret 0,
    .call 1 .pull, .step 1 false, .step 1 false, .step 1 false, .step 1 false, .step 1 false,
    .ret 1]

theorem twoCells_init :
    mpmcQueueInit (fun _ => some fun _ => ⟨0#64, 0⟩) 2#64 = .ok twoCells := rfl

theorem pushAndPull_along :
    Along Mpmc.step (fun s a => s.Fresh ∧ a.By 1) (.start twoCells) pushAndPull := by
  decide +kernel

theorem pushAndPull_run : ∃ t, run Mpmc.step (.start twoCells) pushAndPull = some t :=
  Option.isSome_iff_exists.1 (by decide +kernel)

/-- **The packet queue is linearizable** with respect to a FIFO of its size: a push is refused only
if the FIFO is full or an item is being taken, a pull finds nothing only if the FIFO is empty or an
item is being put. -/
theorem mpmc_linearizable (hinit : mpmcQueueInit alloc size = .ok q) (hsize : size.toNat < 2 ^ 60)
    (hfresh : Along Mpmc.step (fun s _ => s.Fresh) (.start q) acts)
    (hrun : run Mpmc.step (.start q) acts = some t) :
    Linearizable (Relaxed size.toNat) [] (history Mpmc.step Mpmc.event (.start q) acts) := by
  obtain ⟨k, hN, hk, hpow, h⟩ := MpmcInv.start (ι := ι) hinit hsize
  obtain ⟨bs, -, hexec⟩ := h.exec hN hk hfresh hrun
  rw [hpow]
  exact ⟨_, hexec⟩

/-- The calls and returns of `pushAndPull`: the first pull finds nothing, the second gets the
item. -/
theorem pushAndPull_history : history Mpmc.step Mpmc.event (.start twoCells) pushAndPull =
    [.call 0 (.push 7), .call 1 .pull, .ret 1 .pull (.pulled none),
      .ret 0 (.push 7) (.pushed true), .call 1 .pull, .ret 1 .pull (.pulled (some 7))] := by
  decide +kernel

theorem mpmc_linearizable_pushAndPull :
    Linearizable (Relaxed 2) []
      [.call 0 (.push 7), .call 1 .pull, .ret 1 .pull (.pulled none),
        .ret 0 (.push 7) (.pushed true), .call 1 .pull,
        .ret (1 : Fin 2) .pull (.pulled (some 7) : Res ℕ (BitVec 64))] := by
  obtain ⟨t, ht⟩ := pushAndPull_run
  have h := mpmc_linearizable twoCells_init (by decide)
    (pushAndPull_along.mono fun _ _ => And.left) ht
  rwa [pushAndPull_history] at h

/-- **One consumer.** If one thread alone pulls and asks for the length, the packet queue is a FIFO
of exactly its size, `mpmc_queue_available` is the exact length, and a pull finds nothing only if
the FIFO is empty or an item is being put. -/
theorem mpmc_one_consumer {c : ι} (hinit : mpmcQueueInit alloc size = .ok q)
    (hsize : size.toNat < 2 ^ 60)
    (halong : Along Mpmc.step (fun s a => s.Fresh ∧ a.By c) (.start q) acts)
    (hrun : run Mpmc.step (.start q) acts = some t) :
    Linearizable (Owned size.toNat (BitVec.ofInt 64)) []
      (history Mpmc.step Mpmc.event (.start q) acts) := by
  obtain ⟨k, hN, hk, hpow, h⟩ := MpmcInv.start (ι := ι) hinit hsize
  obtain ⟨bs, -, hexec⟩ := h.exec_owned hN hk (.init c _) halong hrun
  rw [hpow]
  exact ⟨_, hexec⟩

theorem mpmc_one_consumer_pushAndPull :
    Linearizable (Owned 2 (BitVec.ofInt 64)) []
      [.call 0 (.push 7), .call 1 .pull, .ret 1 .pull (.pulled none),
        .ret 0 (.push 7) (.pushed true), .call 1 .pull,
        .ret (1 : Fin 2) .pull (.pulled (some 7))] := by
  obtain ⟨t, ht⟩ := pushAndPull_run
  have h := mpmc_one_consumer twoCells_init (by decide) pushAndPull_along ht
  rwa [pushAndPull_history] at h

theorem held_length_le (ph : Phase (Op α) (Res α (BitVec 64))) : (held ph).length ≤ 1 := by
  unfold held
  split <;> simp

/-- **What one consumer gets.** There is one order of the items in which each producer's items are
in the order it has pushed them, and the consumer has got a front part of it; at most a full queue
and one item under way are missing. A producer that is not in a call has all its accepted items in
the order, and no others. -/
theorem mpmc_consumer_order {c : ι} (hinit : mpmcQueueInit alloc size = .ok q)
    (hsize : size.toNat < 2 ^ 60)
    (halong : Along Mpmc.step (fun s a => s.Fresh ∧ a.By c) (.start q) acts)
    (hrun : run Mpmc.step (.start q) acts = some t) :
    ∃ l : List (ι × α),
      taken (history Mpmc.step Mpmc.event (.start q) acts) <+: l.map Prod.snd ∧
      l.length ≤ (taken (history Mpmc.step Mpmc.event (.start q) acts)).length + size.toNat + 1 ∧
      ∀ i, accepted (history Mpmc.step Mpmc.event (.start q) acts) i <+: ofProducer l i ∧
        (t.pc i = .idle →
          ofProducer l i = accepted (history Mpmc.step Mpmc.event (.start q) acts) i) := by
  obtain ⟨k, hN, hk, hpow, h⟩ := MpmcInv.start (ι := ι) hinit hsize
  obtain ⟨bs, hbs, hexec⟩ := h.exec hN hk (halong.mono fun _ _ => And.left) hrun
  have honly : ∀ i, Event.call i .pull ∈ history Mpmc.step Mpmc.event (.start q) acts → i = c := by
    intro i hi
    obtain ⟨s, a, ⟨-, hby⟩, ha⟩ := exists_of_mem_history halong hi
    cases a with
    | call j o =>
      obtain ⟨rfl, rfl⟩ : j = i ∧ o = .pull := by simpa [Mpmc.event] using ha
      exact hby
    | step j sp => exact absurd ha (by simp [Mpmc.event])
    | ret j =>
      simp only [Mpmc.event] at ha
      split at ha <;> simp at ha
  obtain ⟨l, hl⟩ := exec_merge hexec honly
  have hobj : (TicketQueue.seen bs).obj.length ≤ 2 ^ k := by
    have htail := hbs.2.tail_le hN
    unfold TicketQueue.Queue.tail at htail
    rw [TicketQueue.seen, List.length_drop]
    omega
  refine ⟨l, ?_, ?_, fun i => ⟨?_, fun hi => ?_⟩⟩
  · rw [hl.items, List.append_assoc]
    exact List.prefix_append _ _
  · have hlen := congrArg List.length hl.items
    have hheld := held_length_le ((TicketQueue.seen bs).phase c)
    simp only [List.length_map, List.length_append] at hlen
    omega
  · rw [hl.producers]
    exact List.prefix_append _ _
  · have hph : (TicketQueue.seen bs).phase i = .idle := by
      rw [hbs.1.pc] at hi
      simp only [TicketQueue.seen, word_eq_idle hi, TicketQueue.seenPhase]
    rw [hl.producers, hph]
    exact List.append_nil _

theorem mpmc_consumer_order_pushAndPull : ∃ l : List (Fin 2 × ℕ),
    [7] <+: l.map Prod.snd ∧ l.length ≤ 4 ∧ [7] <+: ofProducer l 0 := by
  obtain ⟨t, ht⟩ := pushAndPull_run
  obtain ⟨l, htaken, hlen, hprod⟩ :=
    mpmc_consumer_order twoCells_init (by decide) pushAndPull_along ht
  rw [pushAndPull_history] at htaken hlen hprod
  exact ⟨l, htaken, hlen, (hprod 0).1⟩

/-! ### Cells -/

/-- The cell that a thread has for itself. -/
def MpmcPc.cell (q : MpmcQueue α) : MpmcPc α → Option ℕ
  | .pushData _ pos => some (q.index pos)
  | .pushRelease _ pos => some (q.index pos)
  | .pullData pos => some (q.index pos)
  | .pullRelease pos _ => some (q.index pos)
  | _ => none

omit [DecidableEq ι] in
/-- A thread that has a cell has a ticket of a push or of a pull. -/
theorem Tickets.cell_eq (h : Tickets k s as) (hk : k ≤ 59) {i : ι} {c : ℕ}
    (hc : (s.pc i).cell s.q = some c) :
    ∃ p, c = p % 2 ^ k ∧ ((as.pc i).writes = some p ∨ (as.pc i).reads = some p) := by
  rw [h.pc] at hc
  cases hpc : as.pc i with
  | pushWrite x p | pushStore x p | pullRead p | pullStore p x =>
    rw [hpc] at hc
    simp only [word, MpmcPc.cell, h.queue.index_eq hk, Option.some.injEq] at hc
    refine ⟨p, hc.symm, ?_⟩
    simp [TicketQueue.Pc.writes, TicketQueue.Pc.reads]
  | _ => rw [hpc] at hc; exact absurd hc (by simp [word, MpmcPc.cell])

/-- **No races on the data.** Whatever the threads do, no two of them have the same cell for
themselves, and the cells they have are cells of the buffer. -/
theorem mpmc_one_holder (hinit : mpmcQueueInit alloc size = .ok q) (hsize : size.toNat < 2 ^ 60)
    (hfresh : Along Mpmc.step (fun s _ => s.Fresh) (.start q) acts)
    (hrun : run Mpmc.step (.start q) acts = some t) {i j : ι} {c : ℕ}
    (hi : (t.pc i).cell t.q = some c) :
    c < size.toNat ∧ ((t.pc j).cell t.q = some c → i = j) := by
  obtain ⟨k, hN, hk, hpow, h⟩ := MpmcInv.start (ι := ι) hinit hsize
  obtain ⟨bs, hbs, -⟩ := h.exec hN hk hfresh hrun
  obtain ⟨p, rfl, hp⟩ := hbs.1.cell_eq hk hi
  rw [hpow]
  refine ⟨Nat.mod_lt _ (Nat.two_pow_pos k), fun hj => ?_⟩
  obtain ⟨p', hmod, hp'⟩ := hbs.1.cell_eq hk hj
  have hti := hbs.2.thread i
  have htj := hbs.2.thread j
  rcases hp with hp | hp <;> rcases hp' with hp' | hp'
  · obtain rfl := (hti.of_writes hp).1.eq (htj.of_writes hp').1 hmod
    exact hbs.2.one_writer i j p hp hp'
  · exact absurd hmod ((hti.of_writes hp).1.not_full hN (htj.of_reads hp').1)
  · exact absurd hmod.symm ((htj.of_writes hp').1.not_full hN (hti.of_reads hp).1)
  · obtain rfl := (hti.of_reads hp).1.eq (htj.of_reads hp').1 hmod
    exact hbs.2.one_reader i j p hp hp'

/-- Thread 0 has taken its ticket and has cell 0 for itself. -/
theorem mpmc_one_holder_push : ∃ t, run Mpmc.step (.start twoCells)
      [.call (0 : Fin 2) (.push 7), .step 0 false, .step 0 false, .step 0 false] = some t ∧
    (t.pc 0).cell t.q = some 0 ∧ (t.pc 1).cell t.q ≠ some 0 := by
  obtain ⟨t, ht, hcell⟩ : ∃ t, run Mpmc.step (.start twoCells)
      [.call (0 : Fin 2) (.push 7), .step 0 false, .step 0 false, .step 0 false] = some t ∧
      (t.pc 0).cell t.q = some 0 := by
    refine ⟨_, rfl, ?_⟩
    decide +kernel
  have halong : Along Mpmc.step (fun s _ => s.Fresh) (.start twoCells)
      [.call (0 : Fin 2) (.push 7), .step 0 false, .step 0 false, .step 0 false] := by
    decide +kernel
  refine ⟨t, ht, hcell, fun h1 => ?_⟩
  exact absurd ((mpmc_one_holder twoCells_init (by decide) halong ht hcell).2 h1) (by decide)

/-! ### Steps -/

/-- A counter moves exactly when a ticket is taken. -/
theorem moved_eq {bs : TicketQueue.State ι α (BitVec 64)} (hs : Tickets k s as)
    (ht : Tickets k t bs) (h : TicketQueue.Step (2 ^ k) (BitVec.ofInt 64) as act bs) :
    bs.q.tickets = as.q.tickets + s.moved t := by
  obtain ⟨htail, hhead, hle⟩ := h.tickets
  unfold TicketQueue.Queue.tickets at hle ⊢
  have htl := ofNat_eq_iff (a := bs.q.tail) (b := as.q.tail) htail (by omega)
  have hhd := ofNat_eq_iff (a := bs.q.head) (b := as.q.head) hhead (by omega)
  rw [Mpmc.moved, ht.queue.tail, hs.queue.tail, ht.queue.head, hs.queue.head]
  simp only [htl, hhd]
  split_ifs <;> omega

theorem moves_cons (h : s.step act = some t) (acts : List (Act ι α)) :
    s.moves (act :: acts) = s.moved t + t.moves acts := by
  simp only [Mpmc.moves, h, Option.map_some, Option.getD_some]

/-- The run lemma of `mpmc_steps_le`: what the steps of thread `i` cost is paid for. -/
theorem MpmcInv.cost (h : MpmcInv k s as) (hN : 2 ≤ 2 ^ k) (hk : k ≤ 59) (i : ι)
    (hfresh : Along Mpmc.step (fun s _ => s.Fresh) s acts)
    (hrun : run Mpmc.step s acts = some t) :
    (acts.map (Act.own i)).sum ≤ TicketQueue.budget as.q (as.pc i) +
      5 * (acts.map (Act.calls i)).sum + 2 * (acts.map (Act.spurious i)).sum +
      2 * s.moves acts := by
  induction acts generalizing s as with
  | nil => exact Nat.zero_le _
  | cons a acts ih =>
    obtain ⟨u, hu, hrest⟩ := run_cons_eq_some.1 hrun
    obtain ⟨bs, hstep, hbs⟩ := h.step hN hk hfresh.1 hu
    have hcost := TicketQueue.cost_step h.2 hN hstep i
    have hmoved := moved_eq h.1 hbs.1 hstep
    have hrec := ih hbs (hfresh.2 u hu) hrest
    rw [moves_cons hu]
    simp only [List.map_cons, List.sum_cons]
    omega

/-- **The calls of a thread are short** unless others get ahead of it: a thread takes at most five
steps for each call, two more for each compare-and-swap that fails without need, and two more for
each push or pull of any thread that gets its ticket. -/
theorem mpmc_steps_le (hinit : mpmcQueueInit alloc size = .ok q) (hsize : size.toNat < 2 ^ 60)
    (hfresh : Along Mpmc.step (fun s _ => s.Fresh) (.start q) acts)
    (hrun : run Mpmc.step (.start q) acts = some t) (i : ι) :
    (acts.map (Act.own i)).sum ≤ 5 * (acts.map (Act.calls i)).sum +
      2 * (acts.map (Act.spurious i)).sum + 2 * Mpmc.moves (.start q) acts := by
  obtain ⟨k, hN, hk, -, h⟩ := MpmcInv.start (ι := ι) hinit hsize
  have hcost := h.cost hN hk i hfresh hrun
  rwa [show TicketQueue.budget _ (TicketQueue.State.pc _ i) = 0 from rfl, Nat.zero_add] at hcost

theorem mpmc_steps_le_pushAndPull :
    (pushAndPull.map (Act.own 0)).sum ≤ 5 * (pushAndPull.map (Act.calls 0)).sum +
      2 * (pushAndPull.map (Act.spurious 0)).sum +
        2 * Mpmc.moves (.start twoCells) pushAndPull := by
  obtain ⟨t, ht⟩ := pushAndPull_run
  exact mpmc_steps_le twoCells_init (by decide) (pushAndPull_along.mono fun _ _ => And.left) ht 0

end RotorXdp
