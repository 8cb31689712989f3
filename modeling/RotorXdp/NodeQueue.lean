import RotorXdp.MpmcHistories
import RotorXdp.Flow

/-!
# The packet queues of the node

The node takes each packet queue for a FIFO of 4096 packets that is pushed to and pulled from in
one step. The threads really run `mpmc_queue.c`; this is sound because every queue has one consumer.

* `Serves`, `serves_unique`: the thread that pulls from a queue;
* `node_queue_linearizable`: the packet queue with the threads of the node is that FIFO;
* `queueCalls`, `queueHistory`: the calls on a queue in a step and in a run of the node;
* `node_queue_history`: along a run of the node the queue does what that FIFO does, and nothing
  else.
-/

namespace RotorXdp

open Function Fifo Atomic Runs
open TicketQueue (Act)

variable {P : NodeParams} {s s' : Node} {a : NodeAct} {t : ℕ} {Q : QueueId}

/-- Thread `t` goes through queue `Q` in its rounds. -/
def Serves (P : NodeParams) (t : ℕ) (Q : QueueId) : Prop :=
  ∃ pos w, slotAt P t pos = some (Q, w)

/-- A thread that serves a queue is the TX thread of a port. -/
theorem Serves.drains (h : Serves P t Q) : ∃ p, t = P.txThread p ∧ Drains P p Q := by
  obtain ⟨pos, w, hslot⟩ := h
  have hport : ∃ p, t = P.txThread p := by
    unfold slotAt at hslot
    unfold NodeParams.txThread
    split at hslot
    · rename_i hrole
      have hlt := role_eq_vethToNicTx.1 hrole
      exact ⟨t, by rw [if_pos hlt]⟩
    · rename_i hrole
      obtain ⟨hle, -⟩ := role_eq_nicToVethTx.1 hrole
      exact ⟨t - P.n - P.v, by rw [if_neg (by omega)]; omega⟩
    · exact absurd hslot (by simp)
  obtain ⟨p, rfl⟩ := hport
  exact ⟨p, rfl, pos, w, hslot⟩

/-- Every queue has at most one consumer. -/
theorem serves_unique {t' : ℕ} (h : Serves P t Q) (h' : Serves P t' Q) : t = t' := by
  obtain ⟨p, rfl, hp⟩ := h.drains
  obtain ⟨p', rfl, hp'⟩ := h'.drains
  rw [drains_unique hp hp']

/-- A condition on the calls of a run holds along the run. -/
theorem along_of_calls {ι α : Type*} [DecidableEq ι] {c : ι} {s : Mpmc ι α} {acts : List (Act ι α)}
    (hf : Along Mpmc.step (fun s _ => s.Fresh) s acts)
    (hcalls : ∀ i o, Act.call i o ∈ acts → (∀ x, o ≠ .push x) → i = c) :
    Along Mpmc.step (fun s a => s.Fresh ∧ a.By c) s acts := by
  induction acts generalizing s with
  | nil => trivial
  | cons a acts ih =>
    refine ⟨⟨hf.1, ?_⟩, fun t ht => ih (hf.2 t ht) fun i o h =>
      hcalls i o (List.mem_cons_of_mem a h)⟩
    cases a with
    | call i o =>
      cases o with
      | push x => trivial
      | pull => exact hcalls i _ List.mem_cons_self fun x => by simp
      | available => exact hcalls i _ List.mem_cons_self fun x => by simp
    | step => trivial
    | ret => trivial

/-- **A packet queue of the node is a FIFO of 4096 packets**, whatever the threads of the node do,
as long as only threads that serve the queue pull from it and ask for its length. -/
theorem node_queue_linearizable {α : Type*} (P : NodeParams) (Q : QueueId)
    {alloc : BitVec 64 → Option (ℕ → MpmcQueueCell α)} {q : MpmcQueue α}
    {acts : List (Act (Fin P.nThreads) α)} {m : Mpmc (Fin P.nThreads) α} {c : Fin P.nThreads}
    (hc : Serves P c Q) (hinit : mpmcQueueInit alloc (BitVec.ofNat 64 maxBurstTxObjs) = .ok q)
    (hfresh : Along Mpmc.step (fun s _ => s.Fresh) (.start q) acts)
    (hserves : ∀ t o, Act.call t o ∈ acts → (∀ x, o ≠ .push x) → Serves P t Q)
    (hrun : run Mpmc.step (.start q) acts = some m) :
    Linearizable (Owned maxBurstTxObjs (BitVec.ofInt 64)) []
      (history Mpmc.step Mpmc.event (.start q) acts) := by
  have hcalls : ∀ t o, Act.call t o ∈ acts → (∀ x, o ≠ .push x) → t = c := fun t o hm ho =>
    Fin.ext (serves_unique (hserves t o hm ho) hc)
  obtain ⟨k, hN, hk, hpow, h⟩ := MpmcInv.start (ι := Fin P.nThreads) hinit (by decide)
  obtain ⟨bs, -, hexec⟩ := h.exec_owned hN hk (.init c _) (along_of_calls hfresh hcalls) hrun
  rw [show maxBurstTxObjs = 2 ^ k from hpow]
  exact ⟨_, hexec⟩

/-- The threads of a node with one NIC port. -/
def nicTx : Fin 2 := ⟨0, Nat.zero_lt_two⟩
def nicRx : Fin 2 := ⟨1, Nat.one_lt_two⟩

/-- The RX thread pushes, the TX thread asks for the length before the push has returned. -/
def forwardOne : List (Act (Fin 2) ℕ) :=
  [.call nicRx (.push 7), .step nicRx false, .step nicRx false, .step nicRx false,
    .step nicRx false, .step nicRx false, .call nicTx .available, .step nicTx false,
    .step nicTx false, .ret nicTx, .ret nicRx, .call nicTx .pull, .step nicTx false,
    .step nicTx false, .step nicTx false, .step nicTx false, .step nicTx false, .ret nicTx]

/-- The queue of 4096 cells. -/
def packetQueue : MpmcQueue ℕ :=
  ⟨BitVec.ofNat 64 maxBurstTxObjs - 1#64,
    initCells (fun _ => ⟨0#64, 0⟩) (BitVec.ofNat 64 maxBurstTxObjs).toNat, 0#64, 0#64⟩

theorem packetQueue_init : mpmcQueueInit (fun _ => some fun _ => ⟨0#64, 0⟩)
    (BitVec.ofNat 64 maxBurstTxObjs) = .ok packetQueue := by
  rw [mpmcQueueInit, if_neg (by decide)]
  rfl

theorem node_queue_linearizable_forwardOne : Linearizable (Owned 4096 (BitVec.ofInt 64)) []
    [.call nicRx (.push 7), .call nicTx .available, .ret nicTx .available (.available 1#64),
      .ret nicRx (.push 7) (.pushed true), .call nicTx .pull,
      .ret nicTx .pull (.pulled (some 7))] := by
  have hserves : Serves (smallNode 1 0) nicTx (.nonLocal 2) := ⟨2, 2, by decide⟩
  have halong : Along Mpmc.step (fun s _ => s.Fresh) (.start packetQueue) forwardOne := by
    decide +kernel
  have hcalls : ∀ t o, Act.call t o ∈ forwardOne → (∀ x, o ≠ .push x) → t = nicTx := by
    intro t o hm ho
    simp only [forwardOne, List.mem_cons, Act.call.injEq, reduceCtorEq, false_or, or_false,
      List.not_mem_nil] at hm
    rcases hm with ⟨-, rfl⟩ | ⟨rfl, -⟩ | ⟨rfl, -⟩
    · exact absurd rfl (ho 7)
    · rfl
    · rfl
  obtain ⟨m, hm⟩ : ∃ m, run Mpmc.step (.start packetQueue) forwardOne = some m :=
    Option.isSome_iff_exists.1 (by decide +kernel)
  have hhist : history Mpmc.step Mpmc.event (.start packetQueue) forwardOne =
      [.call nicRx (.push 7), .call nicTx .available, .ret nicTx .available (.available 1#64),
        .ret nicRx (.push 7) (.pushed true), .call nicTx .pull,
        .ret nicTx .pull (.pulled (some 7))] := by
    decide +kernel
  have h := node_queue_linearizable (smallNode 1 0) (.nonLocal 2) hserves packetQueue_init halong
    (fun t o hm ho => by rw [hcalls t o hm ho]; exact hserves) hm
  rw [← hhist]
  exact h

/-! ### What the node does to a queue -/

/-- The calls of the threads of the node on one queue. -/
abbrev QueueEvent := Event ℕ (Op Packet) (Res Packet (BitVec 64))

/-- The call of `mpmc_queue_push` or `mpmc_queue_pull` on queue `Q` in a step, and its return.
`mpmc_queue_available` changes nothing and is left out; a step that ends in a fault makes no
call. -/
def queueCalls (P : NodeParams) (Q : QueueId) (s : Node) : NodeAct → List QueueEvent
  | .handle t =>
    match (s.rx t).burst with
    | [] => []
    | x :: _ =>
      match receive P t (s.rx t).ret x.rx with
      | .ok (_, .offer R f) =>
        if R = Q then
          [.call t (.push { x with frame := f }),
            .ret t (.push { x with frame := f }) (.pushed ((s.queue R).length < maxBurstTxObjs))]
        else []
      | _ => []
  | .pull t =>
    match slotAt P t (s.tx t).pos with
    | none => []
    | some (R, w) =>
      match s.queue R with
      | [] => []
      | x :: _ =>
        match prepare P.g s.topo R w x.frame with
        | .error _ => []
        | .ok _ => if R = Q then [.call t .pull, .ret t .pull (.pulled (some x))] else []
  | _ => []

/-- The history of queue `Q` in a run. -/
abbrev queueHistory (P : NodeParams) (Q : QueueId) : Node → List NodeAct → List QueueEvent :=
  outputs (Node.step P) (queueCalls P Q)

theorem queueCalls_handle {x : Packet} {rest : List Packet} {ret : ReturnProcessRx} {o : Outcome}
    (hburst : (s.rx t).burst = x :: rest)
    (hrecv : receive P t (s.rx t).ret x.rx = .ok (ret, o)) :
    queueCalls P Q s (.handle t) =
      match o with
      | .offer R f =>
        if R = Q then
          [.call t (.push { x with frame := f }),
            .ret t (.push { x with frame := f }) (.pushed ((s.queue R).length < maxBurstTxObjs))]
        else []
      | _ => [] := by
  simp only [queueCalls, hburst, hrecv]
  cases o <;> rfl

theorem queueCalls_handle_error {x : Packet} {rest : List Packet} {e : Fault}
    (hburst : (s.rx t).burst = x :: rest) (hrecv : receive P t (s.rx t).ret x.rx = .error e) :
    queueCalls P Q s (.handle t) = [] := by
  simp only [queueCalls, hburst, hrecv]

theorem queueCalls_pull {x : Packet} {rest : List Packet} {R : QueueId} {w : ℕ} {f : Frame}
    (hslot : slotAt P t (s.tx t).pos = some (R, w)) (hqueue : s.queue R = x :: rest)
    (hprep : prepare P.g s.topo R w x.frame = .ok f) :
    queueCalls P Q s (.pull t) =
      if R = Q then [.call t .pull, .ret t .pull (.pulled (some x))] else [] := by
  simp only [queueCalls, hslot, hqueue, hprep]

theorem queueCalls_pull_error {x : Packet} {rest : List Packet} {R : QueueId} {w : ℕ} {e : Fault}
    (hslot : slotAt P t (s.tx t).pos = some (R, w)) (hqueue : s.queue R = x :: rest)
    (hprep : prepare P.g s.topo R w x.frame = .error e) : queueCalls P Q s (.pull t) = [] := by
  simp only [queueCalls, hslot, hqueue, hprep]

/-- From `s` to `s'` the FIFO behind queue `Q` goes through the calls `h`. -/
structure QueueMoves (P : NodeParams) (Q : QueueId) (s s' : Node) (h : List QueueEvent) :
    Prop where
  exec : Exec (Owned maxBurstTxObjs (BitVec.ofInt 64)) (.quiet (s.queue Q)) h (.quiet (s'.queue Q))
  accepted : s'.log.accepted Q = s.log.accepted Q ++ put h
  items : s.queue Q ++ put h = taken h ++ s'.queue Q
  pushes : ∀ t x, Event.call t (.push x) ∈ h → P.role t = some .nicRx ∨ P.role t = some .vethRx
  pulls : ∀ t, Event.call t .pull ∈ h → Serves P t Q
  length_le : (s'.queue Q).length ≤ maxBurstTxObjs

theorem QueueMoves.same (hlen : (s.queue Q).length ≤ maxBurstTxObjs)
    (hq : s'.queue Q = s.queue Q) (hl : s'.log.accepted Q = s.log.accepted Q) :
    QueueMoves P Q s s' [] where
  exec := hq ▸ Exec.nil _
  accepted := by rw [hl]; exact (List.append_nil _).symm
  items := by rw [hq]; exact List.append_nil _
  pushes t x h := absurd h List.not_mem_nil
  pulls t h := absurd h List.not_mem_nil
  length_le := hq ▸ hlen

theorem QueueMoves.trans {s'' : Node} {h h' : List QueueEvent} (hm : QueueMoves P Q s s' h)
    (hm' : QueueMoves P Q s' s'' h') : QueueMoves P Q s s'' (h ++ h') where
  exec := hm.exec.trans hm'.exec
  accepted := by rw [hm'.accepted, hm.accepted, List.append_assoc, put, put, put,
    List.filterMap_append]
  items := by
    have hput : put (h ++ h') = put h ++ put h' := List.filterMap_append
    have htaken : taken (h ++ h') = taken h ++ taken h' := List.filterMap_append
    rw [hput, htaken, ← List.append_assoc, hm.items, List.append_assoc, hm'.items,
      List.append_assoc]
  pushes t x hmem := (List.mem_append.1 hmem).elim (hm.pushes t x) (hm'.pushes t x)
  pulls t hmem := (List.mem_append.1 hmem).elim (hm.pulls t) (hm'.pulls t)
  length_le := hm'.length_le

/-- **A step of the node is at most one call on a queue.** -/
theorem NodeStep.queueMoves (h : NodeStep P s a s') (hlen : (s.queue Q).length ≤ maxBurstTxObjs) :
    QueueMoves P Q s s' (queueCalls P Q s a) := by
  cases h with
  | handleFault t p x rest e ht hburst hrecv =>
    rw [queueCalls_handle_error hburst hrecv]
    exact .same hlen rfl rfl
  | accept t p x rest ret R f ht hburst hrecv hroom =>
    rw [queueCalls_handle hburst hrecv]
    by_cases hR : R = Q
    · subst hR
      simp only [hroom, decide_true, if_true]
      refine ⟨?_, ?_, ?_, fun t' y hmem => ?_, fun t' hmem => ?_, ?_⟩
      · simp only [update_self]
        exact Exec.round (.push t _ hroom)
      · simp only [update_self]
        rfl
      · simp only [update_self]
        rfl
      · obtain rfl : t' = t := by simp at hmem; exact hmem.1
        exact ht.role
      · exact absurd hmem (by simp)
      · simp only [update_self, List.length_append, List.length_singleton]
        exact hroom
    · simp only [if_neg hR]
      have hne : Q ≠ R := Ne.symm hR
      exact .same hlen (by simp only [update_of_ne hne]) (by simp only [update_of_ne hne])
  | reject t p x rest ret R f ht hburst hrecv hfull =>
    rw [queueCalls_handle hburst hrecv]
    obtain ⟨bp, bc, fault, he⟩ :=
      Node.release_eq { s with rx := update s.rx t ⟨rest, ret⟩ } t p [x.rx.addr]
    rw [he]
    by_cases hR : R = Q
    · subst hR
      simp only [hfull, decide_false, if_true]
      refine ⟨?_, ?_, ?_, fun t' y hmem => ?_, fun t' hmem => ?_, hlen⟩
      · exact Exec.round (.full t _ (Nat.le_antisymm hlen (Nat.le_of_not_lt hfull)))
      · exact (List.append_nil _).symm
      · exact List.append_nil _
      · obtain rfl : t' = t := by simp at hmem; exact hmem.1
        exact ht.role
      · exact absurd hmem (by simp)
    · simp only [if_neg hR]
      exact .same hlen rfl rfl
  | giveBack t p x rest ret ht hburst hrecv =>
    rw [queueCalls_handle hburst hrecv]
    obtain ⟨bp, bc, fault, he⟩ :=
      Node.release_eq { s with rx := update s.rx t ⟨rest, ret⟩ } t p [x.rx.addr]
    rw [he]
    exact .same hlen rfl rfl
  | ignore t p x rest ret ht hburst hrecv =>
    rw [queueCalls_handle hburst hrecv]
    exact .same hlen rfl rfl
  | pullFault t p R w x rest e ht hslot hqueue hprep =>
    rw [queueCalls_pull_error hslot hqueue hprep]
    exact .same hlen rfl rfl
  | pull t p R w x rest f ht hroom hslot hqueue hprep =>
    rw [queueCalls_pull hslot hqueue hprep]
    by_cases hR : R = Q
    · subst hR
      rw [if_pos rfl]
      refine ⟨?_, (List.append_nil _).symm, ?_, fun t' y hmem => ?_, fun t' hmem => ?_, ?_⟩
      · simp only [update_self, hqueue]
        exact Exec.round (.pull t x)
      · simp only [update_self, hqueue]
        exact List.append_nil _
      · exact absurd hmem (by simp)
      · obtain rfl : t' = t := by simpa using hmem
        exact ⟨_, w, hslot⟩
      · rw [hqueue, List.length_cons] at hlen
        simp only [update_self]
        omega
    · rw [if_neg hR]
      exact .same hlen (by simp only [update_of_ne (Ne.symm hR)]) rfl
  | drain t p k s' ht hk hs' =>
    obtain ⟨bp, bc, fault, he⟩ := Node.release_eq (s.note [⟨t, p, .txComp⟩]) t p
      ((s.umemCq p).take k)
    rw [hs', he]
    exact .same hlen rfl rfl
  | _ => exact .same hlen rfl rfl

/-- A run of the node goes through its history. -/
theorem QueueMoves.run {as : List NodeAct} (hlen : (s.queue Q).length ≤ maxBurstTxObjs)
    (hrun : Runs.run (Node.step P) s as = some s') :
    QueueMoves P Q s s' (queueHistory P Q s as) := by
  induction as generalizing s with
  | nil =>
    cases hrun
    exact .same hlen rfl rfl
  | cons a as ih =>
    obtain ⟨u, hu, hrest⟩ := run_cons_eq_some.1 hrun
    have hm := (NodeStep.of_step hu).2.queueMoves hlen
    rw [queueHistory, outputs, hu]
    exact hm.trans (ih hm.length_le hrest)

end RotorXdp
