import RotorXdp.Node

/-!
# Ports, threads and slots

Which thread receives and which transmits on a port, and which queues the TX thread of a port goes
through, as the set-up loops leave it.

* `OnRx.eq`, `OnTx.eq`: one RX and one TX thread for each port;
* `slotAt_nic`, `slotAt_veth`, `slotAt_eq`: the slots of a TX thread;
* `Drains`, `drains_unique`: every queue is drained by one port at most.
-/

namespace RotorXdp

variable {P : NodeParams} {s : Node} {t p : ℕ}

/-- The RX thread and the TX thread of a port. -/
def NodeParams.rxThread (P : NodeParams) (p : ℕ) : ℕ := P.n + p
def NodeParams.txThread (P : NodeParams) (p : ℕ) : ℕ := if p < P.n then p else P.n + P.v + p

/-- `assigned_perdest_count`. -/
def NodeParams.perDest (P : NodeParams) : ℕ := numOfPerDestQueues / P.n

theorem role_eq_nicRx (h : P.role t = some .nicRx) : P.n ≤ t ∧ t < P.n + P.n := by
  unfold NodeParams.role at h
  split at h
  · exact absurd h (by decide)
  · split at h
    · omega
    · split at h
      · exact absurd h (by decide)
      · split at h <;> exact absurd h (by decide)

theorem role_eq_vethRx (h : P.role t = some .vethRx) : 2 * P.n ≤ t ∧ t < 2 * P.n + P.v := by
  unfold NodeParams.role at h
  split at h
  · exact absurd h (by decide)
  · split at h
    · exact absurd h (by decide)
    · split at h
      · omega
      · split at h <;> exact absurd h (by decide)

theorem role_eq_vethToNicTx : P.role t = some .vethToNicTx ↔ t < P.n := by
  unfold NodeParams.role
  split
  · rename_i h
    exact iff_of_true rfl h
  · rename_i h
    refine iff_of_false ?_ h
    split
    · simp
    · split
      · simp
      · split <;> simp

theorem role_eq_nicToVethTx : P.role t = some .nicToVethTx ↔
    2 * P.n + P.v ≤ t ∧ t < 2 * P.n + P.v + P.v := by
  unfold NodeParams.role NodeParams.nThreads
  split
  · exact iff_of_false (by simp) (by omega)
  · split
    · exact iff_of_false (by simp) (by omega)
    · split
      · exact iff_of_false (by simp) (by omega)
      · split
        · exact iff_of_true rfl (by omega)
        · exact iff_of_false (by simp) (by omega)

/-- Port `p` is received on by thread `n + p` only. -/
theorem OnRx.eq (h : OnRx P s t p) : t = P.rxThread p ∧ p < P.n + P.v := by
  have hport := h.port
  unfold NodeParams.thread at hport
  rcases h.role with hrole | hrole
  · obtain ⟨hle, hlt⟩ := role_eq_nicRx hrole
    obtain ⟨i, rfl⟩ := Nat.exists_eq_add_of_le hle
    have hdiv : P.n / P.n = 1 := Nat.div_self (by omega)
    rw [wiring_nicRx (by omega), nicRxThread, filled_eq_some, hdiv] at hport
    unfold NodeParams.rxThread
    omega
  · obtain ⟨hle, hlt⟩ := role_eq_vethRx hrole
    obtain ⟨j, rfl⟩ := Nat.exists_eq_add_of_le hle
    rw [wiring_vethRx (by omega), vethRxThread, filled_eq_some] at hport
    unfold NodeParams.rxThread
    omega

/-- Port `p` is transmitted on by one thread only. -/
theorem OnTx.eq (h : OnTx P s t p) : t = P.txThread p ∧ p < P.n + P.v := by
  have hport := h.port
  unfold NodeParams.thread at hport
  unfold NodeParams.txThread
  rcases h.role with hrole | hrole
  · have hlt := role_eq_vethToNicTx.1 hrole
    have hdiv : P.n / P.n = 1 := Nat.div_self (by omega)
    rw [wiring_nicTx hlt, nicTxThread, filled_eq_some, hdiv] at hport
    rw [if_pos (by omega)]
    omega
  · obtain ⟨hle, hlt⟩ := role_eq_nicToVethTx.1 hrole
    obtain ⟨j, rfl⟩ := Nat.exists_eq_add_of_le hle
    rw [wiring_vethTx (by omega), vethTxThread, filled_eq_some] at hport
    rw [if_neg (by omega)]
    omega

theorem rxThread_injective (P : NodeParams) : Function.Injective P.rxThread :=
  fun _ _ h => Nat.add_left_cancel h

theorem txThread_injective (P : NodeParams) : Function.Injective P.txThread := by
  intro p q h
  unfold NodeParams.txThread at h
  split at h <;> split at h <;> omega

/-- The slots of a NIC TX thread: the non-local queues, then the local ones. -/
theorem slotAt_nic {i pos w : ℕ} {Q : QueueId} (hi : i < P.n) : slotAt P i pos = some (Q, w) ↔
    w < P.perDest ∧ ((pos = w ∧ Q = .nonLocal (P.perDest * i + w)) ∨
      (pos = P.perDest + w ∧ Q = .loc (P.perDest * i + w))) := by
  have hthread : P.thread i = nicTxThread P.n numOfPerDestQueues i := wiring_nicTx hi
  have hcount : (P.thread i).assignedPerdestCount = P.perDest := by rw [hthread]; rfl
  simp only [slotAt, role_eq_vethToNicTx.2 hi, hcount]
  by_cases h1 : pos < P.perDest
  · have hq : (P.thread i).nonLocalDestQueueArray pos = some (P.perDest * i + pos) := by
      rw [hthread]; exact filled_some _ _ _ h1
    rw [if_pos h1, hq, Option.map_some, Option.some.injEq, Prod.mk.injEq]
    constructor
    · rintro ⟨rfl, rfl⟩; exact ⟨h1, .inl ⟨rfl, rfl⟩⟩
    · rintro ⟨hw, ⟨rfl, rfl⟩ | ⟨hpos, -⟩⟩
      · exact ⟨rfl, rfl⟩
      · omega
  · rw [if_neg h1]
    by_cases h2 : pos < P.perDest + P.perDest
    · have hq : (P.thread i).localDestQueueArray (pos - P.perDest) =
          some (P.perDest * i + (pos - P.perDest)) := by
        rw [hthread]; exact filled_some _ _ _ (by show _ < P.perDest; omega)
      rw [if_pos h2, hq, Option.map_some, Option.some.injEq, Prod.mk.injEq]
      constructor
      · rintro ⟨rfl, rfl⟩; exact ⟨by omega, .inr ⟨by omega, rfl⟩⟩
      · rintro ⟨hw, ⟨rfl, -⟩ | ⟨rfl, rfl⟩⟩
        · omega
        · rw [Nat.add_sub_cancel_left]; exact ⟨rfl, rfl⟩
    · rw [if_neg h2]
      constructor
      · intro h; exact absurd h (by simp)
      · rintro ⟨hw, ⟨hpos, -⟩ | ⟨hpos, -⟩⟩ <;> omega

/-- The slot of a veth TX thread. -/
theorem slotAt_veth {j pos w : ℕ} {Q : QueueId} (hj : j < P.v) :
    slotAt P (2 * P.n + P.v + j) pos = some (Q, w) ↔ pos = 0 ∧ w = 0 ∧ Q = .veth j := by
  have hrole : P.role (2 * P.n + P.v + j) = some .nicToVethTx :=
    role_eq_nicToVethTx.2 ⟨by omega, by omega⟩
  have hq : (P.thread (2 * P.n + P.v + j)).vethSideQueueArray 0 = some (j + 0) := by
    rw [NodeParams.thread, wiring_vethTx hj]
    exact filled_some j 1 0 (by decide)
  simp only [slotAt, hrole]
  by_cases h0 : pos = 0
  · rw [if_pos h0, hq, Option.map_some, Option.some.injEq, Prod.mk.injEq]
    constructor
    · rintro ⟨rfl, rfl⟩; exact ⟨h0, rfl, rfl⟩
    · rintro ⟨-, rfl, rfl⟩; exact ⟨rfl, rfl⟩
  · rw [if_neg h0]
    constructor
    · intro h; exact absurd h (by simp)
    · rintro ⟨h, -⟩; exact absurd h h0

/-- The slots of the TX thread of a port, in closed form. -/
theorem slotAt_eq {pos w : ℕ} {Q : QueueId} (h : slotAt P (P.txThread p) pos = some (Q, w)) :
    (p < P.n ∧ w < P.perDest ∧
      (Q = .nonLocal (P.perDest * p + w) ∨ Q = .loc (P.perDest * p + w))) ∨
    (P.n ≤ p ∧ p < P.n + P.v ∧ Q = .veth (p - P.n)) := by
  unfold NodeParams.txThread at h
  split at h
  · rename_i hp
    obtain ⟨hw, ⟨-, hQ⟩ | ⟨-, hQ⟩⟩ := (slotAt_nic hp).1 h
    · exact .inl ⟨hp, hw, .inl hQ⟩
    · exact .inl ⟨hp, hw, .inr hQ⟩
  · rename_i hp
    by_cases hv : p < P.n + P.v
    · obtain ⟨j, rfl⟩ := Nat.exists_eq_add_of_le (Nat.le_of_not_lt hp)
      have ht : P.n + P.v + (P.n + j) = 2 * P.n + P.v + j := by omega
      rw [ht] at h
      obtain ⟨-, -, hQ⟩ := (slotAt_veth (by omega)).1 h
      exact .inr ⟨by omega, hv, by rw [hQ, Nat.add_sub_cancel_left]⟩
    · -- no such port
      have h1 : P.role (P.n + P.v + p) ≠ some .vethToNicTx := by
        rw [ne_eq, role_eq_vethToNicTx]; omega
      have h2 : P.role (P.n + P.v + p) ≠ some .nicToVethTx := by
        rw [ne_eq, role_eq_nicToVethTx]; omega
      unfold slotAt at h
      split at h
      · rename_i hr; exact absurd hr h1
      · rename_i hr; exact absurd hr h2
      · exact absurd h (by simp)

/-- Slots of different threads are different queues. -/
theorem mul_add_inj {c p q w x : ℕ} (hw : w < c) (hx : x < c) (h : c * p + w = c * q + x) :
    p = q := by
  have hp : (c * p + w) / c = p := by
    rw [Nat.mul_add_div (by omega), Nat.div_eq_of_lt hw, Nat.add_zero]
  have hq : (c * q + x) / c = q := by
    rw [Nat.mul_add_div (by omega), Nat.div_eq_of_lt hx, Nat.add_zero]
  rw [← hp, ← hq, h]

/-- Port `p` drains queue `Q`. -/
def Drains (P : NodeParams) (p : ℕ) (Q : QueueId) : Prop :=
  ∃ pos w, slotAt P (P.txThread p) pos = some (Q, w)

theorem drains_unique {p q : ℕ} {Q : QueueId} (h : Drains P p Q) (h' : Drains P q Q) : p = q := by
  obtain ⟨pos, w, h⟩ := h
  obtain ⟨pos', w', h'⟩ := h'
  rcases slotAt_eq h with ⟨hp, hw, hQ⟩ | ⟨hp, hv, hQ⟩
  · rcases slotAt_eq h' with ⟨hq, hw', hQ'⟩ | ⟨hq, hv', hQ'⟩
    · rcases hQ with hQ | hQ
      · rcases hQ' with hQ' | hQ'
        · rw [hQ] at hQ'
          exact mul_add_inj hw hw' (QueueId.nonLocal.inj hQ')
        · rw [hQ] at hQ'
          exact absurd hQ' (by simp)
      · rcases hQ' with hQ' | hQ'
        · rw [hQ] at hQ'
          exact absurd hQ' (by simp)
        · rw [hQ] at hQ'
          exact mul_add_inj hw hw' (QueueId.loc.inj hQ')
    · rcases hQ with hQ | hQ <;> rw [hQ] at hQ' <;> exact absurd hQ' (by simp)
  · rcases slotAt_eq h' with ⟨hq, hw', hQ'⟩ | ⟨hq, hv', hQ'⟩
    · rcases hQ' with hQ' | hQ' <;> rw [hQ] at hQ' <;> exact absurd hQ' (by simp)
    · rw [hQ] at hQ'
      have := QueueId.veth.inj hQ'
      omega

/-! ### A small node -/

/-- A frame of the bytes `bs` in the UMEM chunk at `addr`. -/
def frameAt (addr : ℕ) (bs : List UInt8) (h : bs.length < 4294967296) : Frame :=
  ⟨addr, bs.length, h, Bytes.store (fun _ => 0) (addOffsetToAddr addr) bs⟩

/-- The frame is that at address 0, moved. -/
theorem frameAt_umem (addr : ℕ) (bs : List UInt8) (h : bs.length < 4294967296) (o : ℕ) :
    (frameAt addr bs h).umem ((frameAt addr bs h).data + o) =
      (frameOf bs h).umem ((frameOf bs h).data + o) := by
  have h0 : addOffsetToAddr 0 = 0 := rfl
  simp only [frameAt, frameOf, Frame.data, h0, Nat.zero_add, Bytes.store, Nat.le_add_right, if_true,
    Nat.add_sub_cancel_left, Nat.zero_le, Nat.sub_zero]

/-- The tunnelled frame in a chunk. -/
abbrev tunnelledAt (addr : ℕ) : Frame := frameAt addr tunnelledBytes tunnelledBytes_length_lt

/-- A node with the tables of `smallGlobals`. -/
def smallNode (n v : ℕ) : NodeParams := ⟨n, v, smallGlobals 33554442, rfl, rfl, 2048⟩

end RotorXdp
