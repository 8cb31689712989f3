import RotorXdp.Ports
import Mathlib.Logic.ExistsUnique

/-!
# Every queue and every port has its thread

`assigned_perdest_count` is `NUM_OF_PER_DEST_QUEUES / n_nic_ports`, so the NIC TX threads hold the
first `Q / n * n` queues and no others, while the RX threads push to all `Q` of them.

* `CanPush`, `Drained`: the queues at the two ends;
* `WiringCovers`: every queue and every port is given out exactly once;
* `wiringCovers_iff`: this is so exactly when the number of NIC ports divides that of the queues.
-/

namespace RotorXdp

open Loops

variable {n v Q : ℕ}

/-- NIC TX thread `i` holds local queue `q` among the entries that it goes through. -/
def HoldsLocal (n v Q i q : ℕ) : Prop :=
  ∃ w < (wiring n v Q i).assignedPerdestCount, (wiring n v Q i).localDestQueueArray w = some q

def HoldsNonLocal (n v Q i q : ℕ) : Prop :=
  ∃ w < (wiring n v Q i).assignedPerdestCount, (wiring n v Q i).nonLocalDestQueueArray w = some q

/-- The queues that some RX thread can push to. -/
inductive CanPush (n v Q : ℕ) : QueueId → Prop
  | nonLocal {i w q : ℕ} (hi : i < n) (hw : w < Q)
      (h : (wiring n v Q (n + i)).nonLocalDestQueueArray w = some q) : CanPush n v Q (.nonLocal q)
  | loc {j w q : ℕ} (hj : j < v) (hw : w < Q)
      (h : (wiring n v Q (2 * n + j)).localDestQueueArray w = some q) : CanPush n v Q (.loc q)
  | veth {i g q : ℕ} (hi : i < n) (hg : g < v)
      (h : (wiring n v Q (n + i)).vethSideQueueArray g = some q) : CanPush n v Q (.veth q)

/-- The queues that some TX thread pulls from; a NIC TX thread does so once for each of its
ports. -/
inductive Drained (n v Q : ℕ) : QueueId → Prop
  | nonLocal {i q : ℕ} (hi : i < n) (hport : 0 < (wiring n v Q i).assignedQueueCount)
      (h : HoldsNonLocal n v Q i q) : Drained n v Q (.nonLocal q)
  | loc {i q : ℕ} (hi : i < n) (hport : 0 < (wiring n v Q i).assignedQueueCount)
      (h : HoldsLocal n v Q i q) : Drained n v Q (.loc q)
  | veth {j q : ℕ} (hj : j < v)
      (h : (wiring n v Q (2 * n + v + j)).vethSideQueueArray 0 = some q) : Drained n v Q (.veth q)

/-- Queues and ports are each given to exactly one thread, and no push is lost. -/
structure WiringCovers (n v Q : ℕ) : Prop where
  localQueue : ∀ q < Q, ∃! i, i < n ∧ HoldsLocal n v Q i q
  nonLocalQueue : ∀ q < Q, ∃! i, i < n ∧ HoldsNonLocal n v Q i q
  nicTx : ∀ p < n, ∃! i, i < n ∧
    ∃ k < (wiring n v Q i).assignedQueueCount, (wiring n v Q i).portsTx k = some p
  nicRx : ∀ p < n, ∃! i, i < n ∧
    ∃ k < (wiring n v Q (n + i)).assignedQueueCount, (wiring n v Q (n + i)).portsRx k = some p
  vethRx : ∀ p, n ≤ p → p < n + v → ∃! j, j < v ∧ (wiring n v Q (2 * n + j)).portsRx 0 = some p
  vethTx : ∀ p, n ≤ p → p < n + v →
    ∃! j, j < v ∧ (wiring n v Q (2 * n + v + j)).portsTx 0 = some p
  drained : ∀ queue, CanPush n v Q queue → Drained n v Q queue

/-- The entries of an array that a loop has filled from `c * i` on. -/
theorem filled_block_iff {c i q : ℕ} :
    (∃ w < c, filled (fun _ => none) some (c * i) c w = some q) ↔ ∃ w < c, q = c * i + w := by
  constructor
  · rintro ⟨w, hw, h⟩
    exact ⟨w, hw, (filled_eq_some.1 h).2⟩
  · rintro ⟨w, hw, h⟩
    exact ⟨w, hw, filled_eq_some.2 ⟨hw, h⟩⟩

theorem holdsLocal_iff {i q : ℕ} (hi : i < n) :
    HoldsLocal n v Q i q ↔ ∃ w < Q / n, q = Q / n * i + w := by
  rw [HoldsLocal, wiring_nicTx hi]
  exact filled_block_iff

theorem holdsNonLocal_iff {i q : ℕ} (hi : i < n) :
    HoldsNonLocal n v Q i q ↔ ∃ w < Q / n, q = Q / n * i + w := by
  rw [HoldsNonLocal, wiring_nicTx hi]
  exact filled_block_iff

/-- Blocks of `c` cover the numbers below `c * n`, each number lying in one block. -/
theorem existsUnique_block {c q : ℕ} (hq : q < c * n) :
    ∃! i, i < n ∧ ∃ w < c, q = c * i + w := by
  have hc : 0 < c := Nat.pos_of_mul_pos_right (Nat.zero_lt_of_lt hq)
  refine ⟨q / c, ⟨Nat.div_lt_of_lt_mul hq, q % c, Nat.mod_lt q hc, (Nat.div_add_mod q c).symm⟩, ?_⟩
  rintro i ⟨-, w, hw, rfl⟩
  rw [Nat.mul_add_div hc, Nat.div_eq_of_lt hw, Nat.add_zero]

/-- Nothing from `c * n` on lies in a block. -/
theorem lt_of_block {c i w q : ℕ} (hi : i < n) (hw : w < c) (h : q = c * i + w) : q < c * n :=
  calc q = c * i + w := h
    _ < c * (i + 1) := by rw [Nat.mul_succ]; omega
    _ ≤ c * n := Nat.mul_le_mul_left c hi

theorem dvd_of_localQueue (h : ∀ q < Q, ∃! i, i < n ∧ HoldsLocal n v Q i q) : n ∣ Q := by
  have hle : Q / n * n ≤ Q := Nat.div_mul_le_self Q n
  rcases Nat.lt_or_ge (Q / n * n) Q with hlt | hge
  · -- the first queue of the remainder is in nobody's block
    obtain ⟨i, ⟨hi, hholds⟩, -⟩ := h _ hlt
    obtain ⟨w, hw, hq⟩ := (holdsLocal_iff hi).1 hholds
    exact absurd (lt_of_block hi hw hq) (Nat.lt_irrefl _)
  · exact ⟨Q / n, by rw [Nat.mul_comm]; omega⟩

section Dvd

variable (hn : 0 < n) (hdvd : n ∣ Q)
include hdvd

theorem lt_blocks {q : ℕ} (hq : q < Q) : q < Q / n * n := by
  rwa [Nat.div_mul_cancel hdvd]

theorem local_once {q : ℕ} (hq : q < Q) : ∃! i, i < n ∧ HoldsLocal n v Q i q := by
  rw [existsUnique_congr fun i => and_congr_right fun hi => holdsLocal_iff hi]
  exact existsUnique_block (lt_blocks hdvd hq)

theorem nonLocal_once {q : ℕ} (hq : q < Q) : ∃! i, i < n ∧ HoldsNonLocal n v Q i q := by
  rw [existsUnique_congr fun i => and_congr_right fun hi => holdsNonLocal_iff hi]
  exact existsUnique_block (lt_blocks hdvd hq)

include hn

theorem drained_of_canPush {queue : QueueId} (h : CanPush n v Q queue) : Drained n v Q queue := by
  have hport {i : ℕ} (hi : i < n) : 0 < (wiring n v Q i).assignedQueueCount := by
    rw [wiring_nicTx hi]
    show 0 < n / n
    rw [Nat.div_self hn]
    exact Nat.one_pos
  cases h with
  | nonLocal hi hw h =>
    rw [wiring_nicRx hi] at h
    obtain ⟨hq, rfl⟩ := filled_eq_some.1 h
    obtain ⟨j, ⟨hj, hholds⟩, -⟩ := nonLocal_once (v := v) hdvd (q := 0 + _) (by rwa [Nat.zero_add])
    exact .nonLocal hj (hport hj) hholds
  | loc hj hw h =>
    rw [wiring_vethRx hj] at h
    obtain ⟨hq, rfl⟩ := filled_eq_some.1 h
    obtain ⟨i, ⟨hi, hholds⟩, -⟩ := local_once (v := v) hdvd (q := 0 + _) (by rwa [Nat.zero_add])
    exact .loc hi (hport hi) hholds
  | veth hi hg h =>
    rw [wiring_nicRx hi] at h
    obtain ⟨hq, rfl⟩ := filled_eq_some.1 h
    refine .veth hq ?_
    rw [wiring_vethTx hq]
    exact filled_eq_some.2 ⟨Nat.one_pos, by omega⟩

end Dvd

/-! ### Ports -/

theorem nicTx_once {p : ℕ} (hp : p < n) : ∃! i, i < n ∧
    ∃ k < (wiring n v Q i).assignedQueueCount, (wiring n v Q i).portsTx k = some p := by
  have hiff : ∀ i, (i < n ∧ ∃ k < (wiring n v Q i).assignedQueueCount,
      (wiring n v Q i).portsTx k = some p) ↔ (i < n ∧ ∃ k < n / n, p = n / n * i + k) := by
    intro i
    refine and_congr_right fun hi => ?_
    rw [wiring_nicTx hi]
    exact filled_block_iff
  rw [existsUnique_congr hiff]
  exact existsUnique_block (lt_blocks (Nat.dvd_refl n) hp)

theorem nicRx_once {p : ℕ} (hp : p < n) : ∃! i, i < n ∧
    ∃ k < (wiring n v Q (n + i)).assignedQueueCount,
      (wiring n v Q (n + i)).portsRx k = some p := by
  have hiff : ∀ i, (i < n ∧ ∃ k < (wiring n v Q (n + i)).assignedQueueCount,
      (wiring n v Q (n + i)).portsRx k = some p) ↔ (i < n ∧ ∃ k < n / n, p = n / n * i + k) := by
    intro i
    refine and_congr_right fun hi => ?_
    rw [wiring_nicRx hi]
    exact filled_block_iff
  rw [existsUnique_congr hiff]
  exact existsUnique_block (lt_blocks (Nat.dvd_refl n) hp)

theorem vethRx_once {p : ℕ} (hle : n ≤ p) (hlt : p < n + v) :
    ∃! j, j < v ∧ (wiring n v Q (2 * n + j)).portsRx 0 = some p := by
  obtain ⟨j, rfl⟩ := Nat.exists_eq_add_of_le hle
  have hj : j < v := Nat.add_lt_add_iff_left.1 hlt
  refine ⟨j, ⟨hj, ?_⟩, ?_⟩
  · rw [wiring_vethRx hj]; exact filled_eq_some.2 ⟨Nat.one_pos, by omega⟩
  · rintro i ⟨hi, h⟩
    rw [wiring_vethRx hi, vethRxThread, filled_eq_some] at h
    omega

theorem vethTx_once {p : ℕ} (hle : n ≤ p) (hlt : p < n + v) :
    ∃! j, j < v ∧ (wiring n v Q (2 * n + v + j)).portsTx 0 = some p := by
  obtain ⟨j, rfl⟩ := Nat.exists_eq_add_of_le hle
  have hj : j < v := Nat.add_lt_add_iff_left.1 hlt
  refine ⟨j, ⟨hj, ?_⟩, ?_⟩
  · rw [wiring_vethTx hj]; exact filled_eq_some.2 ⟨Nat.one_pos, by omega⟩
  · rintro i ⟨hi, h⟩
    rw [wiring_vethTx hi, vethTxThread, filled_eq_some] at h
    omega

/-- The set-up gives out every queue exactly when `NUM_OF_PER_DEST_QUEUES` is a multiple of
`n_nic_ports`. -/
theorem wiringCovers_iff (n v Q : ℕ) (hn : 1 ≤ n) : WiringCovers n v Q ↔ n ∣ Q := by
  constructor
  · intro h
    exact dvd_of_localQueue h.localQueue
  · intro hdvd
    exact
      { localQueue := fun q hq => local_once hdvd hq
        nonLocalQueue := fun q hq => nonLocal_once hdvd hq
        nicTx := fun p hp => nicTx_once hp
        nicRx := fun p hp => nicRx_once hp
        vethRx := fun p => vethRx_once
        vethTx := fun p => vethTx_once
        drained := fun queue => drained_of_canPush hn hdvd }

/-- Four NIC ports share the 32 queues evenly; with eight namespaces that is `MAX_PORTS`. -/
theorem wiringCovers_four : 1 ≤ 4 ∧ WiringCovers 4 8 32 :=
  ⟨by decide, (wiringCovers_iff 4 8 32 (by decide)).2 (by decide)⟩

/-- With three NIC ports, nobody takes queue 30 of the 32. -/
theorem three_ports_strand : ¬ WiringCovers 3 8 32 := by
  intro h
  obtain ⟨i, ⟨hi, hholds⟩, -⟩ := h.localQueue 30 (by decide)
  obtain ⟨w, hw, hq⟩ := (holdsLocal_iff hi).1 hholds
  have hdiv : 32 / 3 = 10 := by decide
  rw [hdiv] at hw hq
  omega

end RotorXdp
