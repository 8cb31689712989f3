import RotorXdp.Lib.Loop
import RotorXdp.Structures
import Mathlib.Tactic.DefEqTransformations

/-!
# The set-up of ports and threads

`main` of `emu_nic.c`: which interface each port sits on and, by four loops with running counters,
which ports and queues each thread is given. `n` is `n_nic_ports`, `v` is `veth_port_count` and `Q`
is `NUM_OF_PER_DEST_QUEUES`. Ports and queues are known by their number; an array entry that is not
written stays `none`. The arrays are taken to be large enough.

* `ifaces`, `wiring`: the loops;
* `wiring_nicTx`, `wiring_nicRx`, `wiring_vethRx`, `wiring_vethTx`: what they leave in each thread.
-/

namespace RotorXdp

open Function Loops

/-- `struct thread_data`: the fields that the loops write and the threads read. -/
structure ThreadData where
  portsRx : ℕ → Option ℕ
  portsTx : ℕ → Option ℕ
  localDestQueueArray : ℕ → Option ℕ
  nonLocalDestQueueArray : ℕ → Option ℕ
  vethSideQueueArray : ℕ → Option ℕ
  assignedQueueCount : ℕ
  assignedPerdestCount : ℕ

/-- A zero-initialised array entry. -/
def ThreadData.zero : ThreadData :=
  ⟨fun _ => none, fun _ => none, fun _ => none, fun _ => none, fun _ => none, 0, 0⟩

/-- `port_params[x].iface` for all ports; entries of `out_veth_arr` beyond its end are `none`. -/
def ifaces (nicIface : String) (n v : ℕ) : ℕ → Option String :=
  let nic := forLoop n (fun y iface => update iface y (some nicIface)) fun _ => none
  (forLoop v (fun j (iface, z) => (update iface (n + j) outVethArr[z]?, z + 1)) (nic, 0)).1

/-- NIC TX threads: thread `i` for `i < n`. -/
def setNicTx (n Q : ℕ) (threads : ℕ → ThreadData) : ℕ → ThreadData :=
  let assignedQueueCount := n / n
  let assignedPerdestCount := Q / n
  (forLoop n (fun i (threads, queueIndex) =>
    let (t, queueIndex) := forLoop assignedQueueCount (fun k (t, queueIndex) =>
      ({ t with portsTx := update t.portsTx k (some queueIndex) }, queueIndex + 1))
      (threads i, queueIndex)
    let t : ThreadData := { t with
      assignedQueueCount := assignedQueueCount
      assignedPerdestCount := assignedPerdestCount }
    let (t, _) := forLoop assignedPerdestCount (fun w (t, queueIdStart) =>
      ({ t with
          localDestQueueArray := update t.localDestQueueArray w (some queueIdStart)
          nonLocalDestQueueArray := update t.nonLocalDestQueueArray w (some queueIdStart) },
        queueIdStart + 1))
      (t, assignedPerdestCount * i)
    (update threads i t, queueIndex)) (threads, 0)).1

/-- NIC RX threads: thread `n + i` for `i < n`. -/
def setNicRx (n v Q : ℕ) (threads : ℕ → ThreadData) : ℕ → ThreadData :=
  let assignedQueueCount := n / n
  (forLoop n (fun i (threads, queueIndex) =>
    let (t, queueIndex) := forLoop assignedQueueCount (fun k (t, queueIndex) =>
      ({ t with portsRx := update t.portsRx k (some queueIndex) }, queueIndex + 1))
      (threads (n + i), queueIndex)
    let t : ThreadData := { t with assignedQueueCount := assignedQueueCount }
    let t := forLoop Q (fun w t =>
      { t with nonLocalDestQueueArray := update t.nonLocalDestQueueArray w (some w) }) t
    let t := forLoop v (fun g t =>
      { t with vethSideQueueArray := update t.vethSideQueueArray g (some g) }) t
    (update threads (n + i) t, queueIndex)) (threads, 0)).1

/-- Veth RX threads: thread `2 * n + j` for `j < v`. -/
def setVethRx (n v Q : ℕ) (threads : ℕ → ThreadData) : ℕ → ThreadData :=
  (forLoop v (fun j (threads, portIndex) =>
    let t : ThreadData := threads (2 * n + j)
    let t := { t with portsRx := update t.portsRx 0 (some portIndex) }
    let t := forLoop Q (fun w t =>
      { t with localDestQueueArray := update t.localDestQueueArray w (some w) }) t
    (update threads (2 * n + j) t, portIndex + 1)) (threads, n)).1

/-- Veth TX threads: thread `2 * n + v + j` for `j < v`. -/
def setVethTx (n v : ℕ) (threads : ℕ → ThreadData) : ℕ → ThreadData :=
  (forLoop v (fun j (threads, portIndex, g) =>
    let t : ThreadData := threads (2 * n + v + j)
    let t := { t with
      portsTx := update t.portsTx 0 (some portIndex)
      vethSideQueueArray := update t.vethSideQueueArray 0 (some g) }
    (update threads (2 * n + v + j) t, portIndex + 1, g + 1)) (threads, n, 0)).1

/-- `thread_data` after the set-up. -/
def wiring (n v Q : ℕ) : ℕ → ThreadData :=
  setVethTx n v (setVethRx n v Q (setNicRx n v Q (setNicTx n Q fun _ => .zero)))

/-! ### What the loops leave -/

def nicTxThread (n Q i : ℕ) : ThreadData :=
  { ThreadData.zero with
    portsTx := filled (fun _ => none) some (n / n * i) (n / n)
    localDestQueueArray := filled (fun _ => none) some (Q / n * i) (Q / n)
    nonLocalDestQueueArray := filled (fun _ => none) some (Q / n * i) (Q / n)
    assignedQueueCount := n / n
    assignedPerdestCount := Q / n }

def nicRxThread (n v Q i : ℕ) : ThreadData :=
  { ThreadData.zero with
    portsRx := filled (fun _ => none) some (n / n * i) (n / n)
    nonLocalDestQueueArray := filled (fun _ => none) some 0 Q
    vethSideQueueArray := filled (fun _ => none) some 0 v
    assignedQueueCount := n / n }

def vethRxThread (n Q j : ℕ) : ThreadData :=
  { ThreadData.zero with
    portsRx := filled (fun _ => none) some (n + j) 1
    localDestQueueArray := filled (fun _ => none) some 0 Q }

def vethTxThread (n j : ℕ) : ThreadData :=
  { ThreadData.zero with
    portsTx := filled (fun _ => none) some (n + j) 1
    vethSideQueueArray := filled (fun _ => none) some j 1 }

variable {n v Q : ℕ} {threads : ℕ → ThreadData}

/-- A loop that replaces `threads (a + i)` in round `i` and carries a counter along. -/
theorem forLoop_threads {κ : Type*} {m : ℕ}
    {body : ℕ → (ℕ → ThreadData) × κ → (ℕ → ThreadData) × κ} (a : ℕ) (c : ℕ → κ)
    (new : ℕ → ThreadData)
    (hbody : ∀ i ths, i < m → ths (a + i) = threads (a + i) →
      body i (ths, c i) = (update ths (a + i) (new i), c (i + 1))) :
    (forLoop m body (threads, c 0)).1 =
      fun t => if a ≤ t ∧ t < a + m then new (t - a) else threads t := by
  have h : forLoop m body (threads, c 0) =
      (fun t => if a ≤ t ∧ t < a + m then new (t - a) else threads t, c m) :=
    forLoop_invariant
      (fun i s => s = (fun t => if a ≤ t ∧ t < a + i then new (t - a) else threads t, c i)) ?_ ?_
  · rw [h]
  · congr 1
    funext t
    rw [if_neg (by omega)]
  · rintro i _ hi rfl
    rw [hbody i _ hi (by simp)]
    congr 1
    funext t
    by_cases ht : t = a + i
    · subst ht; simp
    · have : (a ≤ t ∧ t < a + (i + 1)) ↔ (a ≤ t ∧ t < a + i) := by omega
      rw [update_of_ne ht, if_congr this rfl rfl]

/-! The inner loops, each filling arrays of one thread. -/

theorem forLoop_portsTx (t : ThreadData) (c m : ℕ) :
    forLoop m (fun k (s : ThreadData × ℕ) =>
        ({ s.1 with portsTx := update s.1.portsTx k (some s.2) }, s.2 + 1)) (t, c) =
      ({ t with portsTx := filled t.portsTx some c m }, c + m) :=
  forLoop_invariant
    (fun k s => s = ({ t with portsTx := filled t.portsTx some c k }, c + k)) rfl (by
      rintro k _ - rfl; simp only [update_filled, Nat.add_assoc])

theorem forLoop_portsRx (t : ThreadData) (c m : ℕ) :
    forLoop m (fun k (s : ThreadData × ℕ) =>
        ({ s.1 with portsRx := update s.1.portsRx k (some s.2) }, s.2 + 1)) (t, c) =
      ({ t with portsRx := filled t.portsRx some c m }, c + m) :=
  forLoop_invariant
    (fun k s => s = ({ t with portsRx := filled t.portsRx some c k }, c + k)) rfl (by
      rintro k _ - rfl; simp only [update_filled, Nat.add_assoc])

theorem forLoop_perdest (t : ThreadData) (c m : ℕ) :
    forLoop m (fun w (s : ThreadData × ℕ) =>
        ({ s.1 with
            localDestQueueArray := update s.1.localDestQueueArray w (some s.2)
            nonLocalDestQueueArray := update s.1.nonLocalDestQueueArray w (some s.2) },
          s.2 + 1)) (t, c) =
      ({ t with
          localDestQueueArray := filled t.localDestQueueArray some c m
          nonLocalDestQueueArray := filled t.nonLocalDestQueueArray some c m }, c + m) :=
  forLoop_invariant
    (fun k s => s = ({ t with
          localDestQueueArray := filled t.localDestQueueArray some c k
          nonLocalDestQueueArray := filled t.nonLocalDestQueueArray some c k }, c + k)) rfl (by
      rintro k _ - rfl; simp only [update_filled, Nat.add_assoc])

theorem forLoop_nonLocal (t : ThreadData) (m : ℕ) :
    forLoop m (fun w (t : ThreadData) =>
        { t with nonLocalDestQueueArray := update t.nonLocalDestQueueArray w (some w) }) t =
      { t with nonLocalDestQueueArray := filled t.nonLocalDestQueueArray some 0 m } :=
  forLoop_invariant
    (fun k s => s = { t with
      nonLocalDestQueueArray := filled t.nonLocalDestQueueArray some 0 k }) rfl (by
      rintro k _ - rfl
      simp only [← update_filled, Nat.zero_add])

theorem forLoop_local (t : ThreadData) (m : ℕ) :
    forLoop m (fun w (t : ThreadData) =>
        { t with localDestQueueArray := update t.localDestQueueArray w (some w) }) t =
      { t with localDestQueueArray := filled t.localDestQueueArray some 0 m } :=
  forLoop_invariant
    (fun k s => s = { t with localDestQueueArray := filled t.localDestQueueArray some 0 k }) rfl (by
      rintro k _ - rfl
      simp only [← update_filled, Nat.zero_add])

theorem forLoop_vethSide (t : ThreadData) (m : ℕ) :
    forLoop m (fun g (t : ThreadData) =>
        { t with vethSideQueueArray := update t.vethSideQueueArray g (some g) }) t =
      { t with vethSideQueueArray := filled t.vethSideQueueArray some 0 m } :=
  forLoop_invariant
    (fun k s => s = { t with vethSideQueueArray := filled t.vethSideQueueArray some 0 k }) rfl (by
      rintro k _ - rfl
      simp only [← update_filled, Nat.zero_add])

/-! The outer loops. -/

theorem setNicTx_eq (h : ∀ i < n, threads i = .zero) : setNicTx n Q threads =
    fun t => if 0 ≤ t ∧ t < 0 + n then nicTxThread n Q (t - 0) else threads t := by
  refine forLoop_threads 0 (fun i => n / n * i) (nicTxThread n Q) fun i ths hi hths => ?_
  rw [Nat.zero_add, h i hi] at hths
  simp only [Nat.zero_add, hths, forLoop_portsTx, forLoop_perdest]
  rfl

theorem setNicRx_eq (h : ∀ i < n, threads (n + i) = .zero) : setNicRx n v Q threads =
    fun t => if n ≤ t ∧ t < n + n then nicRxThread n v Q (t - n) else threads t := by
  refine forLoop_threads n (fun i => n / n * i) (nicRxThread n v Q) fun i ths hi hths => ?_
  rw [h i hi] at hths
  simp only [hths, forLoop_portsRx, forLoop_nonLocal, forLoop_vethSide]
  rfl

theorem setVethRx_eq (h : ∀ j < v, threads (2 * n + j) = .zero) : setVethRx n v Q threads =
    fun t => if 2 * n ≤ t ∧ t < 2 * n + v then vethRxThread n Q (t - 2 * n) else threads t := by
  refine forLoop_threads (2 * n) (fun j => n + j) (vethRxThread n Q) fun j ths hj hths => ?_
  rw [h j hj] at hths
  have hrx : update ThreadData.zero.portsRx 0 (some (n + j)) =
      filled (fun _ => none) some (n + j) 1 := update_filled _ _ _ 0
  simp only [hths, forLoop_local, hrx]
  rfl

theorem setVethTx_eq (h : ∀ j < v, threads (2 * n + v + j) = .zero) : setVethTx n v threads =
    fun t => if 2 * n + v ≤ t ∧ t < 2 * n + v + v then vethTxThread n (t - (2 * n + v))
      else threads t := by
  refine forLoop_threads (2 * n + v) (fun j => (n + j, j)) (vethTxThread n) fun j ths hj hths => ?_
  rw [h j hj] at hths
  have htx : update ThreadData.zero.portsTx 0 (some (n + j)) =
      filled (fun _ => none) some (n + j) 1 := update_filled _ _ _ 0
  have hq : update ThreadData.zero.vethSideQueueArray 0 (some j) =
      filled (fun _ => none) some j 1 := update_filled _ _ _ 0
  simp only [hths, htx, hq]
  rfl

/-- The four groups of threads are disjoint, so every loop finds its threads unwritten. -/
theorem wiring_eq (n v Q t : ℕ) : wiring n v Q t =
    if t < n then nicTxThread n Q t
    else if t < 2 * n then nicRxThread n v Q (t - n)
    else if t < 2 * n + v then vethRxThread n Q (t - 2 * n)
    else if t < 2 * n + 2 * v then vethTxThread n (t - (2 * n + v))
    else .zero := by
  rw [wiring, setNicTx_eq fun _ _ => rfl,
    setNicRx_eq fun i hi => if_neg (by omega),
    setVethRx_eq fun j hj => by rw [if_neg (by omega), if_neg (by omega)],
    setVethTx_eq fun j hj => by rw [if_neg (by omega), if_neg (by omega), if_neg (by omega)]]
  beta_reduce
  by_cases h1 : t < n
  · rw [if_neg (by omega), if_neg (by omega), if_neg (by omega), if_pos (by omega), if_pos h1,
      Nat.sub_zero]
  · by_cases h2 : t < 2 * n
    · rw [if_neg (by omega), if_neg (by omega), if_pos (by omega), if_neg h1, if_pos h2]
    · by_cases h3 : t < 2 * n + v
      · rw [if_neg (by omega), if_pos (by omega), if_neg h1, if_neg h2, if_pos h3]
      · rw [if_neg h1, if_neg h2, if_neg h3]
        by_cases h4 : t < 2 * n + 2 * v
        · rw [if_pos (by omega), if_pos h4]
        · rw [if_neg (by omega), if_neg (by omega), if_neg (by omega), if_neg (by omega),
            if_neg h4]

theorem wiring_nicTx {i : ℕ} (h : i < n) : wiring n v Q i = nicTxThread n Q i := by
  rw [wiring_eq, if_pos h]

theorem wiring_nicRx {i : ℕ} (h : i < n) : wiring n v Q (n + i) = nicRxThread n v Q i := by
  rw [wiring_eq, if_neg (by omega), if_pos (by omega), Nat.add_sub_cancel_left]

theorem wiring_vethRx {j : ℕ} (h : j < v) : wiring n v Q (2 * n + j) = vethRxThread n Q j := by
  rw [wiring_eq, if_neg (by omega), if_neg (by omega), if_pos (by omega), Nat.add_sub_cancel_left]

theorem wiring_vethTx {j : ℕ} (h : j < v) : wiring n v Q (2 * n + v + j) = vethTxThread n j := by
  rw [wiring_eq, if_neg (by omega), if_neg (by omega), if_neg (by omega), if_pos (by omega),
    Nat.add_sub_cancel_left]

/-- The interfaces: the NIC for the first `n` ports, then the outer veths in order. -/
theorem ifaces_eq (nicIface : String) (n v x : ℕ) : ifaces nicIface n v x =
    if x < n then some nicIface else if x < n + v then outVethArr[x - n]? else none := by
  have hnic : forLoop n (fun y iface => update iface y (some nicIface)) (fun _ => none)
      = filled (fun _ => none) (fun _ => some nicIface) 0 n :=
    forLoop_invariant
      (fun k s => s = filled (fun _ => none) (fun _ => some nicIface) 0 k) rfl (by
        rintro k _ - rfl; exact update_filled _ (fun _ => some nicIface) 0 k)
  have hveth : forLoop v (fun j (s : (ℕ → Option String) × ℕ) =>
        (update s.1 (n + j) outVethArr[s.2]?, s.2 + 1))
        (filled (fun _ => none) (fun _ => some nicIface) 0 n, 0)
      = (fun x => if x < n then some nicIface else if x < n + v then outVethArr[x - n]? else none,
        v) := by
    refine forLoop_invariant (fun k s => s = (fun x => if x < n then some nicIface
      else if x < n + k then outVethArr[x - n]? else none, k)) ?_ ?_
    · congr 1
      funext x
      by_cases hx : x < n
      · simp [filled, hx]
      · simp [filled, hx]
    · rintro k _ - rfl
      congr 1
      funext x
      by_cases hx : x = n + k
      · subst hx
        rw [update_self, if_neg (by omega), if_pos (by omega), Nat.add_sub_cancel_left]
      · have : x < n + (k + 1) ↔ x < n + k := by omega
        rw [update_of_ne hx, if_congr this rfl rfl]
  simp only [ifaces, hnic, hveth]

theorem filled_some (a k j : ℕ) (h : j < k) : filled (fun _ => none) some a k j = some (a + j) := by
  rw [filled, if_pos h]

theorem filled_eq_some {a k j x : ℕ} :
    filled (fun _ => none) some a k j = some x ↔ j < k ∧ x = a + j := by
  by_cases h : j < k
  · rw [filled_some _ _ _ h]
    simp [h, eq_comm]
  · simp [filled, h]

/-- Slot `w` of NIC TX thread `i` is the queue `Q / n * i + w`, in both arrays. -/
theorem localDest_nicTx {i w q : ℕ} (h : i < n) :
    (wiring n v Q i).localDestQueueArray w = some q ↔ w < Q / n ∧ q = Q / n * i + w := by
  rw [wiring_nicTx h]
  exact filled_eq_some

theorem nonLocalDest_nicTx {i w q : ℕ} (h : i < n) :
    (wiring n v Q i).nonLocalDestQueueArray w = some q ↔ w < Q / n ∧ q = Q / n * i + w := by
  rw [wiring_nicTx h]
  exact filled_eq_some

/-- A queue below `Q / n * n` has one slot in one NIC TX thread, the others have none. -/
theorem forall_slot_iff {q : ℕ} {P : ℕ → Prop} :
    (∀ i < n, ∀ w, w < Q / n ∧ q = Q / n * i + w → P w) ↔ (q < Q / n * n → P (q % (Q / n))) := by
  constructor
  · intro h hq
    have hpos : 0 < Q / n := by
      rcases Nat.eq_zero_or_pos (Q / n) with h0 | h0
      · rw [h0, Nat.zero_mul] at hq; omega
      · exact h0
    refine h (q / (Q / n)) ((Nat.div_lt_iff_lt_mul hpos).2 (by rwa [Nat.mul_comm] at hq)) _
      ⟨Nat.mod_lt q hpos, (Nat.div_add_mod q (Q / n)).symm⟩
  · rintro h i hi w ⟨hw, rfl⟩
    have hlt : Q / n * i + w < Q / n * n := by
      calc Q / n * i + w < Q / n * i + Q / n := by omega
        _ = Q / n * (i + 1) := (Nat.mul_succ _ _).symm
        _ ≤ Q / n * n := Nat.mul_le_mul_left _ hi
    have hmod : (Q / n * i + w) % (Q / n) = w := by
      rw [Nat.mul_add_mod, Nat.mod_eq_of_lt hw]
    rw [← hmod]
    exact h hlt

end RotorXdp
