import RotorXdp.Lib.Run
import RotorXdp.Structures
import RotorXdp.XskRing

/-!
# The receive call and the kernel

`port_rx_burst` on one port, interleaved with the kernel: it peeks at the RX ring, releases what it
got and then loops until the fill ring takes as many new frames. The kernel takes entries from the
fill ring and posts RX descriptors that use them, in any order and at any time.

* `RxOk`: what the counters of the RX ring say while the user reads less than it sees;
* `RxSide.step`: the parts of a call and the kernel's two moves;
* `RxSide.Inv`: every frame of the fill ring comes back to it;
* `fill_ring_has_room`: the reserve loop always leaves in its first round.
-/

namespace RotorXdp

open Runs

/-! ### A consumer ring that is read in part -/

/-- `unread` entries are between the shared counters, and the user has peeked at the first `taken`
of them without a release. `cons` and `seen` are the consumer counter and the cached producer
counter before wrapping. -/
def RxOk (r : XskRing) (unread taken : ℕ) : Prop :=
  ∃ cons seen : ℕ, cons + taken ≤ seen ∧ seen ≤ cons + unread ∧
    r.producer = BitVec.ofNat 32 (cons + unread) ∧ r.consumer = BitVec.ofNat 32 cons ∧
    r.cachedCons = BitVec.ofNat 32 (cons + taken) ∧ r.cachedProd = BitVec.ofNat 32 seen

section PartialReads

variable {r : XskRing} {unread taken n : ℕ}

theorem RxOk.init (size : BitVec 32) : RxOk (.initCons size) 0 0 :=
  ⟨0, 0, Nat.le_refl _, Nat.le_refl _, rfl, rfl, rfl, rfl⟩

theorem RxOk.taken_le (h : RxOk r unread taken) : taken ≤ unread := by
  obtain ⟨cons, seen, h1, h2, -⟩ := h
  omega

theorem RxOk.pending_eq (h : RxOk r unread taken) (hlt : unread < 2 ^ 32) : r.pending = unread := by
  obtain ⟨cons, seen, -, -, hp, hc, -, -⟩ := h
  rw [XskRing.pending, hp, hc, toNat_ofNat_sub (by omega) (by omega)]
  omega

theorem RxOk.kernelProduce (h : RxOk r unread taken) : RxOk r.kernelProduce (unread + 1) taken := by
  obtain ⟨cons, seen, h1, h2, hp, hc, hcc, hcp⟩ := h
  refine ⟨cons, seen, h1, by omega, ?_, hc, hcc, hcp⟩
  rw [XskRing.kernelProduce, hp, ← Nat.add_assoc, BitVec.ofNat_add (x := cons + unread)]

theorem RxOk.release (h : RxOk r unread taken) :
    RxOk (xskRingConsRelease r (BitVec.ofNat 32 taken)) (unread - taken) 0 := by
  obtain ⟨cons, seen, h1, h2, hp, hc, hcc, hcp⟩ := h
  refine ⟨cons + taken, seen, h1, by omega, ?_, ?_, hcc, hcp⟩
  · rw [xskRingConsRelease, hp]
    congr 1
    omega
  · rw [xskRingConsRelease, hc, BitVec.ofNat_add]

/-- A peek takes at most what is asked for and at most what is there. -/
theorem RxOk.peek (h : RxOk r unread 0) (hlt : unread < 2 ^ 32) (hn : n < 2 ^ 32) :
    ∃ k, k ≤ n ∧ (xskRingConsPeek r (BitVec.ofNat 32 n)).1 = BitVec.ofNat 32 k ∧ k < 2 ^ 32 ∧
      RxOk (xskRingConsPeek r (BitVec.ofNat 32 n)).2 unread k := by
  obtain ⟨cons, seen, h1, h2, hp, hc, hcc, hcp⟩ := h
  -- `m` entries are in view, after a refresh of the cached counter if there were none
  have hpeek : ∀ (m : ℕ) (r' : XskRing), m ≤ unread →
      xskConsNbAvail r (BitVec.ofNat 32 n) =
        (if BitVec.ofNat 32 n < BitVec.ofNat 32 m then BitVec.ofNat 32 n else BitVec.ofNat 32 m,
          r') → r'.producer = r.producer → r'.consumer = r.consumer →
      r'.cachedCons = r.cachedCons → r'.cachedProd = BitVec.ofNat 32 (cons + m) →
      ∃ k, k ≤ n ∧ (xskRingConsPeek r (BitVec.ofNat 32 n)).1 = BitVec.ofNat 32 k ∧ k < 2 ^ 32 ∧
        RxOk (xskRingConsPeek r (BitVec.ofNat 32 n)).2 unread k := by
    intro m r' hm havail hp' hc' hcc' hcp'
    -- neither number wraps, so the 32-bit minimum is the minimum
    have hmin : (if BitVec.ofNat 32 n < BitVec.ofNat 32 m then BitVec.ofNat 32 n
        else BitVec.ofNat 32 m) = BitVec.ofNat 32 (min n m) := by
      have hlt' : BitVec.ofNat 32 n < BitVec.ofNat 32 m ↔ n < m := by
        rw [BitVec.lt_def, BitVec.toNat_ofNat, BitVec.toNat_ofNat, Nat.mod_eq_of_lt hn,
          Nat.mod_eq_of_lt (by omega)]
      by_cases hnm : n < m
      · rw [if_pos (hlt'.2 hnm), Nat.min_eq_left (Nat.le_of_lt hnm)]
      · rw [if_neg (mt hlt'.1 hnm), Nat.min_eq_right (by omega)]
    simp only [xskRingConsPeek, havail, hmin]
    refine ⟨min n m, Nat.min_le_left _ _, rfl, by omega, cons, cons + m, by omega, by omega,
      hp'.trans hp, hc'.trans hc, ?_, hcp'⟩
    rw [hcc', hcc, Nat.add_zero, BitVec.ofNat_add]
  have hcached : (r.cachedProd - r.cachedCons).toNat = seen - cons := by
    rw [hcp, hcc, Nat.add_zero, toNat_ofNat_sub (by omega) (by omega)]
  by_cases hseen : seen = cons
  · -- nothing in view: the producer is read again
    have hzero : r.cachedProd - r.cachedCons = 0#32 := by
      apply BitVec.eq_of_toNat_eq
      rw [hcached, hseen, Nat.sub_self]
      rfl
    have hdiff : r.producer - r.cachedCons = BitVec.ofNat 32 unread := by
      apply BitVec.eq_of_toNat_eq
      rw [hp, hcc, Nat.add_zero, toNat_ofNat_sub (by omega) (by omega), BitVec.toNat_ofNat,
        Nat.mod_eq_of_lt hlt]
      omega
    refine hpeek unread { r with cachedProd := r.producer } (Nat.le_refl _) ?_ rfl rfl rfl hp
    simp only [xskConsNbAvail, hzero, if_true, hdiff]
  · -- entries are in view, the producer is not read
    have hne : r.cachedProd - r.cachedCons ≠ 0#32 := by
      intro h0
      rw [h0] at hcached
      simp only [BitVec.toNat_zero] at hcached
      omega
    have hdiff : r.cachedProd - r.cachedCons = BitVec.ofNat 32 (seen - cons) := by
      apply BitVec.eq_of_toNat_eq
      rw [hcached, BitVec.toNat_ofNat, Nat.mod_eq_of_lt (by omega)]
    refine hpeek (seen - cons) r (by omega) ?_ rfl rfl rfl (by rw [hcp]; congr 1; omega)
    simp only [xskConsNbAvail, if_neg hne]
    rw [hdiff]

end PartialReads

/-! ### The receive side of a port -/

/-- Where a call of `port_rx_burst` is; `k` is its `n_pkts`. -/
inductive RxPhase
  | idle
  /-- the descriptors are read, `xsk_ring_cons__release` comes next -/
  | peeked (k : ℕ)
  /-- in the loop around `xsk_ring_prod__reserve` -/
  | reserving (k : ℕ)
  /-- the entries are reserved and written, `xsk_ring_prod__submit` comes next -/
  | filling (k : ℕ)
  deriving DecidableEq

/-- The receive side of a port. -/
structure RxSide where
  rxq : XskRing
  umemFq : XskRing
  /-- entries taken from the fill ring, no RX descriptor posted yet -/
  inFlight : ℕ
  phase : RxPhase

/-- What `port_init` leaves: a fill ring of `fillSize` entries, reserved and submitted as a
whole. -/
def RxSide.init (fillSize rxSize : BitVec 32) : RxSide where
  rxq := .initCons rxSize
  umemFq := xskRingProdSubmit (xskRingProdReserve (.initProd fillSize) fillSize).2 fillSize
  inFlight := 0
  phase := .idle

inductive RxAct
  /-- the call up to the peek; `n` is what `bcache_cons_check` grants -/
  | enter (n : ℕ)
  | release
  /-- one round of the loop -/
  | reserve
  | submit
  | kernelFill
  | kernelRx

/-- One step of the call or of the kernel. -/
def RxSide.step (s : RxSide) : RxAct → Option RxSide
  | .enter n =>
    if s.phase = .idle ∧ n ≤ maxBurstRx then
      if n = 0 then some s
      else
        let (k, rxq) := xskRingConsPeek s.rxq (BitVec.ofNat 32 n)
        if k = 0#32 then some { s with rxq := rxq }
        else some { s with rxq := rxq, phase := .peeked k.toNat }
    else none
  | .release =>
    match s.phase with
    | .peeked k =>
      some { s with rxq := xskRingConsRelease s.rxq (BitVec.ofNat 32 k), phase := .reserving k }
    | _ => none
  | .reserve =>
    match s.phase with
    | .reserving k =>
      let (status, umemFq) := xskRingProdReserve s.umemFq (BitVec.ofNat 32 k)
      if status = BitVec.ofNat 32 k then some { s with umemFq := umemFq, phase := .filling k }
      else some { s with umemFq := umemFq }
    | _ => none
  | .submit =>
    match s.phase with
    | .filling k =>
      some { s with umemFq := xskRingProdSubmit s.umemFq (BitVec.ofNat 32 k), phase := .idle }
    | _ => none
  | .kernelFill =>
    if 0 < s.umemFq.pending then
      some { s with umemFq := s.umemFq.kernelConsume, inFlight := s.inFlight + 1 }
    else none
  | .kernelRx =>
    if 0 < s.inFlight then
      some { s with rxq := s.rxq.kernelProduce, inFlight := s.inFlight - 1 }
    else none

/-! ### The invariant -/

/-- RX ring entries that are read and not released. -/
def RxPhase.taken : RxPhase → ℕ
  | .peeked k => k
  | _ => 0

/-- Frames released from the RX ring and not yet replaced on the fill ring. -/
def RxPhase.carried : RxPhase → ℕ
  | .reserving k | .filling k => k
  | _ => 0

/-- Fill ring entries that are reserved and not submitted. -/
def RxPhase.reserved : RxPhase → ℕ
  | .filling k => k
  | _ => 0

/-- With `used` entries on the fill ring and `unread` on the RX ring, all entries of the fill ring
are accounted for. The kernel does not see a reservation, so the fill ring is described as it will
be after the submit. -/
structure RxSide.Inv (F : BitVec 32) (s : RxSide) (used unread : ℕ) : Prop where
  fq : ProdOk F (xskRingProdSubmit s.umemFq (BitVec.ofNat 32 s.phase.reserved))
    (used + s.phase.reserved)
  rx : RxOk s.rxq unread s.phase.taken
  count : used + s.inFlight + unread + s.phase.carried = F.toNat

@[simp] theorem xskRingProdSubmit_zero (r : XskRing) : xskRingProdSubmit r 0#32 = r := by
  rw [xskRingProdSubmit, BitVec.add_zero]

variable {F : BitVec 32} {r : XskRing} {s t : RxSide} {used unread : ℕ}

/-- A reservation is not in the shared counters. -/
theorem ProdOk.pending_of_submit {k : ℕ}
    (h : ProdOk F (xskRingProdSubmit r (BitVec.ofNat 32 k)) (used + k)) : r.pending = used := by
  have hle := h.le_size
  have hF := F.isLt
  obtain ⟨-, old, cons, -, -, hp, -, hc, -⟩ := h
  have hp' : r.producer = BitVec.ofNat 32 (cons + used) := by
    rw [xskRingProdSubmit, ← Nat.add_assoc, BitVec.ofNat_add (x := cons + used)] at hp
    exact (BitVec.add_left_inj _).1 hp
  have hc' : r.consumer = BitVec.ofNat 32 cons := hc
  rw [XskRing.pending, hp', hc', toNat_ofNat_sub (by omega) (by omega)]
  omega

theorem RxSide.Inv.fill_pending (h : s.Inv F used unread) : s.umemFq.pending = used :=
  h.fq.pending_of_submit

theorem RxSide.Inv.rx_pending (h : s.Inv F used unread) : s.rxq.pending = unread := by
  have hcount := h.count
  have hF := F.isLt
  exact h.rx.pending_eq (by omega)

/-- The set-up fills the ring completely. -/
theorem RxSide.Inv.init (F rxSize : BitVec 32) : (RxSide.init F rxSize).Inv F F.toNat 0 := by
  have hres := (ProdOk.init F).reserve (n := F.toNat) F.isLt
  rw [if_pos (by omega), BitVec.ofNat_toNat, BitVec.setWidth_eq, Nat.zero_add] at hres
  refine ⟨?_, .init rxSize, by simp [RxSide.init, RxPhase.carried]⟩
  simp only [RxSide.init, RxPhase.reserved, xskRingProdSubmit_zero, Nat.add_zero]
  exact hres.2

/-- In the loop the fill ring has room for the whole burst: what the burst has taken out of the RX
ring is missing from it. -/
theorem RxSide.Inv.room (h : s.Inv F used unread) {k : ℕ} (hs : s.phase = .reserving k) :
    used + k ≤ F.toNat := by
  have hcount := h.count
  rw [hs] at hcount
  simp only [RxPhase.carried] at hcount
  omega

theorem RxSide.Inv.reserve (h : s.Inv F used unread) {k : ℕ} (hs : s.phase = .reserving k) :
    (xskRingProdReserve s.umemFq (BitVec.ofNat 32 k)).1 = BitVec.ofNat 32 k ∧
      ProdOk F (xskRingProdSubmit (xskRingProdReserve s.umemFq (BitVec.ofNat 32 k)).2
        (BitVec.ofNat 32 k)) (used + k) := by
  have hroom := h.room hs
  have hF := F.isLt
  have hfq := h.fq
  simp only [hs, RxPhase.reserved, xskRingProdSubmit_zero, Nat.add_zero] at hfq
  have hres := hfq.reserve (n := k) (by omega)
  rwa [if_pos hroom] at hres

theorem RxSide.Inv.step (h : s.Inv F used unread) {a : RxAct} (hstep : s.step a = some t) :
    ∃ used unread, t.Inv F used unread := by
  have hF := F.isLt
  have hcount := h.count
  have hfq := h.fq
  have hrx := h.rx
  cases a with
  | enter n =>
    simp only [RxSide.step] at hstep
    split at hstep
    · rename_i hg
      split at hstep
      · cases hstep
        exact ⟨used, unread, h⟩
      · have hmax : maxBurstRx < 2 ^ 32 := by decide
        simp only [hg.1, RxPhase.taken] at hrx
        obtain ⟨k, -, hk, hk32, hrx'⟩ := hrx.peek (n := n) (by omega) (by omega)
        have hnat : (BitVec.ofNat 32 k).toNat = k := by
          rw [BitVec.toNat_ofNat, Nat.mod_eq_of_lt hk32]
        rw [hk] at hstep
        refine ⟨used, unread, ?_⟩
        split at hstep
        · rename_i h0
          -- the RX ring is empty and the call returns
          have hk0 : k = 0 := by
            rw [← hnat, h0]
            rfl
          subst hk0
          cases hstep
          exact ⟨hfq, by simpa only [hg.1, RxPhase.taken] using hrx', hcount⟩
        · cases hstep
          rw [hg.1] at hfq hcount
          simp only [hnat]
          exact ⟨hfq, hrx', hcount⟩
    · exact absurd hstep (by simp)
  | release =>
    simp only [RxSide.step] at hstep
    split at hstep
    · rename_i k hs
      cases hstep
      rw [hs] at hfq hrx hcount
      -- what the burst has read leaves the RX ring and is carried
      have hle := hrx.taken_le
      simp only [RxPhase.taken, RxPhase.carried] at hrx hcount hle
      refine ⟨used, unread - k, hfq, hrx.release, ?_⟩
      simp only [RxPhase.carried]
      omega
    · exact absurd hstep (by simp)
  | reserve =>
    simp only [RxSide.step] at hstep
    split at hstep
    · rename_i k hs
      -- the other branch of the loop is never taken
      obtain ⟨hstatus, hfq'⟩ := h.reserve hs
      rw [if_pos hstatus] at hstep
      cases hstep
      rw [hs] at hrx hcount
      exact ⟨used, unread, hfq', hrx, hcount⟩
    · exact absurd hstep (by simp)
  | submit =>
    simp only [RxSide.step] at hstep
    split at hstep
    · rename_i k hs
      cases hstep
      rw [hs] at hfq hrx hcount
      simp only [RxPhase.reserved, RxPhase.carried] at hfq hcount
      -- the carried frames are on the fill ring again
      refine ⟨used + k, unread, ?_, hrx, ?_⟩
      · simpa only [RxPhase.reserved, xskRingProdSubmit_zero, Nat.add_zero] using hfq
      · simp only [RxPhase.carried]
        omega
    · exact absurd hstep (by simp)
  | kernelFill =>
    simp only [RxSide.step] at hstep
    split at hstep
    · rename_i hg
      cases hstep
      rw [h.fill_pending] at hg
      obtain ⟨m, rfl⟩ := Nat.exists_eq_succ_of_ne_zero (Nat.ne_of_gt hg)
      rw [Nat.succ_add] at hfq
      refine ⟨m, unread, hfq.kernelConsume, hrx, ?_⟩
      simp only
      omega
    · exact absurd hstep (by simp)
  | kernelRx =>
    simp only [RxSide.step] at hstep
    split at hstep
    · cases hstep
      refine ⟨used, unread + 1, hfq, hrx.kernelProduce, ?_⟩
      simp only
      omega
    · exact absurd hstep (by simp)

/-- **The reserve loop never spins**: whenever a call is in it, the fill ring has room for the
burst and the next round succeeds. Between calls the two rings and the kernel hold all `fillSize`
frames. -/
theorem fill_ring_has_room (F rxSize : BitVec 32) {as : List RxAct}
    (hrun : run RxSide.step (RxSide.init F rxSize) as = some s) :
    (∀ k, s.phase = .reserving k → s.umemFq.pending + k ≤ F.toNat ∧
      ∃ t, s.step .reserve = some t ∧ t.phase = .filling k) ∧
    (s.phase = .idle → s.umemFq.pending + s.inFlight + s.rxq.pending = F.toNat) := by
  obtain ⟨used, unread, h⟩ := run_invariant (fun s => ∃ used unread, s.Inv F used unread)
    (fun u a v hu hv => by
      obtain ⟨used, unread, h⟩ := hu
      exact h.step hv) ⟨_, _, RxSide.Inv.init F rxSize⟩ hrun
  refine ⟨fun k hs => ⟨?_, ?_⟩, fun hs => ?_⟩
  · rw [h.fill_pending]
    exact h.room hs
  · simp only [RxSide.step, hs, if_pos (h.reserve hs).1]
    exact ⟨_, rfl, rfl⟩
  · have hcount := h.count
    rw [hs] at hcount
    rw [h.fill_pending, h.rx_pending]
    exact hcount

/-- A fill ring of four entries: one frame comes in, its call is in the loop. -/
theorem fill_ring_has_room_one : ∃ s,
    run RxSide.step (RxSide.init 4 4) [.kernelFill, .kernelRx, .enter 20, .release] = some s ∧
    s.phase = .reserving 1 ∧
    (∀ k, s.phase = .reserving k → s.umemFq.pending + k ≤ (4#32).toNat ∧
      ∃ t, s.step .reserve = some t ∧ t.phase = .filling k) ∧
    (s.phase = .idle → s.umemFq.pending + s.inFlight + s.rxq.pending = (4#32).toNat) := by
  refine ⟨_, rfl, by decide, ?_⟩
  exact fill_ring_has_room 4 4
    (rfl : run RxSide.step (RxSide.init 4 4) [.kernelFill, .kernelRx, .enter 20, .release] = _)

end RotorXdp
