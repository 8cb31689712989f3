import RotorXdp.Flow

/-!
# The next hop of a frame

The RX threads number the queues by destination. A NIC TX thread numbers its own slots from 0 and
looks the next hop up for the slot, not for the queue. The two agree for the first thread only.

* `Offered.number`: the queue of a frame is its destination's;
* `prepare_hop`: the MAC address written is that of the slot's row;
* `next_hop_iff`: the frames that are sent to the next hop of their own destination.
-/

namespace RotorXdp

open Function Runs Bytes

variable {P : NodeParams} {s : Node} {t i : ℕ} {Q : QueueId} {x : Packet}

/-- The destination address of the frame that a namespace has sent. -/
def Packet.destination (P : NodeParams) (x : Packet) : ℕ :=
  if x.port < P.n then x.rx.innerDaddr else x.rx.daddr

/-- The number of a per-destination queue. -/
def QueueId.number : QueueId → ℕ
  | .loc q => q
  | .nonLocal q => q
  | .veth q => q

/-! ### From the destination to the queue -/

/-- A frame to be forwarded is offered to the queue of its destination. -/
theorem nicReceive_number {ret ret' : ReturnProcessRx} {f f' : Frame} {q r : ℕ}
    (h : nicReceive P (P.n + i) ret f = .ok (ret', .offer (.nonLocal q) f')) (hi : i < P.n)
    (hchk : f.passesChecks) (hlen : innerIp + iphdrLen ≤ f.len)
    (hr : mgMapGet P.g.ipTable (constructDestIp f.innerDaddr) = some r) :
    (q : ℤ) = ipSetIndex P.g.ipTable r - 1 := by
  unfold nicReceive at h
  split at h
  · exact absurd h (by simp)
  · rename_i locals hlocals
    rw [NodeParams.thread, nicLocals_eq_ok hi] at hlocals
    obtain ⟨-, rfl⟩ := hlocals
    split at h
    · exact absurd h (by simp)
    · rename_i m ret₁ q₁ len hf
      cases h
      by_cases hsrc : f.outerDaddr = P.g.srcIp
      · obtain ⟨-, -, o, -, hverdict⟩ := nicFrame_local hchk hsrc (ne_mark hlen) hf
        cases o <;> cases hverdict
      · obtain ⟨p, o, hp, he, hverdict⟩ := nicFrame_remote hchk hsrc hf
        obtain ⟨h0, hlt, -⟩ := readEntry_eq_ok.1 he
        rw [readEntry_nonLocal h0 hlt] at he
        cases he
        cases hverdict
        cases hr.symm.trans hp
        omega
    · cases h
    · cases h
    · cases h

/-- A frame from a namespace is offered to the queue of its destination. -/
theorem vethReceive_number {f f' : Frame} {q r j : ℕ}
    (h : vethReceive P (2 * P.n + j) f = .ok (.offer (.loc q) f')) (hj : j < P.v)
    (hr : mgMapGet P.g.ipTable (constructDestIp f.daddr) = some r) :
    (q : ℤ) = ipSetIndex P.g.ipTable r - 1 := by
  unfold vethReceive at h
  split at h
  · exact absurd h (by simp)
  · rename_i destIndex hdest
    have hindex : destIndex = ipSetIndex P.g.ipTable r - 1 := by
      unfold getDestinationQueueIndex at hdest
      split at hdest
      · rw [show ipDaddr f.umem (f.data + ethHlen) = f.daddr from rfl, hr] at hdest
        exact (Except.ok.inj hdest).symm
      · exact absurd hdest (by simp)
    split at h
    · exact absurd h (by simp)
    · split at h
      · exact absurd h (by simp)
      · exact absurd h (by simp)
      · rename_i q₁ hentry
        cases h
        obtain ⟨h0, hlt, hget⟩ := readEntry_eq_ok.1 hentry
        rw [NodeParams.thread, wiring_vethRx hj, vethRxThread, filled_eq_some] at hget
        omega

/-- **A frame with a destination is in the queue of that destination.** -/
theorem Offered.number (h : Offered P Q x) (hQ : ∀ k, Q ≠ .veth k) (hwf : x.WellFormed P) {r : ℕ}
    (hr : mgMapGet P.g.ipTable (constructDestIp (x.destination P)) = some r) :
    (Q.number : ℤ) = ipSetIndex P.g.ipTable r - 1 := by
  by_cases hp : x.port < P.n
  · obtain ⟨ret, ret', hrecv⟩ := h.of_nic hp
    simp only [Packet.WellFormed, if_pos hp] at hwf
    simp only [Packet.destination, if_pos hp] at hr
    cases Q with
    | loc q => exact absurd rfl ((nicReceive_offer hrecv).2.1 q)
    | nonLocal q => exact nicReceive_number hrecv hp hwf.1 hwf.2 hr
    | veth q => exact absurd rfl (hQ q)
  · have hrecv := h.of_veth hp
    obtain ⟨-, q, rfl⟩ := vethReceive_offer hrecv
    simp only [Packet.destination, if_neg hp] at hr
    obtain ⟨j, hj⟩ := Nat.exists_eq_add_of_le (Nat.le_of_not_lt hp)
    have hthread : P.rxThread x.port = 2 * P.n + j := by
      unfold NodeParams.rxThread
      omega
    have hjv : j < P.v := by
      rcases h.role with hrole | hrole
      · have := (role_eq_nicRx hrole).2
        omega
      · have := (role_eq_vethRx hrole).2
        omega
    rw [hthread] at hrecv
    exact vethReceive_number hrecv hjv hr

/-! ### From the slot to the MAC address -/

/-- The MAC address that a NIC TX thread writes is that of the row of the slot. -/
theorem prepare_hop {topo w : ℕ} {f f' : Frame} (hQ : ∀ k, Q ≠ .veth k)
    (h : prepare P.g topo Q w f = .ok f') :
    nextHopMac P.g w topo = .ok (load f'.umem f'.data 6) := by
  unfold prepare at h
  cases Q with
  | loc q =>
    simp only at h
    split at h
    · exact absurd h (by simp)
    · rename_i m newLen hencap
      cases h
      exact encapVeth_mac hencap
  | nonLocal q =>
    simp only at h
    split at h
    · exact absurd h (by simp)
    · rename_i m hencap
      cases h
      exact encapIndirection_mac hencap
  | veth q => exact absurd rfl (hQ q)

/-- **A frame is sent to the next hop of its own destination exactly when the row of its slot and
the row of its destination give the same MAC address.** On the first thread these are one row. -/
theorem next_hop_iff (P : NodeParams) (bp : Bpool) (ports : ℕ → PortInit) (as : List NodeAct)
    (s : Node) (h : run (Node.step P) (Node.start bp ports) as = some s) (i : ℕ) (hi : i < P.n)
    (e : TxEntry) (he : e ∈ s.log.sent i) (hwf : e.packet.WellFormed P) (r : ℕ)
    (hr : mgMapGet P.g.ipTable (constructDestIp (e.packet.destination P)) = some r)
    (mac : List UInt8) (hmac : nextHopMac P.g (ipSetIndex P.g.ipTable r - 1) e.topo = .ok mac) :
    load e.frame.umem e.frame.data 6 = mac ↔
      nextHopMac P.g (ipSetIndex P.g.ipTable r - 1 - numOfPerDestQueues / P.n * i) e.topo =
        nextHopMac P.g (ipSetIndex P.g.ipTable r - 1) e.topo := by
  have hemitted := (pipeline_inv h).emitted i e (List.mem_append_left _ he)
  obtain ⟨pos, hslot⟩ := hemitted.slot
  rw [NodeParams.txThread, if_pos hi] at hslot
  obtain ⟨hw, hpos⟩ := (slotAt_nic hi).1 hslot
  have hQ : (∀ k, e.queue ≠ .veth k) ∧ e.queue.number = P.perDest * i + e.slot := by
    rcases hpos with ⟨-, hQ⟩ | ⟨-, hQ⟩ <;> rw [hQ] <;> exact ⟨by simp, rfl⟩
  have hnumber := hemitted.offered.number hQ.1 hwf hr
  have hslotIndex : (e.slot : ℤ) =
      ipSetIndex P.g.ipTable r - 1 - (numOfPerDestQueues / P.n : ℕ) * i := by
    rw [hQ.2] at hnumber
    unfold NodeParams.perDest at hnumber
    push_cast at hnumber ⊢
    omega
  have hhop := prepare_hop hQ.1 hemitted.prepared
  rw [hslotIndex] at hhop
  push_cast at hhop
  rw [hhop, hmac, Except.ok.injEq]

/-- The first of the two frames for 10.0.0.7 leaves on port 0, for the next hop of row 3. -/
theorem next_hop_first_port : ∃ s₀ s e, Node.boot ⟨100, 4096, 20, 20, 20⟩ 1 = some s₀ ∧
    run (Node.step (smallNode 1 0)) s₀ twoForwarded = some s ∧ e ∈ s.log.sent 0 ∧
    load e.frame.umem e.frame.data 6 = [0, 0, 0, 0, 0, 0] := by
  have hrun : ((Node.boot ⟨100, 4096, 20, 20, 20⟩ 1).bind fun s₀ =>
      (run (Node.step (smallNode 1 0)) s₀ twoForwarded).map fun s =>
        decide (∃ e ∈ s.log.sent 0, e.packet.WellFormed (smallNode 1 0) ∧ e.topo = 1 ∧
          constructDestIp (e.packet.destination (smallNode 1 0)) = 16777226)) = some true := by
    decide +kernel
  obtain ⟨s₀, hs₀, hmap⟩ := Option.bind_eq_some_iff.1 hrun
  obtain ⟨s, hs, hdec⟩ := Option.map_eq_some_iff.1 hmap
  obtain ⟨e, he, hwf, htopo, hdest⟩ := of_decide_eq_true hdec
  obtain ⟨bp, ports, rfl⟩ := Node.boot_eq_some hs₀
  have hmac : nextHopMac (smallNode 1 0).g 2 e.topo = .ok [0, 0, 0, 0, 0, 0] := by
    rw [htopo]; decide +kernel
  refine ⟨_, s, e, hs₀, hs, he, ?_⟩
  have hr : mgMapGet (smallNode 1 0).g.ipTable
      (constructDestIp (e.packet.destination (smallNode 1 0))) = some 4 := by
    rw [hdest]; decide +kernel
  exact (next_hop_iff (smallNode 1 0) bp ports twoForwarded s hs 0 (by decide) e he hwf 4 hr _
    hmac).2 rfl

/-! ### A destination of the second thread -/

/-- 10.0.0.1 is node 19, routed to the node with MAC address 05:…; all other rows lead to 06:…. -/
def farGlobals : Globals where
  nicIface := "ens4"
  srcIp := 33554442
  outEthSrc := [2, 0, 0, 0, 0, 1]
  outEthSrc_length := smallEthSrc_length
  ipTable := ⟨1, 8, .live (setLe32 (setLe32 (fun _ => 0) 0 16777226) 4 19)⟩
  macTable := ⟨2, 11, .live (store (setLe32 (store (setLe32 (fun _ => 0) 0 5)
    4 [5, 5, 5, 5, 5, 5]) 11 6) 15 [6, 6, 6, 6, 6, 6])⟩
  routeTable := ⟨32, 32, fun k => if k % 32 = 18 then 5 else 6⟩

/-- Two NIC ports: queue 18 is the third slot of the second TX thread. -/
def farNode : NodeParams := ⟨2, 0, farGlobals, rfl, rfl, 2048⟩

def farForwarded : List NodeAct :=
  [.create, .create, .create, .create, .readTime 0 0,
    .arrive 0 (tunnelledAt 815104), .rxBurst 2 1, .handle 2,
    .leave 1, .leave 1, .pull 1, .leave 1, .drain 1 0, .submit 1]

/-- The frame for node 19 is sent to the next hop of node 3. -/
theorem second_thread_wrong_hop : ∃ s₀ s e, Node.boot ⟨200, 4096, 20, 20, 20⟩ 2 = some s₀ ∧
    run (Node.step farNode) s₀ farForwarded = some s ∧ e ∈ s.log.sent 1 ∧
    e.packet.WellFormed farNode ∧ e.topo = 1 ∧
    mgMapGet farGlobals.ipTable (constructDestIp (e.packet.destination farNode)) = some 4 ∧
    ipSetIndex farGlobals.ipTable 4 = 19 ∧
    nextHopMac farGlobals (19 - 1) 1 = .ok [5, 5, 5, 5, 5, 5] ∧
    load e.frame.umem e.frame.data 6 = [6, 6, 6, 6, 6, 6] := by
  have hrun : ((Node.boot ⟨200, 4096, 20, 20, 20⟩ 2).bind fun s₀ =>
      (run (Node.step farNode) s₀ farForwarded).map fun s =>
        decide (∃ e ∈ s.log.sent 1, e.packet.WellFormed farNode ∧ e.topo = 1 ∧
          mgMapGet farGlobals.ipTable (constructDestIp (e.packet.destination farNode)) = some 4 ∧
          load e.frame.umem e.frame.data 6 = [6, 6, 6, 6, 6, 6])) = some true := by
    decide +kernel
  obtain ⟨s₀, hs₀, hmap⟩ := Option.bind_eq_some_iff.1 hrun
  obtain ⟨s, hs, hdec⟩ := Option.map_eq_some_iff.1 hmap
  obtain ⟨e, he, hwf, htopo, hr, hload⟩ := of_decide_eq_true hdec
  exact ⟨s₀, s, e, hs₀, hs, he, hwf, htopo, hr, by decide +kernel, by decide +kernel, hload⟩

end RotorXdp
