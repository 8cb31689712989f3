import RotorXdp.Lib.Pipeline
import RotorXdp.Ports

/-!
# The node as a pipeline

The ports are sources and servers: the RX thread of a port hands its frames to the packet queues,
the TX thread of a port pulls from its queues and sends what it has collected.

* `Node.pipeline`, `wires`: the node seen as a pipeline;
* `NodeStep.pipeline`: every step of the node is a step of the pipeline or none;
* `pipeline_inv`: the invariant of the pipeline along every run;
* `flow_in_order`: the node never reorders a flow.
-/

namespace RotorXdp

open Function Runs Pipelines

variable {P : NodeParams} {s s' : Node} {a : NodeAct} {t p : ℕ}

/-! ### The node seen as a pipeline -/

/-- The RX thread of its port offers packet `x` to queue `Q`. -/
structure Offered (P : NodeParams) (Q : QueueId) (x : Packet) : Prop where
  role : P.role (P.rxThread x.port) = some .nicRx ∨ P.role (P.rxThread x.port) = some .vethRx
  received : ∃ ret ret', receive P (P.rxThread x.port) ret x.rx = .ok (ret', .offer Q x.frame)

/-- The TX thread of port `p` makes entry `e` of a packet that was offered to it. -/
structure Emitted (P : NodeParams) (p : ℕ) (e : TxEntry) : Prop where
  slot : ∃ pos, slotAt P (P.txThread p) pos = some (e.queue, e.slot)
  offered : Offered P e.queue e.packet
  prepared : prepare P.g e.topo e.queue e.slot e.packet.frame = .ok e.frame

def wires (P : NodeParams) : Wires ℕ QueueId ℕ Packet TxEntry where
  origin := Packet.port
  number := Packet.stamp
  source := TxEntry.queue
  item := TxEntry.packet
  drains := Drains P
  drains_unique _ _ _ := drains_unique
  accepts := Offered P
  emits := Emitted P
  cap := maxBurstTx

/-- Ports as sources and servers. -/
def Node.pipeline (P : NodeParams) (s : Node) : Pipeline ℕ QueueId ℕ Packet TxEntry where
  received := s.log.received
  pending p := (s.rx (P.rxThread p)).burst
  queue := s.queue
  accepted := s.log.accepted
  collector p := (s.tx (P.txThread p)).collector
  sent := s.log.sent
  calls := s.log.bursts

@[simp] theorem Node.release_pipeline (s : Node) (t p : ℕ) (as : List ℕ) :
    (s.release t p as).pipeline P = s.pipeline P := by
  obtain ⟨bp, bc, fault, heq⟩ := s.release_eq t p as
  rw [heq]
  rfl

@[simp] theorem Node.note_pipeline (s : Node) (us : List Use) :
    (s.note us).pipeline P = s.pipeline P := rfl

@[simp] theorem Node.fail_pipeline (s : Node) (e : Fault) :
    (s.fail e).pipeline P = s.pipeline P := rfl

/-- The burst of one port changes with its RX thread. -/
theorem burst_update (f : ℕ → RxThread) (p : ℕ) (r : RxThread) :
    (fun q => (update f (P.rxThread p) r (P.rxThread q)).burst) =
      update (fun q => (f (P.rxThread q)).burst) p r.burst := by
  funext q
  by_cases hq : q = p
  · subst hq; simp
  · rw [update_of_ne hq, update_of_ne fun h => hq (rxThread_injective P h)]

theorem collector_update (f : ℕ → TxThread) (p : ℕ) (r : TxThread) :
    (fun q => (update f (P.txThread p) r (P.txThread q)).collector) =
      update (fun q => (f (P.txThread q)).collector) p r.collector := by
  funext q
  by_cases hq : q = p
  · subst hq; simp
  · rw [update_of_ne hq, update_of_ne fun h => hq (txThread_injective P h)]

theorem mem_stampAll {x : Packet} {stamp : ℕ} {fs : List Frame} (h : x ∈ stampAll p stamp fs) :
    x.port = p ∧ stamp ≤ x.stamp ∧ x.stamp < stamp + fs.length := by
  induction fs generalizing stamp with
  | nil => exact absurd h (by simp [stampAll])
  | cons f fs ih =>
    rw [stampAll, List.mem_cons] at h
    rw [List.length_cons]
    rcases h with rfl | h
    · exact ⟨rfl, Nat.le_refl _, by simp⟩
    · obtain ⟨hport, hle, hlt⟩ := ih h
      exact ⟨hport, by omega, by omega⟩

theorem length_stampAll (p stamp : ℕ) (fs : List Frame) :
    (stampAll p stamp fs).length = fs.length := by
  induction fs generalizing stamp with
  | nil => rfl
  | cons f fs ih => rw [stampAll, List.length_cons, List.length_cons, ih]

theorem pairwise_stampAll (p stamp : ℕ) (fs : List Frame) :
    (stampAll p stamp fs).Pairwise fun x y => x.stamp < y.stamp := by
  induction fs generalizing stamp with
  | nil => exact List.Pairwise.nil
  | cons f fs ih =>
    rw [stampAll, List.pairwise_cons]
    refine ⟨fun y hy => ?_, ih (stamp + 1)⟩
    exact Nat.lt_of_succ_le (mem_stampAll hy).2.1

/-- **Every step of the node is a step of the pipeline or none.** The packets of a burst are known
to have been received on the port of the thread. -/
theorem NodeStep.pipeline (hport : ∀ p, ∀ x ∈ (s.pipeline P).pending p, x.port = p)
    (h : NodeStep P s a s') : s'.pipeline P = s.pipeline P ∨
      Pipeline.Step (wires P) (s.pipeline P) (s'.pipeline P) := by
  cases h with
  | create | readTime | arrive | kernelTake | kernelComplete => exact .inl rfl
  | rxFault | handleFault | pullFault => exact .inl rfl
  | rxBurst t p k fresh bp bc ht hburst hk hfill hpool =>
    obtain ⟨rfl, -⟩ := ht.eq
    have hlen : (stampAll p (s.log.received p) ((s.rxq p).take k)).length = k := by
      rw [length_stampAll, List.length_take]; omega
    right
    have hstep := Pipeline.Step.supply (W := wires P) (s := s.pipeline P) p
      (stampAll p (s.log.received p) ((s.rxq p).take k)) hburst
      (fun x hx => (mem_stampAll hx).1) (pairwise_stampAll _ _ _)
      (fun x hx => by
        have hmem := mem_stampAll hx
        rw [length_stampAll]
        exact hmem.2)
    rw [hlen] at hstep
    convert hstep using 1
    simp only [Node.pipeline, burst_update]
  | accept t p x rest ret Q f ht hburst hrecv hroom =>
    obtain ⟨rfl, -⟩ := ht.eq
    right
    obtain rfl : x.port = p := hport p x (by
      show x ∈ (s.rx (P.rxThread p)).burst
      rw [hburst]
      exact List.mem_cons_self)
    have hstep := Pipeline.Step.accept (W := wires P) (s := s.pipeline P) x.port Q x
      { x with frame := f } rest hburst rfl rfl ⟨ht.role, _, _, hrecv⟩
    convert hstep using 1
    simp only [Node.pipeline, burst_update]
  | reject t p x rest ret Q f ht hburst hrecv hfull =>
    obtain ⟨rfl, -⟩ := ht.eq
    right
    rw [Node.release_pipeline]
    convert Pipeline.Step.discard (W := wires P) (s := s.pipeline P) p x rest hburst using 1
    simp only [Node.pipeline, burst_update]
  | giveBack t p x rest ret ht hburst hrecv =>
    obtain ⟨rfl, -⟩ := ht.eq
    right
    rw [Node.release_pipeline]
    convert Pipeline.Step.discard (W := wires P) (s := s.pipeline P) p x rest hburst using 1
    simp only [Node.pipeline, burst_update]
  | ignore t p x rest ret ht hburst hrecv =>
    obtain ⟨rfl, -⟩ := ht.eq
    right
    convert Pipeline.Step.discard (W := wires P) (s := s.pipeline P) p x rest hburst using 1
    simp only [Node.pipeline, burst_update]
  | pull t p Q w x rest f ht hroom hslot hqueue hprep =>
    obtain ⟨rfl, -⟩ := ht.eq
    right
    convert Pipeline.Step.pull (W := wires P) (s := s.pipeline P) p Q x rest ⟨Q, w, x, s.topo, f⟩
      ⟨_, _, hslot⟩ hqueue rfl rfl (fun hx => ⟨⟨_, hslot⟩, hx, hprep⟩) hroom using 1
    simp only [Node.pipeline, collector_update]
  | advance t p ht =>
    obtain ⟨rfl, -⟩ := ht.eq
    left
    simp only [Node.pipeline, collector_update, update_eq_self]
  | call t p ht =>
    obtain ⟨rfl, -⟩ := ht.eq
    right
    convert Pipeline.Step.call (W := wires P) (s := s.pipeline P) p using 1
    simp only [Node.pipeline, collector_update, update_eq_self]
  | drain t p k s₁ ht hk hs₁ =>
    obtain ⟨rfl, -⟩ := ht.eq
    left
    have hsame : s₁.pipeline P = s.pipeline P := by
      rw [hs₁, Node.release_pipeline, Node.note_pipeline]
    rw [← hsame]
    simp only [Node.pipeline, collector_update, update_eq_self]
  | submit t p ht =>
    obtain ⟨rfl, -⟩ := ht.eq
    right
    convert Pipeline.Step.flush (W := wires P) (s := s.pipeline P) p using 1
    simp only [Node.pipeline, collector_update]

/-- The invariant of the pipeline holds after every run. -/
theorem pipeline_inv {bp : Bpool} {ports : ℕ → PortInit} {as : List NodeAct}
    (h : run (Node.step P) (Node.start bp ports) as = some s) : (s.pipeline P).Inv (wires P) := by
  refine run_invariant (fun u => (u.pipeline P).Inv (wires P)) (fun u a v hu hv => ?_)
    (Pipeline.Inv.empty _) h
  rcases (NodeStep.of_step hv).2.pipeline hu.pending_origin with heq | hstep
  · rw [heq]; exact hu
  · exact hu.step hstep

/-! ### The descriptor of a packet -/

/-- From the NIC, a GRE, TEB, inner IPv4 frame with all its headers; from a namespace, an IPv4
frame. -/
def Packet.WellFormed (P : NodeParams) (x : Packet) : Prop :=
  if x.port < P.n then x.rx.passesChecks ∧ innerIp + iphdrLen ≤ x.rx.len
  else hProto x.rx.umem x.rx.data = ethPIp

instance (P : NodeParams) (x : Packet) : Decidable (x.WellFormed P) :=
  inferInstanceAs (Decidable (if x.port < P.n then _ ∧ _ ≤ _ else _ = _))

/-- The length of the frame when it is decapsulated, forwarded or encapsulated. -/
def Packet.ownLen (P : NodeParams) (x : Packet) : ℕ :=
  if x.port < P.n then
    if x.rx.outerDaddr = P.g.srcIp then x.rx.len - innerEth else x.rx.len
  else (x.rx.len + encapSize) % 4294967296

theorem toU32_natCast {k : ℕ} (h : k < 4294967296) : toU32 k = k := by
  unfold toU32; omega

theorem toU32_toInt32 {k : ℕ} (h : k < 4294967296) : toU32 (toInt32 k) = k := by
  unfold toU32 toInt32
  split <;> omega

/-- The new length of a frame with all its headers is not the mark of a frame to be forwarded. -/
theorem ne_mark {len : ℕ} (h : innerIp + iphdrLen ≤ len) : len ≠ innerEth + 1 := by
  have hinner : innerIp = 54 := rfl
  have heth : innerEth = 40 := rfl
  omega

/-- A frame from the NIC is offered to a non-local or a veth queue, at its own address. -/
theorem nicReceive_offer {ret ret' : ReturnProcessRx} {f f' : Frame} {Q : QueueId}
    (h : nicReceive P t ret f = .ok (ret', .offer Q f')) :
    f'.addr = f.addr ∧ (∀ q, Q ≠ .loc q) ∧
      (f.passesChecks → innerIp + iphdrLen ≤ f.len →
        f'.len = if f.outerDaddr = P.g.srcIp then f.len - innerEth else f.len) := by
  unfold nicReceive at h
  split at h
  · exact absurd h (by simp)
  · rename_i locals hlocals
    split at h
    · exact absurd h (by simp)
    · -- forwarded
      rename_i m ret₁ q len hf
      cases h
      refine ⟨rfl, by simp, fun hchk hlen => ?_⟩
      by_cases hsrc : f.outerDaddr = P.g.srcIp
      · obtain ⟨-, -, o, -, hverdict⟩ := nicFrame_local hchk hsrc (ne_mark hlen) hf
        cases o <;> cases hverdict
      · obtain ⟨p, o, -, -, hverdict⟩ := nicFrame_remote hchk hsrc hf
        rw [if_neg hsrc]
        cases o with
        | none => cases hverdict
        | some q =>
          cases hverdict
          exact toU32_natCast f.len_lt
    · -- delivered
      rename_i m ret₁ q len hf
      cases h
      refine ⟨rfl, by simp, fun hchk hlen => ?_⟩
      by_cases hsrc : f.outerDaddr = P.g.srcIp
      · obtain ⟨-, -, o, -, hverdict⟩ := nicFrame_local hchk hsrc (ne_mark hlen) hf
        rw [if_pos hsrc]
        cases o with
        | none => cases hverdict
        | some q =>
          cases hverdict
          exact toU32_natCast (Nat.lt_of_le_of_lt (Nat.sub_le _ _) f.len_lt)
      · obtain ⟨p, o, -, -, hverdict⟩ := nicFrame_remote hchk hsrc hf
        cases o <;> cases hverdict
    · exact absurd h (by simp)
    · exact absurd h (by simp)

/-- A frame from a namespace is offered to a local queue as it is. -/
theorem vethReceive_offer {f f' : Frame} {Q : QueueId}
    (h : vethReceive P t f = .ok (.offer Q f')) : f' = f ∧ ∃ q, Q = .loc q := by
  unfold vethReceive at h
  split at h
  · exact absurd h (by simp)
  · split at h
    · exact absurd h (by simp)
    · split at h
      · exact absurd h (by simp)
      · exact absurd h (by simp)
      · cases h
        exact ⟨rfl, _, rfl⟩

theorem Offered.of_nic {Q : QueueId} {x : Packet} (h : Offered P Q x) (hp : x.port < P.n) :
    ∃ ret ret', nicReceive P (P.rxThread x.port) ret x.rx = .ok (ret', .offer Q x.frame) := by
  obtain ⟨ret, ret', hrecv⟩ := h.received
  rcases h.role with hrole | hrole
  · rw [receive, if_pos hrole] at hrecv
    exact ⟨ret, ret', hrecv⟩
  · have hle := (role_eq_vethRx hrole).1
    unfold NodeParams.rxThread at hle
    omega

theorem Offered.of_veth {Q : QueueId} {x : Packet} (h : Offered P Q x) (hp : ¬ x.port < P.n) :
    vethReceive P (P.rxThread x.port) x.rx = .ok (.offer Q x.frame) := by
  obtain ⟨ret, ret', hrecv⟩ := h.received
  have hrole : P.role (P.rxThread x.port) ≠ some .nicRx := by
    intro hrole
    have hlt := (role_eq_nicRx hrole).2
    unfold NodeParams.rxThread at hlt
    omega
  rw [receive, if_neg hrole] at hrecv
  split at hrecv
  · exact absurd hrecv (by simp)
  · rename_i o ho
    cases hrecv
    exact ho

/-- **A descriptor carries the address and the length of its own frame.** -/
theorem Emitted.own {e : TxEntry} (h : Emitted P p e) : e.frame.addr = e.packet.rx.addr ∧
    (e.packet.WellFormed P → e.frame.len = e.packet.ownLen P) := by
  obtain ⟨Q, w, x, topo, f⟩ := e
  have hprep := h.prepared
  simp only at hprep
  by_cases hp : x.port < P.n
  · obtain ⟨ret, ret', hrecv⟩ := h.offered.of_nic hp
    obtain ⟨haddr, hloc, hlen⟩ := nicReceive_offer hrecv
    -- what comes from the NIC keeps its length on the TX side
    have hsame : f.addr = x.frame.addr ∧ f.len = x.frame.len := by
      cases Q with
      | loc q => exact absurd rfl (hloc q)
      | nonLocal q =>
        unfold prepare at hprep
        simp only at hprep
        split at hprep
        · exact absurd hprep (by simp)
        · cases hprep; exact ⟨rfl, rfl⟩
      | veth q => cases hprep; exact ⟨rfl, rfl⟩
    refine ⟨hsame.1.trans haddr, fun hwf => ?_⟩
    simp only [Packet.WellFormed, if_pos hp] at hwf
    simp only [Packet.ownLen, if_pos hp]
    exact hsame.2.trans (hlen hwf.1 hwf.2)
  · obtain ⟨hframe, q, hQ⟩ := vethReceive_offer (h.offered.of_veth hp)
    simp only at hframe hQ
    subst hQ
    unfold prepare at hprep
    simp only [hframe] at hprep
    split at hprep
    · exact absurd hprep (by simp)
    · rename_i m newLen hencap
      cases hprep
      refine ⟨rfl, fun _ => ?_⟩
      simp only [Packet.ownLen, if_neg hp]
      have hlen : newLen = toInt32 ((x.rx.len + encapSize) % 4294967296) := by
        unfold encapVeth at hencap
        simp only at hencap
        split at hencap
        · exact absurd hencap (by simp)
        · cases hencap; rfl
      show toU32 newLen = _
      rw [hlen]
      exact toU32_toInt32 (Nat.mod_lt _ (by decide))

/-! ### Order -/

/-- Index `i` of the TX ring of port `p` holds the descriptor of packet `x` from queue `Q`. -/
def Node.SentAt (s : Node) (p i : ℕ) (Q : QueueId) (x : Packet) : Prop :=
  ∃ e, (s.log.sent p)[i]? = some e ∧ e.queue = Q ∧ e.packet = x

/-- The node keeps the order of the frames that it queues together. -/
structure InOrder (P : NodeParams) (s : Node) : Prop where
  /-- of two packets from one port in one queue, the first received is the first sent -/
  precedes : ∀ p Q, Drains P p Q → ∀ x ∈ s.log.accepted Q, ∀ y ∈ s.log.accepted Q,
    x.port = y.port → x.stamp < y.stamp → ∀ j, s.SentAt p j Q y → ∃ i < j, s.SentAt p i Q x
  /-- a packet has at most one descriptor on all ports -/
  once : ∀ (p q i j : ℕ) (e e' : TxEntry), (s.log.sent p)[i]? = some e →
    (s.log.sent q)[j]? = some e' → e.packet.port = e'.packet.port →
    e.packet.stamp = e'.packet.stamp → p = q ∧ i = j
  /-- a packet that is neither in its queue nor in the collector has a descriptor -/
  somewhere : ∀ p Q, Drains P p Q → ∀ x ∈ s.log.accepted Q, x ∈ s.queue Q ∨
    (∃ e ∈ (s.tx (P.txThread p)).collector, e.queue = Q ∧ e.packet = x) ∨ ∃ i, s.SentAt p i Q x
  own : ∀ p, ∀ e ∈ s.log.sent p, e.frame.addr = e.packet.rx.addr ∧
    (e.packet.WellFormed P → e.frame.len = e.packet.ownLen P)
  bursts : ∀ c ∈ s.log.bursts, c ≤ maxBurstTx

/-- **The node never reorders a flow.** -/
theorem flow_in_order (P : NodeParams) (bp : Bpool) (ports : ℕ → PortInit) (as : List NodeAct)
    (s : Node) (h : run (Node.step P) (Node.start bp ports) as = some s) : InOrder P s := by
  have hinv := pipeline_inv h
  have hemitted : ∀ {p i e}, (s.log.sent p)[i]? = some e → Emitted P p e := fun hget =>
    hinv.emitted _ _ (List.mem_append_left _ (List.mem_of_getElem? hget))
  constructor
  · rintro p Q hd x hx y - hport hlt j ⟨e, hget, hqueue, rfl⟩
    obtain ⟨i, hij, e', ⟨hget', hqueue'⟩, hitem⟩ :=
      hinv.precedes hd hx ⟨hget, hqueue⟩ hport hlt
    exact ⟨i, hij, e', hget', hqueue', hitem⟩
  · intro p q i j e e' hget hget' hport hstamp
    obtain ⟨pos, hslot⟩ := (hemitted hget).slot
    obtain ⟨pos', hslot'⟩ := (hemitted hget').slot
    exact hinv.once ⟨pos, _, hslot⟩ ⟨pos', _, hslot'⟩ ⟨hget, rfl⟩ ⟨hget', rfl⟩ hport hstamp
  · intro p Q hd x hx
    rcases hinv.somewhere hd hx with hqueue | hcoll | ⟨i, e, ⟨hget, hsource⟩, hitem⟩
    · exact .inl hqueue
    · exact .inr (.inl hcoll)
    · exact .inr (.inr ⟨i, e, hget, hsource, hitem⟩)
  · intro p e he
    exact (hinv.emitted p e (List.mem_append_left _ he)).own
  · exact hinv.calls_le

/-- Two frames for 10.0.0.7 arrive in one burst, are forwarded and sent in one burst. The queue of
their destination is the third slot. -/
def twoForwarded : List NodeAct :=
  [.create, .create, .readTime 0 0,
    .arrive 0 (tunnelledAt 405504),
    .arrive 0 (tunnelledAt 401408),
    .rxBurst 1 2, .handle 1, .handle 1, .leave 0, .leave 0, .pull 0, .pull 0, .leave 0, .drain 0 0,
    .submit 0]

theorem flow_in_order_two : ∃ s₀ s, Node.boot ⟨100, 4096, 20, 20, 20⟩ 1 = some s₀ ∧
    run (Node.step (smallNode 1 0)) s₀ twoForwarded = some s ∧
    ((s.log.sent 0).map fun e => (e.packet.stamp, e.frame.addr, e.frame.len)) =
      [(0, 405504, 74), (1, 401408, 74)] ∧
    InOrder (smallNode 1 0) s := by
  have hrun : ((Node.boot ⟨100, 4096, 20, 20, 20⟩ 1).bind fun s₀ =>
      (run (Node.step (smallNode 1 0)) s₀ twoForwarded).map fun s =>
        (s.log.sent 0).map fun e => (e.packet.stamp, e.frame.addr, e.frame.len)) =
      some [(0, 405504, 74), (1, 401408, 74)] := by decide +kernel
  obtain ⟨s₀, hs₀, hmap⟩ := Option.bind_eq_some_iff.1 hrun
  obtain ⟨s, hs, hsent⟩ := Option.map_eq_some_iff.1 hmap
  obtain ⟨bp, ports, rfl⟩ := Node.boot_eq_some hs₀
  exact ⟨_, s, hs₀, hs, hsent, flow_in_order (smallNode 1 0) bp ports twoForwarded s hs⟩

end RotorXdp
