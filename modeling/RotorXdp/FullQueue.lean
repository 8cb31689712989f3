import RotorXdp.PoolSetup
import RotorXdp.Schedule

/-!
# A full queue

A node with one NIC port and the shipped pool, whose TX thread rests while tunnelled frames keep
coming in for one destination. The pool has more frames than a queue has room.

* `Receiving`, `Receiving.round`: one more frame in the queue;
* `Sending`: the TX thread at work afterwards.
-/

namespace RotorXdp

open Runs Function

/-- A node with one NIC port: thread 0 transmits, thread 1 receives. -/
abbrev onePort : NodeParams := smallNode 1 0

variable {s s' : Node} {k r : ℕ} {xs : List Packet}

/-- A tunnelled frame in any chunk is put in the third non-local queue. -/
theorem frameAt_forwarded (addr : ℕ) (ret : ReturnProcessRx) : ∃ ret' f,
    receive onePort 1 ret (tunnelledAt addr) = .ok (ret', .offer (.nonLocal 2) f) := by
  have hsame := frameAt_umem addr tunnelledBytes tunnelledBytes_length_lt
  have hchk : (tunnelledAt addr).passesChecks := by
    rw [Frame.passesChecks_congr fun o _ => hsame o]
    decide +kernel
  have hne : (tunnelledAt addr).outerDaddr ≠ onePort.g.srcIp := by
    rw [Frame.outerDaddr_congr fun o _ => hsame o]
    decide +kernel
  have hr : mgMapGet onePort.g.ipTable
      (constructDestIp (tunnelledAt addr).innerDaddr) = some 4 := by
    rw [Frame.innerDaddr_congr fun o _ => hsame o]
    decide +kernel
  have hframe := nicFrame_forward hchk hne hr (by decide +kernel) (by decide +kernel) 0 ret
  have hlocals : nicLocals (onePort.thread 1) onePort.v = .ok (nicRxLocals 0) :=
    (nicLocals_eq_ok (n := 1) (v := 0) (i := 0) (by decide)).2 ⟨by decide, rfl⟩
  have hq : (ipSetIndex onePort.g.ipTable 4 - 1).toNat = 2 := by decide +kernel
  rw [hq] at hframe
  have hrecv : receive onePort 1 ret (tunnelledAt addr) =
      nicReceive onePort 1 ret (tunnelledAt addr) := if_pos (by decide)
  rw [nicReceive, hlocals] at hrecv
  simp only [hframe] at hrecv
  exact ⟨_, _, hrecv⟩

/-- A burst of one frame gets a buffer while the cache and the pool have any. -/
theorem portRxBurst_one {bp : Bpool} {bc : Bcache} (hparams : bp.params = bpoolParamsDefault)
    (havail : bp.nSlabsAvailable ≤ bp.nSlabs)
    (hsupply : r + 1 ≤ bp.nSlabsAvailable * 4096 + bc.nBuffersCons) :
    ∃ a bp' bc', portRxBurst bp bc 1 = .ok (some ([a], bp', bc')) ∧
      bp'.params = bpoolParamsDefault ∧ bp'.nSlabsAvailable ≤ bp'.nSlabs ∧
      r ≤ bp'.nSlabsAvailable * 4096 + bc'.nBuffersCons ∧
      bc'.nBuffersProd = bc.nBuffersProd := by
  have hper : bp.params.nBuffersPerSlab = 4096 := by rw [hparams]; rfl
  have hburst : maxBurstRx = 20 := rfl
  unfold portRxBurst bcacheConsCheck
  by_cases hcons : bc.nBuffersCons = 0
  · rw [if_neg (not_not.2 hcons), if_neg (by omega), if_neg (by omega)]
    simp only [hburst, fillAddrs, bcacheCons, hper]
    refine ⟨_, _, _, rfl, hparams, ?_, ?_, rfl⟩
    · simp only; omega
    · simp only; omega
  · rw [if_pos hcons]
    have hn : ¬ (if bc.nBuffersCons < maxBurstRx then bc.nBuffersCons else maxBurstRx) < 1 := by
      split <;> omega
    simp only [if_neg hn, fillAddrs, bcacheCons, if_neg hcons]
    refine ⟨_, _, _, rfl, hparams, havail, ?_, rfl⟩
    simp only
    omega

/-- The node while the TX thread rests: `xs` is left of the burst, the queue holds `k` frames, and
the pool and the cache hold at least `r`. -/
structure Receiving (s : Node) (xs : List Packet) (k r : ℕ) : Prop where
  created : s.created = 2
  fault : s.fault = none
  topo : s.topo = 1
  burst : (s.rx 1).burst = xs
  rxq : s.rxq 0 = []
  fill : (s.umemFq 0).length = 4096
  params : s.bp.params = bpoolParamsDefault
  avail : s.bp.nSlabsAvailable ≤ s.bp.nSlabs
  supply : r ≤ s.bp.nSlabsAvailable * 4096 + (s.bc 0).nBuffersCons
  prod : (s.bc 0).nBuffersProd = 0
  queue : (s.queue (.nonLocal 2)).length = k
  tx : s.tx 0 = ⟨0, .pulling, []⟩
  txq : s.txq 0 = []
  kernelTx : s.kernelTx 0 = []
  umemCq : s.umemCq 0 = []

theorem Receiving.onRx (h : Receiving s xs k r) : OnRx onePort s 1 0 :=
  ⟨by rw [h.created]; decide, .inl (by decide), rfl⟩

/-- A tunnelled frame arrives and is received. -/
theorem Receiving.rxBurst (h : Receiving s [] k (r + 1)) : ∃ s' addr stamp,
    Reaches (Node.step onePort) s s' ∧
    Receiving s' [⟨tunnelledAt addr, 0, stamp, tunnelledAt addr⟩] k r := by
  obtain ⟨addr, rest, hfq⟩ : ∃ addr rest, s.umemFq 0 = addr :: rest := by
    cases hfq : s.umemFq 0 with
    | nil =>
      have hfill := h.fill
      rw [hfq] at hfill
      exact absurd hfill (by decide)
    | cons addr rest => exact ⟨addr, rest, rfl⟩
  have hrest : rest.length = 4095 := by
    have hfill := h.fill
    rw [hfq, List.length_cons] at hfill
    omega
  obtain ⟨a, bp', bc', hpool, hparams, havail, hsupply, hprod⟩ :=
    portRxBurst_one h.params h.avail h.supply
  have harrive := step_arrive (P := onePort) (f := tunnelledAt addr) h.fault hfq rfl
  have hrx := step_rxBurst (P := onePort) (t := 1) (k := 1)
    (s := { s with
      umemFq := update s.umemFq 0 rest
      rxq := update s.rxq 0 (s.rxq 0 ++ [tunnelledAt addr]) })
    h.fault ⟨h.onRx.created, h.onRx.role, h.onRx.port⟩ h.burst (by simp)
    (by simp [hrest, h.params, bpoolParamsDefault]) hpool
  refine ⟨_, addr, s.log.received 0, (Reaches.single harrive).tail hrx, ?_⟩
  exact {
    created := h.created
    fault := h.fault
    topo := h.topo
    burst := by simp [h.rxq, stampAll]
    rxq := by simp [h.rxq]
    fill := by simp [hrest]
    params := hparams
    avail := havail
    supply := by simpa using hsupply
    prod := by simpa [h.prod] using hprod
    queue := h.queue
    tx := h.tx
    txq := h.txq
    kernelTx := h.kernelTx
    umemCq := h.umemCq }

/-- One more frame in the queue, for one buffer of the pool. -/
theorem Receiving.round (h : Receiving s [] k (r + 1)) (hk : k < 4096) :
    ∃ s', Reaches (Node.step onePort) s s' ∧ Receiving s' [] (k + 1) r := by
  obtain ⟨s₁, addr, stamp, hreach, h₁⟩ := h.rxBurst
  obtain ⟨ret, f, hrecv⟩ := frameAt_forwarded addr (s₁.rx 1).ret
  have hroom : (s₁.queue (.nonLocal 2)).length < maxBurstTxObjs := by
    rw [h₁.queue]
    exact hk
  have hhandle := step_handle (P := onePort) h₁.fault h₁.onRx h₁.burst hrecv
  unfold Node.offer at hhandle
  rw [if_pos hroom] at hhandle
  refine ⟨_, hreach.tail hhandle, ?_⟩
  exact {
    created := h₁.created
    fault := h₁.fault
    topo := h₁.topo
    burst := by simp
    rxq := h₁.rxq
    fill := h₁.fill
    params := h₁.params
    avail := h₁.avail
    supply := h₁.supply
    prod := h₁.prod
    queue := by simp [h₁.queue]
    tx := h₁.tx
    txq := h₁.txq
    kernelTx := h₁.kernelTx
    umemCq := h₁.umemCq }

theorem Receiving.rounds (h : Receiving s [] 0 (k + r)) (hk : k ≤ 4096) :
    ∃ s', Reaches (Node.step onePort) s s' ∧ Receiving s' [] k r := by
  induction k generalizing r with
  | zero => exact ⟨s, .refl s, by simpa using h⟩
  | succ k ih =>
    obtain ⟨s₁, hreach, h₁⟩ := ih (r := r + 1) (by rwa [Nat.add_right_comm, Nat.add_assoc] at h)
      (by omega)
    obtain ⟨s₂, hreach', h₂⟩ := h₁.round (by omega)
    exact ⟨s₂, hreach.trans hreach', h₂⟩

/-- The node while the RX thread rests, after a frame of its port has been put back: where the TX
thread is, and how many frames are in its collector, the queue, the TX ring and the kernel, and
completed. -/
structure Sending (s : Node) (pos : ℕ) (stage : Stage) (coll queue txq kernel comp : ℕ) :
    Prop where
  created : s.created = 2
  fault : s.fault = none
  topo : s.topo = 1
  params : s.bp.params = bpoolParamsDefault
  pos : (s.tx 0).pos = pos
  stage : (s.tx 0).stage = stage
  coll : (s.tx 0).collector.length = coll
  queue : (s.queue (.nonLocal 2)).length = queue
  txq : (s.txq 0).length = txq
  kernel : (s.kernelTx 0).length = kernel
  comp : (s.umemCq 0).length = comp
  put : ⟨1, 0, .prod⟩ ∈ s.log.uses

/-- The queue is full and the frame is put back. -/
theorem Receiving.putBack (h : Receiving s [] 4096 (r + 1)) :
    ∃ s', Reaches (Node.step onePort) s s' ∧ Sending s' 0 .pulling 0 4096 0 0 0 := by
  obtain ⟨s₁, addr, stamp, hreach, h₁⟩ := h.rxBurst
  obtain ⟨ret, f, hrecv⟩ := frameAt_forwarded addr (s₁.rx 1).ret
  have hfull : ¬ (s₁.queue (.nonLocal 2)).length < maxBurstTxObjs := by
    rw [h₁.queue]
    decide
  have hprod : (s₁.bc 0).nBuffersProd < s₁.bp.params.nBuffersPerSlab := by
    rw [h₁.prod, h₁.params]
    decide
  have hhandle := step_handle (P := onePort) h₁.fault h₁.onRx h₁.burst hrecv
  have hpool : bcacheProdAll s₁.bp (s₁.bc 0) [addr] =
      .ok (s₁.bp.storeEntry (s₁.bc 0).slabProd (s₁.bc 0).nBuffersProd addr,
        { s₁.bc 0 with nBuffersProd := (s₁.bc 0).nBuffersProd + 1 }) := by
    rw [bcacheProdAll, bcacheProd, if_pos hprod]
    rfl
  have hrelease := Node.release_of_ok (t := 1) (s := { s₁ with rx := update s₁.rx 1 ⟨[], ret⟩ })
    hpool
  unfold Node.offer at hhandle
  rw [if_neg hfull] at hhandle
  refine ⟨_, hreach.tail (hhandle.trans (congrArg some hrelease)), ?_⟩
  exact {
    created := h₁.created
    fault := h₁.fault
    topo := h₁.topo
    params := h₁.params
    pos := by simp [Node.note, h₁.tx]
    stage := by simp [Node.note, h₁.tx]
    coll := by simp [Node.note, h₁.tx]
    queue := h₁.queue
    txq := by simp [Node.note, h₁.txq]
    kernel := by simp [Node.note, h₁.kernelTx]
    comp := by simp [Node.note, h₁.umemCq]
    put := by simp [Node.note] }

section Send

variable {pos coll queue txq kernel comp : ℕ} {stage : Stage}

theorem Sending.onTx (h : Sending s pos stage coll queue txq kernel comp) : OnTx onePort s 0 0 :=
  ⟨by rw [h.created]; decide, .inl (by decide), rfl⟩

/-- The next slot. -/
theorem Sending.advance (h : Sending s pos .pulling 0 queue txq kernel comp) :
    ∃ s', Reaches (Node.step onePort) s s' ∧
      Sending s' (nextPos onePort 0 pos) .pulling 0 queue txq kernel comp := by
  have hstep := step_advance h.fault h.onTx h.stage (List.eq_nil_of_length_eq_zero h.coll)
  exact ⟨_, .single hstep, { h with pos := by simp [h.pos] }⟩

/-- Several slots on. -/
theorem Sending.advances (h : Sending s pos .pulling 0 queue txq kernel comp) (d : ℕ)
    (hd : pos + d < 64) : ∃ s', Reaches (Node.step onePort) s s' ∧
      Sending s' (pos + d) .pulling 0 queue txq kernel comp := by
  induction d with
  | zero => exact ⟨s, .refl s, h⟩
  | succ d ih =>
    obtain ⟨s₁, hreach, h₁⟩ := ih (by omega)
    obtain ⟨s₂, hreach', h₂⟩ := h₁.advance
    have hnext : nextPos onePort 0 (pos + d) = pos + (d + 1) := if_pos hd
    rw [hnext] at h₂
    exact ⟨s₂, hreach.trans hreach', h₂⟩

/-- A frame is pulled from the queue and the pulls end. -/
theorem Sending.pull (h : Sending s 2 .pulling 0 (queue + 1) txq kernel comp) :
    ∃ s', Reaches (Node.step onePort) s s' ∧
      Sending s' 2 .draining 1 queue txq kernel comp := by
  obtain ⟨x, rest, hqueue⟩ := List.exists_cons_of_length_eq_add_one h.queue
  have hcoll := List.eq_nil_of_length_eq_zero h.coll
  have hmac : nextHopMac onePort.g (2 : ℕ) 1 = .ok [0, 0, 0, 0, 0, 0] := by decide +kernel
  obtain ⟨m, hm⟩ : ∃ m, encapIndirection onePort.g (2 : ℕ) 1 x.frame.umem x.frame.data = .ok m := by
    unfold encapIndirection
    rw [hmac]
    exact ⟨_, rfl⟩
  have hprep : prepare onePort.g s.topo (.nonLocal 2) 2 x.frame =
      .ok { x.frame with umem := m } := by
    rw [h.topo]
    unfold prepare
    simp only [hm]
  have hpull := step_pull h.fault h.onTx h.stage (by rw [hcoll]; decide)
    (by rw [h.pos]; rfl) hqueue hprep
  have hcall := step_call (P := onePort) (t := 0) (p := 0) (s := { s with
      queue := update s.queue (.nonLocal 2) rest
      tx := update s.tx 0 { s.tx 0 with
        collector := (s.tx 0).collector ++
          [⟨.nonLocal 2, 2, x, s.topo, { x.frame with umem := m }⟩] }
      log := { s.log with
        routeCalls := s.log.routeCalls ++ routeCall s.topo s.log.ticks (.nonLocal 2) 2 } })
    h.fault ⟨h.onTx.created, h.onTx.role, h.onTx.port⟩ (by simp [h.stage]) (by simp)
  refine ⟨_, (Reaches.single hpull).tail hcall, ?_⟩
  have hrest : rest.length = queue := by
    have hlen := h.queue
    rw [hqueue, List.length_cons] at hlen
    omega
  exact { h with
    pos := by simp [h.pos]
    stage := by simp
    coll := by simp [hcoll]
    queue := by simp [hrest] }

/-- The call finds no completion, and the frame is sent and completed. -/
theorem Sending.complete (h : Sending s 2 .draining 1 queue 0 0 0) :
    ∃ s', Reaches (Node.step onePort) s s' ∧ Sending s' 3 .pulling 0 queue 0 0 1 := by
  have hpool : bcacheProdAll s.bp (s.bc 0) ((s.umemCq 0).take 0) = .ok (s.bp, s.bc 0) := rfl
  have hdrain := step_drain h.fault h.onTx h.stage (Nat.zero_le _) (Nat.zero_le _) rfl
  rw [Node.release_of_ok (s := s.note [⟨0, 0, .txComp⟩]) hpool] at hdrain
  obtain ⟨s₁, hs₁⟩ : ∃ s₁, s.step onePort (.drain 0 0) = some s₁ := ⟨_, hdrain⟩
  have h₁ : Sending s₁ 2 .reserving 1 queue 0 0 0 := by
    rw [hs₁] at hdrain
    cases hdrain
    exact {
      created := h.created
      fault := h.fault
      topo := h.topo
      params := h.params
      pos := by simp [Node.note, h.pos]
      stage := by simp [Node.note]
      coll := by simp [Node.note, h.coll]
      queue := h.queue
      txq := h.txq
      kernel := h.kernel
      comp := by simp [Node.note, h.comp]
      put := by simp [Node.note, h.put] }
  have hsubmit := step_submit h₁.fault h₁.onTx h₁.stage (by rw [h₁.txq, h₁.coll]; decide)
  obtain ⟨e, he⟩ := List.length_eq_one_iff.1 h₁.coll
  have htxq := List.eq_nil_of_length_eq_zero h₁.txq
  have hkernel := List.eq_nil_of_length_eq_zero h₁.kernel
  have hcq := List.eq_nil_of_length_eq_zero h₁.comp
  rw [he, htxq, List.nil_append] at hsubmit
  have hone : update s₁.txq 0 [e] 0 = e :: [] := update_self ..
  have htaken : update s₁.kernelTx 0 [e] 0 = e :: [] := update_self ..
  have htake := step_kernelTake (P := onePort) (p := 0) (s := { s₁ with
      tx := update s₁.tx 0 ⟨nextPos onePort 0 (s₁.tx 0).pos, .pulling, []⟩
      txq := update s₁.txq 0 [e]
      log := { s₁.log with
        sent := update s₁.log.sent 0 (s₁.log.sent 0 ++ [e])
        uses := s₁.log.uses ++ [⟨0, 0, .txComp⟩] } })
    h₁.fault hone (by rw [hkernel, hcq, h₁.params]; decide)
  rw [hkernel, List.nil_append] at htake
  have hdone := step_kernelComplete (P := onePort) (p := 0) (s := { s₁ with
      tx := update s₁.tx 0 ⟨nextPos onePort 0 (s₁.tx 0).pos, .pulling, []⟩
      txq := update (update s₁.txq 0 [e]) 0 []
      kernelTx := update s₁.kernelTx 0 [e]
      log := { s₁.log with
        sent := update s₁.log.sent 0 (s₁.log.sent 0 ++ [e])
        uses := s₁.log.uses ++ [⟨0, 0, .txComp⟩] } })
    h₁.fault htaken
  refine ⟨_, (((Reaches.single hs₁).tail hsubmit).tail htake).tail hdone, ?_⟩
  exact {
    created := h₁.created
    fault := h₁.fault
    topo := h₁.topo
    params := h₁.params
    pos := by simp [h₁.pos]; rfl
    stage := by simp
    coll := by simp
    queue := h₁.queue
    txq := by simp
    kernel := by simp
    comp := by simp [hcq]
    put := by simp [h₁.put] }

/-- The TX thread puts a completed frame back. -/
theorem Sending.drain (h : Sending s pos .draining coll queue txq kernel (comp + 1)) :
    ∃ s', Reaches (Node.step onePort) s s' ∧ ⟨0, 0, .prod⟩ ∈ s'.log.uses ∧
      ⟨1, 0, .prod⟩ ∈ s'.log.uses := by
  have hstep := step_drain (k := 1) h.fault h.onTx h.stage (by rw [h.comp]; omega)
    (by rw [h.params]; decide) rfl
  obtain ⟨bp, bc, fault, heq⟩ := Node.release_eq (s.note [⟨0, 0, .txComp⟩]) 0 0
    ((s.umemCq 0).take 1)
  have hne : (s.umemCq 0).take 1 ≠ [] := by
    intro hnil
    have hlen := congrArg List.length hnil
    rw [List.length_take, h.comp] at hlen
    simp at hlen
  rw [heq, if_neg hne] at hstep
  exact ⟨_, .single hstep, by simp [Node.note], by simp [Node.note, h.put]⟩

end Send

/-- **On the shipped pool a run exists in which both threads of a NIC port put buffers into its
cache.** -/
theorem Receiving.both_put (h : Receiving s [] 0 4097) : ∃ s', Reaches (Node.step onePort) s s' ∧
    ⟨0, 0, .prod⟩ ∈ s'.log.uses ∧ ⟨1, 0, .prod⟩ ∈ s'.log.uses := by
  obtain ⟨s₁, hr₁, h₁⟩ := Receiving.rounds (k := 4096) (r := 1) h (Nat.le_refl _)
  obtain ⟨s₂, hr₂, h₂⟩ := h₁.putBack
  obtain ⟨s₃, hr₃, h₃⟩ := h₂.advances 2 (by decide)
  obtain ⟨s₄, hr₄, h₄⟩ := (h₃ : Sending s₃ 2 .pulling 0 (4095 + 1) 0 0 0).pull
  obtain ⟨s₅, hr₅, h₅⟩ := h₄.complete
  -- once around the slots
  obtain ⟨s₆, hr₆, h₆⟩ := h₅.advances 60 (by decide)
  obtain ⟨s₇, hr₇, h₇⟩ := h₆.advance
  obtain ⟨s₈, hr₈, h₈⟩ := (h₇ : Sending s₇ 0 .pulling 0 4095 0 0 1).advances 2 (by decide)
  obtain ⟨s₉, hr₉, h₉⟩ := (h₈ : Sending s₈ 2 .pulling 0 (4094 + 1) 0 0 1).pull
  obtain ⟨s', hr', hput⟩ := h₉.drain
  exact ⟨s', hr₁.trans (hr₂.trans (hr₃.trans (hr₄.trans (hr₅.trans (hr₆.trans (hr₇.trans
    (hr₈.trans (hr₉.trans hr')))))))), hput⟩

/-- The shipped pool has 32 slabs. -/
theorem Node.boot_one {params : BpoolParams} {bp bp' : Bpool} {port : PortInit}
    (hbp : bpoolInit params true = .ok (some bp))
    (hport : portInit bp true = .ok (bp', some port)) :
    Node.boot params 1 =
      some (Node.start bp' (update (fun _ => ⟨⟨0, 0, 0, 0⟩, []⟩) 0 port)) := by
  unfold Node.boot
  rw [hbp]
  simp only [initPorts, hport]

/-- The node with one port on the shipped pool, once the threads run and `topo` is set. -/
theorem boot_default : ∃ s₀ s, Node.boot bpoolParamsDefault 1 = some s₀ ∧
    Reaches (Node.step onePort) s₀ s ∧ Receiving s [] 0 4097 := by
  obtain ⟨bp, hbp, hparams, hslabs, havail⟩ := bpoolInit_default
  have hport := portInit_eq bp (by omega) (by omega) (by rw [hparams]; decide)
    (by rw [hparams]; decide) true
  have hboot := Node.boot_one hbp hport
  have htime : readTime 0 0 = 1 := by decide
  refine ⟨_, _, hboot, ⟨[.create, .create, .readTime 0 0], rfl⟩, ?_⟩
  exact {
    created := rfl
    fault := rfl
    topo := htime
    burst := rfl
    rxq := rfl
    fill := by simp [Node.start, portAt, hparams, bpoolParamsDefault]
    params := hparams
    avail := by simp only [Node.start, hslabs, havail]; decide
    supply := by
      simp only [Node.start, update_self, portAt, hparams, havail]
      decide
    prod := rfl
    queue := rfl
    tx := rfl
    txq := rfl
    kernelTx := rfl
    umemCq := rfl }

end RotorXdp
