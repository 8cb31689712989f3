import Mathlib.Algebra.Order.BigOperators.Group.Finset
import RotorXdp.Lib.Leases
import RotorXdp.Provenance
import RotorXdp.NodeQueue

/-!
# The descriptors of the queued packets

An RX thread allocates a `struct burst_tx` for each frame of its burst. It pushes the pointer to a
queue and frees the descriptor itself when the queue is full; the TX thread that pulls the pointer
frees the descriptor when it has copied the address and the length. A frame from a namespace whose
address is 0 is given back without its descriptor.

`calloc` succeeds, as the callers take for granted. A step that ends in a fault makes no calls.
Between two steps no thread holds a descriptor outside the queues; within a step it may hold one.

* `heapCalls`: the calls of `calloc` and `free` in a step;
* `receive_queue`, `receive_dropped`: which queues there are, and which frames are in none of them;
* `Node.leased`: the node as a pipeline whose packets hold descriptors;
* `descriptors_freed_once`: along every run no descriptor is freed twice or while it is queued.
-/

namespace RotorXdp

open Function Runs Pipelines Heaps

variable {P : NodeParams} {s s' : Node} {a : NodeAct} {t p : ℕ}

/-- The name of the descriptor of a packet: the port and the number of the frame. -/
def Packet.name (x : Packet) : ℕ × ℕ := (x.port, x.stamp)

/-- The calls of `calloc` and `free` on descriptors in a step, and the loss of a pointer. -/
def heapCalls (P : NodeParams) (s : Node) : NodeAct → List (Call (ℕ × ℕ))
  | .handle t =>
    match (s.rx t).burst with
    | [] => []
    | x :: _ =>
      match receive P t (s.rx t).ret x.rx with
      | .error _ => []
      | .ok (_, .offer Q _) =>
        if (s.queue Q).length < maxBurstTxObjs then [.malloc x.name]
        else [.malloc x.name, .free x.name]
      | .ok (_, .release) => [.malloc x.name, .lose x.name]
      | .ok (_, .nothing) => [.malloc x.name, .lose x.name]
  | .pull t =>
    match slotAt P t (s.tx t).pos with
    | none => []
    | some (Q, w) =>
      match s.queue Q with
      | [] => []
      | x :: _ =>
        match prepare P.g s.topo Q w x.frame with
        | .error _ => []
        | .ok _ => [.free x.name]
  | _ => []

/-- The calls of a run. -/
abbrev descriptorCalls (P : NodeParams) : Node → List NodeAct → List (Call (ℕ × ℕ)) :=
  outputs (Node.step P) (heapCalls P)

theorem heapCalls_handle {x : Packet} {rest : List Packet} {ret : ReturnProcessRx} {o : Outcome}
    (hburst : (s.rx t).burst = x :: rest)
    (hrecv : receive P t (s.rx t).ret x.rx = .ok (ret, o)) :
    heapCalls P s (.handle t) =
      match o with
      | .offer Q _ =>
        if (s.queue Q).length < maxBurstTxObjs then [.malloc x.name]
        else [.malloc x.name, .free x.name]
      | .release => [.malloc x.name, .lose x.name]
      | .nothing => [.malloc x.name, .lose x.name] := by
  simp only [heapCalls, hburst, hrecv]
  cases o <;> rfl

theorem heapCalls_handle_error {x : Packet} {rest : List Packet} {e : Fault}
    (hburst : (s.rx t).burst = x :: rest) (hrecv : receive P t (s.rx t).ret x.rx = .error e) :
    heapCalls P s (.handle t) = [] := by
  simp only [heapCalls, hburst, hrecv]

theorem heapCalls_pull {x : Packet} {rest : List Packet} {Q : QueueId} {w : ℕ} {f : Frame}
    (hslot : slotAt P t (s.tx t).pos = some (Q, w)) (hqueue : s.queue Q = x :: rest)
    (hprep : prepare P.g s.topo Q w x.frame = .ok f) :
    heapCalls P s (.pull t) = [.free x.name] := by
  simp only [heapCalls, hslot, hqueue, hprep]

/-- A pull that ends in a fault has not come to `free`. -/
theorem heapCalls_pull_error {x : Packet} {rest : List Packet} {Q : QueueId} {w : ℕ} {e : Fault}
    (hslot : slotAt P t (s.tx t).pos = some (Q, w)) (hqueue : s.queue Q = x :: rest)
    (hprep : prepare P.g s.topo Q w x.frame = .error e) : heapCalls P s (.pull t) = [] := by
  simp only [heapCalls, hslot, hqueue, hprep]

/-! ### The queues of a node -/

/-- The packet queues that the threads hold pointers to. -/
def NodeParams.queueIds (P : NodeParams) : Finset QueueId :=
  (Finset.range numOfPerDestQueues).image .loc ∪
    (Finset.range numOfPerDestQueues).image .nonLocal ∪ (Finset.range P.v).image .veth

theorem card_queueIds_le (P : NodeParams) :
    P.queueIds.card ≤ 2 * numOfPerDestQueues + P.v := by
  have himage : ∀ (f : ℕ → QueueId) (k : ℕ), ((Finset.range k).image f).card ≤ k := fun f k =>
    Finset.card_image_le.trans (Finset.card_range k).le
  calc P.queueIds.card
      ≤ ((Finset.range numOfPerDestQueues).image QueueId.loc).card +
          ((Finset.range numOfPerDestQueues).image QueueId.nonLocal).card +
          ((Finset.range P.v).image QueueId.veth).card :=
        (Finset.card_union_le _ _).trans (Nat.add_le_add_right (Finset.card_union_le _ _) _)
    _ ≤ numOfPerDestQueues + numOfPerDestQueues + P.v :=
        Nat.add_le_add (Nat.add_le_add (himage _ _) (himage _ _)) (himage _ _)
    _ = 2 * numOfPerDestQueues + P.v := by rw [Nat.two_mul]

/-- With the arrays filled there is a queue for every frame that is handled. -/
theorem nicDispatch_filled {v len : ℕ} {ret : ReturnProcessRx} {verdict : Verdict}
    (h : nicDispatch (nicRxLocals v) ret len = .ok verdict) :
    (∃ q < numOfPerDestQueues, ∃ len, verdict = .nonLocal q len) ∨
      ∃ q < v, ∃ len, verdict = .veth q len := by
  unfold nicDispatch at h
  split at h
  · left
    cases he : readEntry (nicRxLocals v).nonLocalDestQueue numOfPerDestQueues ret.ringBufIndex with
    | error e =>
      rw [he] at h
      cases h
    | ok o =>
      obtain ⟨h0, hlt, -⟩ := readEntry_eq_ok.1 he
      rw [readEntry_nonLocal h0 hlt] at h
      exact ⟨_, (Int.toNat_lt h0).2 hlt, _, (Except.ok.inj h).symm⟩
  · right
    cases he : readEntry (nicRxLocals v).vethSideQueue (nicRxLocals v).vethPortCount
      ret.whichVeth with
    | error e =>
      rw [he] at h
      cases h
    | ok o =>
      obtain ⟨h0, hlt, -⟩ := readEntry_eq_ok.1 he
      have hcount : (nicRxLocals v).vethPortCount = v := rfl
      rw [hcount] at h hlt
      rw [readEntry_veth h0 hlt] at h
      exact ⟨_, (Int.toNat_lt h0).2 hlt, _, (Except.ok.inj h).symm⟩

/-- A frame of a NIC port is offered to a queue. -/
theorem nicReceive_queue {i : ℕ} (hi : i < P.n) {ret ret' : ReturnProcessRx} {f : Frame}
    {o : Outcome} (h : nicReceive P (P.n + i) ret f = .ok (ret', o)) :
    ∃ Q ∈ P.queueIds, ∃ f', o = .offer Q f' := by
  unfold nicReceive at h
  split at h
  · cases h
  · rename_i locals hlocals
    obtain ⟨-, rfl⟩ := (nicLocals_eq_ok hi).1 hlocals
    have hverdict : ∀ {m ret₁ verdict}, nicFrame P.g (nicRxLocals P.v) ret f =
        .ok (m, ret₁, verdict) → _ := fun hf => nicDispatch_filled (nicFrame_eq_ok.1 hf).2
    split at h
    · cases h
    · rename_i m ret₁ q len hf
      cases h
      rcases hverdict hf with ⟨q', hq, len', hv⟩ | ⟨q', -, len', hv⟩
      · cases hv
        refine ⟨.nonLocal q, Finset.mem_union_left _ (Finset.mem_union_right _ ?_), _, rfl⟩
        exact Finset.mem_image_of_mem _ (Finset.mem_range.2 hq)
      · cases hv
    · rename_i m ret₁ q len hf
      cases h
      rcases hverdict hf with ⟨q', -, len', hv⟩ | ⟨q', hq, len', hv⟩
      · cases hv
      · cases hv
        refine ⟨.veth q, Finset.mem_union_right _ ?_, _, rfl⟩
        exact Finset.mem_image_of_mem _ (Finset.mem_range.2 hq)
    · rename_i m ret₁ hf
      rcases hverdict hf with ⟨q', -, len', hv⟩ | ⟨q', -, len', hv⟩ <;> cases hv
    · rename_i m ret₁ hf
      rcases hverdict hf with ⟨q', -, len', hv⟩ | ⟨q', -, len', hv⟩ <;> cases hv

/-- A frame of a namespace is offered to a queue, unless its address is 0. -/
theorem vethReceive_queue {j : ℕ} (hj : j < P.v) {f : Frame} {o : Outcome}
    (h : vethReceive P (2 * P.n + j) f = .ok o) :
    (∃ Q ∈ P.queueIds, ∃ f', o = .offer Q f') ∨ f.addr = 0 ∧ o = .release := by
  unfold vethReceive at h
  split at h
  · cases h
  · rename_i destIndex hdest
    split at h
    · rename_i haddr
      exact .inr ⟨haddr, (Except.ok.inj h).symm⟩
    · have hthread : P.thread (2 * P.n + j) = vethRxThread P.n numOfPerDestQueues j :=
        wiring_vethRx hj
      rw [hthread] at h
      left
      cases he : readEntry (vethRxThread P.n numOfPerDestQueues j).localDestQueueArray
        numOfPerDestQueues destIndex with
      | error e =>
        rw [he] at h
        cases h
      | ok r =>
        obtain ⟨h0, hlt, hr⟩ := readEntry_eq_ok.1 he
        have hq : destIndex.toNat < numOfPerDestQueues := (Int.toNat_lt h0).2 hlt
        have hfilled : r = some (0 + destIndex.toNat) := hr.symm.trans (filled_some 0 _ _ hq)
        rw [he, hfilled] at h
        refine ⟨.loc (0 + destIndex.toNat), ?_, f, (Except.ok.inj h).symm⟩
        refine Finset.mem_union_left _ (Finset.mem_union_left _ ?_)
        exact Finset.mem_image_of_mem _ (Finset.mem_range.2 (by omega))

/-- **A frame that is handled is offered to a queue of the node, unless it comes from a namespace
and its address is 0.** -/
theorem receive_queue
    (hrole : P.role (P.rxThread p) = some .nicRx ∨ P.role (P.rxThread p) = some .vethRx)
    {ret ret' : ReturnProcessRx} {f : Frame} {o : Outcome}
    (h : receive P (P.rxThread p) ret f = .ok (ret', o)) :
    (∃ Q ∈ P.queueIds, ∃ f', o = .offer Q f') ∨ P.n ≤ p ∧ f.addr = 0 ∧ o = .release := by
  unfold receive at h
  rcases hrole with hrole | hrole
  · have hlt := (role_eq_nicRx hrole).2
    rw [if_pos hrole] at h
    exact .inl (nicReceive_queue (by unfold NodeParams.rxThread at hlt; omega) h)
  · obtain ⟨hle, hlt⟩ := role_eq_vethRx hrole
    have hnot : P.role (P.rxThread p) ≠ some .nicRx := by
      rw [hrole]
      decide
    rw [if_neg hnot] at h
    unfold NodeParams.rxThread at hle hlt h
    obtain ⟨j, hj⟩ := Nat.exists_eq_add_of_le hle
    rw [hj] at h hlt
    split at h
    · cases h
    · rename_i o' ho
      cases h
      exact (vethReceive_queue (by omega) ho).imp_right fun h => ⟨by omega, h⟩

/-- A packet is in a queue of the node. -/
theorem Offered.queue_mem {Q : QueueId} {x : Packet} (h : Offered P Q x) : Q ∈ P.queueIds := by
  obtain ⟨ret, ret', hrecv⟩ := h.received
  rcases receive_queue h.role hrecv with ⟨R, hR, f, ho⟩ | ⟨-, -, ho⟩
  · cases ho
    exact hR
  · cases ho

/-! ### The calls of a step -/

/-- The frame of a name came from a namespace, to address 0. -/
def ZeroArrived (P : NodeParams) (arrived : ℕ → List Frame) (d : ℕ × ℕ) : Prop :=
  P.n ≤ d.1 ∧ ∃ f, (arrived d.1)[d.2]? = some f ∧ f.addr = 0

variable {arrived : ℕ → List Frame}

theorem ZeroArrived.note {d : ℕ × ℕ} (h : ZeroArrived P arrived d) (a : NodeAct) :
    ZeroArrived P (noteArrival arrived a) d := by
  obtain ⟨hport, f, hf, haddr⟩ := h
  exact ⟨hport, f, getElem?_noteArrival hf a, haddr⟩

/-- **A step of the node makes the calls of a step of its pipeline.** -/
theorem Node.leased (ht : Traced P arrived s) (h : s.step P a = some s') :
    Leased (wires P) (ZeroArrived P arrived) (s.pipeline P) (heapCalls P s a) (s'.pipeline P) := by
  have hstep := (NodeStep.of_step h).2
  have hidle : ∀ {u : Node}, u.queue = s.queue → u.rx = s.rx → u.log.received = s.log.received →
      Leased (wires P) (ZeroArrived P arrived) (s.pipeline P) [] (u.pipeline P) := by
    intro u hqueue hrx hreceived
    refine .idle hqueue (fun q => ?_) fun q x hx => .inl ?_
    · exact Nat.le_of_eq (congrFun hreceived q).symm
    · simpa only [Node.pipeline, hrx] using hx
  -- the pending packets of a port after one of them was handled
  have hrest : ∀ {p} {x : Packet} {rest : List Packet} (ret : ReturnProcessRx),
      (s.rx (P.rxThread p)).burst = x :: rest →
      ({ s with rx := update s.rx (P.rxThread p) ⟨rest, ret⟩ } : Node).pipeline P =
        { s.pipeline P with pending := update (s.pipeline P).pending p rest } := by
    intro p x rest ret hburst
    simp only [Node.pipeline, burst_update]
  cases hstep with
  | create | readTime | arrive | kernelTake | kernelComplete => exact hidle rfl rfl rfl
  | rxFault => exact hidle rfl rfl rfl
  | handleFault t p x rest e hrx hburst hrecv =>
    rw [heapCalls_handle_error hburst hrecv]
    exact hidle rfl rfl rfl
  | pullFault t p Q w x rest e htx hslot hqueue hprep =>
    rw [heapCalls_pull_error hslot hqueue hprep]
    exact hidle rfl rfl rfl
  | rxBurst t p k fresh bp bc hrx hburst hk hfill hpool =>
    obtain ⟨rfl, -⟩ := hrx.eq
    refine .idle rfl (fun q => ?_) fun q x hx => ?_
    · by_cases hq : q = p
      · subst hq
        simp only [Node.pipeline, update_self]
        exact Nat.le_add_right _ _
      · simp only [Node.pipeline, update_of_ne hq]
        exact Nat.le_refl _
    · simp only [Node.pipeline, burst_update] at hx ⊢
      by_cases hq : q = p
      · subst hq
        rw [update_self] at hx
        exact .inr (mem_stampAll hx).2.1
      · rw [update_of_ne hq] at hx
        exact .inl hx
  | accept t p x rest ret Q f hrx hburst hrecv hroom =>
    obtain ⟨rfl, -⟩ := hrx.eq
    rw [heapCalls_handle hburst hrecv]
    simp only [if_pos hroom]
    exact .accept p Q x { x with frame := f } rest hburst rfl rfl
      (congrArg Pipeline.pending (hrest ret hburst)) rfl
  | reject t p x rest ret Q f hrx hburst hrecv hfull =>
    obtain ⟨rfl, -⟩ := hrx.eq
    rw [heapCalls_handle hburst hrecv, Node.release_pipeline, hrest ret hburst]
    simp only [if_neg hfull]
    exact .reject p x rest hburst rfl rfl rfl
  | giveBack t p x rest ret hrx hburst hrecv =>
    obtain ⟨rfl, -⟩ := hrx.eq
    have hzero : P.n ≤ p ∧ x.rx.addr = 0 := by
      rcases receive_queue hrx.role hrecv with ⟨Q, -, f', ho⟩ | ⟨hp, haddr, -⟩
      · cases ho
      · exact ⟨hp, haddr⟩
    have hx : x ∈ (s.pipeline P).pending p := by
      show x ∈ (s.rx (P.rxThread p)).burst
      rw [hburst]
      exact List.mem_cons_self
    have hport : x.port = p := ht.inv.pending_origin p x hx
    rw [heapCalls_handle hburst hrecv, Node.release_pipeline, hrest ret hburst]
    refine .lose p x rest hburst ?_ rfl rfl rfl
    have hname : (wires P).name x = (p, x.stamp) := Prod.ext hport rfl
    rw [hname]
    exact ⟨hzero.1, x.rx, ht.pending p x hx, hzero.2⟩
  | ignore t p x rest ret hrx hburst hrecv =>
    obtain ⟨rfl, -⟩ := hrx.eq
    rcases receive_queue hrx.role hrecv with ⟨Q, -, f', ho⟩ | ⟨-, -, ho⟩ <;> cases ho
  | pull t p Q w x rest f htx hroom hslot hqueue hprep =>
    obtain ⟨rfl, -⟩ := htx.eq
    rw [heapCalls_pull hslot hqueue hprep]
    exact .pull Q x rest hqueue rfl rfl rfl
  | advance | call | submit => exact hidle rfl rfl rfl
  | drain t p k s₁ htx hk hs₁ =>
    obtain ⟨bp, bc, fault, he⟩ := Node.release_eq (s.note [⟨t, p, .txComp⟩]) t p
      ((s.umemCq p).take k)
    rw [hs₁, he]
    exact hidle rfl rfl rfl

/-! ### Runs -/

/-- The descriptors after the actions `as` with the calls `cs`. -/
structure DescriptorsKept (P : NodeParams) (as : List NodeAct) (s : Node)
    (cs : List (Call (ℕ × ℕ))) (heap : Heap (ℕ × ℕ)) : Prop where
  /-- nothing is freed that is not allocated -/
  allowed : run Heap.step .empty cs = some heap
  /-- a descriptor is allocated once, and then freed or lost at most once -/
  calls : ∀ d, callsOf d cs = heap.callsAt d
  /-- a descriptor is allocated as long as its packet is in a queue -/
  live : ∀ d, d ∈ heap.live ↔ ∃ Q, ∃ x ∈ s.queue Q, x.name = d
  bound : heap.live.card ≤ (2 * numOfPerDestQueues + P.v) * maxBurstTxObjs
  /-- the frame of a lost descriptor came from a namespace, to address 0 -/
  lost : ∀ d ∈ heap.lost, P.n ≤ d.1 ∧ ∃ f, (arrivals d.1 as)[d.2]? = some f ∧ f.addr = 0

/-- What the node and its heap keep. -/
structure NodeFits (P : NodeParams) (arrived : ℕ → List Frame) (s : Node) (heap : Heap (ℕ × ℕ)) :
    Prop where
  traced : Traced P arrived s
  ends : (s.pipeline P).Ends
  length_le : ∀ Q, (s.queue Q).length ≤ maxBurstTxObjs
  fits : Fits (wires P) (ZeroArrived P arrived) (s.pipeline P) heap

theorem NodeFits.step {heap : Heap (ℕ × ℕ)} (h : NodeFits P arrived s heap)
    (hstep : s.step P a = some s') :
    ∃ heap', run Heap.step heap (heapCalls P s a) = some heap' ∧
      NodeFits P (noteArrival arrived a) s' heap' := by
  have hcases := (NodeStep.of_step hstep).2
  obtain ⟨heap', hrun, hfits⟩ := h.fits.leased h.traced.inv h.ends (Node.leased h.traced hstep)
  refine ⟨heap', hrun, h.traced.step hcases, ?_, fun Q => ?_, hfits.mono fun d hd => hd.note a⟩
  · rcases hcases.pipeline h.traced.inv.pending_origin with heq | hpipe
    · rw [heq]
      exact h.ends
    · exact h.ends.step hpipe
  · exact (hcases.queueMoves (h.length_le Q)).length_le

/-- As many descriptors are live as fit into the queues. -/
theorem NodeFits.card_live_le {heap : Heap (ℕ × ℕ)} (h : NodeFits P arrived s heap) :
    heap.live.card ≤ (2 * numOfPerDestQueues + P.v) * maxBurstTxObjs := by
  have hsub : heap.live ⊆ P.queueIds.biUnion fun Q => ((s.queue Q).map Packet.name).toFinset := by
    intro d hd
    rw [Finset.mem_biUnion]
    obtain ⟨Q, x, hx, hname⟩ := (h.fits.live d).1 hd
    have hoffered : Offered P Q x := h.traced.inv.accepts Q x hx
    refine ⟨Q, hoffered.queue_mem, ?_⟩
    exact List.mem_toFinset.2 (List.mem_map.2 ⟨x, hx, hname⟩)
  have hqueue : ∀ Q ∈ P.queueIds,
      ((s.queue Q).map Packet.name).toFinset.card ≤ maxBurstTxObjs := by
    intro Q _
    refine (List.toFinset_card_le _).trans ?_
    rw [List.length_map]
    exact h.length_le Q
  calc heap.live.card
      ≤ (P.queueIds.biUnion fun Q => ((s.queue Q).map Packet.name).toFinset).card :=
        Finset.card_le_card hsub
    _ ≤ P.queueIds.card * maxBurstTxObjs := Finset.card_biUnion_le_card_mul _ _ _ hqueue
    _ ≤ (2 * numOfPerDestQueues + P.v) * maxBurstTxObjs :=
        Nat.mul_le_mul_right _ (card_queueIds_le P)

/-- **No run frees a descriptor twice or while its packet is queued.** Between two steps a
descriptor is live exactly when its packet is in a queue, and a descriptor is lost only with a frame
from a namespace that has come to address 0. -/
theorem descriptors_freed_once (P : NodeParams) (bp : Bpool) (ports : ℕ → PortInit)
    (as : List NodeAct) (s : Node) (h : run (Node.step P) (Node.start bp ports) as = some s) :
    ∃ heap, DescriptorsKept P as s (descriptorCalls P (Node.start bp ports) as) heap := by
  have hstart : NodeFits P (fun _ => []) (Node.start bp ports) .empty :=
    ⟨.start P bp ports, Pipeline.Ends.empty, fun Q => Nat.zero_le _, Fits.empty _ _⟩
  obtain ⟨heap, hrun, hend⟩ := run_drives (NodeFits P) noteArrival
    (fun arrived s a s' heap hs hstep => hs.step hstep) hstart h
  rw [foldl_noteArrival] at hend
  refine ⟨heap, hrun, fun d => ?_, hend.fits.live, hend.card_live_le, hend.fits.lost⟩
  exact callsOf_run [] .empty (fun _ => rfl) hrun d

/-- The two frames of `twoForwarded`. -/
theorem descriptors_freed_once_two : ∃ s₀ s heap, Node.boot ⟨100, 4096, 20, 20, 20⟩ 1 = some s₀ ∧
    run (Node.step (smallNode 1 0)) s₀ twoForwarded = some s ∧
    descriptorCalls (smallNode 1 0) s₀ twoForwarded =
      [.malloc (0, 0), .malloc (0, 1), .free (0, 0), .free (0, 1)] ∧
    DescriptorsKept (smallNode 1 0) twoForwarded s
      (descriptorCalls (smallNode 1 0) s₀ twoForwarded) heap := by
  have hrun : ((Node.boot ⟨100, 4096, 20, 20, 20⟩ 1).bind fun s₀ =>
      (run (Node.step (smallNode 1 0)) s₀ twoForwarded).map fun _ =>
        descriptorCalls (smallNode 1 0) s₀ twoForwarded) =
      some [.malloc (0, 0), .malloc (0, 1), .free (0, 0), .free (0, 1)] := by decide +kernel
  obtain ⟨s₀, hs₀, hmap⟩ := Option.bind_eq_some_iff.1 hrun
  obtain ⟨s, hs, hcalls⟩ := Option.map_eq_some_iff.1 hmap
  obtain ⟨bp, ports, rfl⟩ := Node.boot_eq_some hs₀
  obtain ⟨heap, hkept⟩ := descriptors_freed_once (smallNode 1 0) bp ports twoForwarded s hs
  exact ⟨_, s, heap, hs₀, hs, hcalls, hkept⟩

end RotorXdp
