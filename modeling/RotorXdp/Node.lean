import RotorXdp.Lib.Run
import RotorXdp.Mempool
import RotorXdp.NicRx

/-!
# The node

The main thread, the worker threads and the kernel, interleaved step by step. `main` creates the
threads one after the other and then calls `read_time` over and over; an RX thread receives a burst
and handles its frames one by one; a TX thread goes through the slots of its queues, pulls up to a
collector of frames from each and sends them; the kernel posts received frames, takes TX descriptors
and completes them. A queue is a bounded FIFO. An RX or TX thread of the NIC has one port
(`assigned_queue_count` is `n / n`).

`mpmc_queue_available` is an estimate, so a TX thread may stop pulling at any time; a pull that
fails changes nothing and is no step. A frame that is received, queued and sent carries the bytes of
its own chunk. After a fault the node takes no step.

* `NodeParams`, `Node`, `Log`: what is fixed, the state, and what the run has done so far;
* `Node.step`: one step of one party;
* `NodeStep`, `NodeStep.of_step`: what a step can do, once for all invariants.
-/

namespace RotorXdp

open Function

/-- What does not change while the node runs. -/
structure NodeParams where
  /-- `n_nic_ports` -/
  n : ℕ
  /-- `veth_port_count` -/
  v : ℕ
  g : Globals
  /-- the route table is `newRouteMatrix(32, 32)` -/
  rows_eq : g.routeTable.rows = 32
  cols_eq : g.routeTable.cols = 32
  txSize : ℕ

/-- `thread_data` of thread `t`, and the number of threads. -/
def NodeParams.thread (P : NodeParams) (t : ℕ) : ThreadData := wiring P.n P.v numOfPerDestQueues t
def NodeParams.nThreads (P : NodeParams) : ℕ := P.n * 2 + P.v * 2

/-- The function a thread is created with. -/
inductive Role
  | vethToNicTx
  | nicRx
  | vethRx
  | nicToVethTx
  deriving DecidableEq

/-- The four loops of `main` that create the threads. -/
def NodeParams.role (P : NodeParams) (t : ℕ) : Option Role :=
  if t < P.n then some .vethToNicTx
  else if t < P.n * 2 then some .nicRx
  else if t < P.n * 2 + P.v then some .vethRx
  else if t < P.nThreads then some .nicToVethTx
  else none

/-- The packet queues: `local_dest_queue`, `non_local_dest_queue`, `veth_side_queue`. -/
inductive QueueId
  | loc (q : ℕ)
  | nonLocal (q : ℕ)
  | veth (q : ℕ)
  deriving DecidableEq

/-- `burst_tx`: a frame between the RX and the TX side, with the frame as it was received, the port
and its number among the frames received there. -/
structure Packet where
  rx : Frame
  port : ℕ
  stamp : ℕ
  frame : Frame

/-- An entry of the collector and of the TX ring, with the queue and the slot it was pulled from,
the packet as it was pulled and the `topo` that was read for it. -/
structure TxEntry where
  queue : QueueId
  slot : ℕ
  packet : Packet
  topo : ℕ
  frame : Frame

/-- Parts of a port that one thread is to use alone. -/
inductive Side
  /-- the RX and the fill ring -/
  | rxFill
  /-- the TX and the completion ring -/
  | txComp
  /-- `bcache_cons_check` and `bcache_cons` -/
  | cons
  /-- `bcache_prod` -/
  | prod
  deriving DecidableEq

/-- A thread uses a side of a port. -/
structure Use where
  thread : ℕ
  port : ℕ
  side : Side
  deriving DecidableEq

/-- A call of `getRouteElement` by an encapsulation function, with the number of times `read_time`
has run before. -/
structure RouteCall where
  row : ℤ
  topo : ℕ
  ticks : ℕ
  deriving DecidableEq

/-- What the run has done so far. -/
structure Log where
  /-- runs of `read_time` -/
  ticks : ℕ
  /-- frames received on each port -/
  received : ℕ → ℕ
  /-- packets that each queue has accepted -/
  accepted : QueueId → List Packet
  /-- descriptors written to each TX ring -/
  sent : ℕ → List TxEntry
  /-- the counts passed to `port_tx_burst_collector` -/
  bursts : List ℕ
  uses : List Use
  routeCalls : List RouteCall

/-- Where a TX thread is: pulling, or in one of the two halves of `port_tx_burst_collector`. -/
inductive Stage
  | pulling
  | draining
  | reserving
  deriving DecidableEq

/-- An RX thread: the frames of its burst still to be handled and its result record. -/
structure RxThread where
  burst : List Packet
  ret : ReturnProcessRx

/-- A TX thread: the slot it is at, and its collector. -/
structure TxThread where
  pos : ℕ
  stage : Stage
  collector : List TxEntry

structure Node where
  /-- threads created so far -/
  created : ℕ
  topo : ℕ
  bp : Bpool
  bc : ℕ → Bcache
  umemFq : ℕ → List ℕ
  rxq : ℕ → List Frame
  txq : ℕ → List TxEntry
  /-- descriptors the kernel has taken -/
  kernelTx : ℕ → List TxEntry
  umemCq : ℕ → List ℕ
  queue : QueueId → List Packet
  rx : ℕ → RxThread
  tx : ℕ → TxThread
  fault : Option Fault
  log : Log

/-- The node when the ports are set up, before the first thread is created. -/
def Node.start (bp : Bpool) (ports : ℕ → PortInit) : Node where
  created := 0
  topo := 0
  bp := bp
  bc p := (ports p).bc
  umemFq p := (ports p).umemFq
  rxq _ := []
  txq _ := []
  kernelTx _ := []
  umemCq _ := []
  queue _ := []
  rx _ := ⟨[], .zero⟩
  tx _ := ⟨0, .pulling, []⟩
  fault := none
  log := ⟨0, fun _ => 0, fun _ => [], fun _ => [], [], [], []⟩

/-- The set-up of the pool and of the first `n` ports, where every call succeeds. -/
def Node.boot (params : BpoolParams) (n : ℕ) : Option Node :=
  match bpoolInit params true with
  | .ok (some bp) =>
    match initPorts bp (fun _ => true) n with
    | .ok (bp, some ports) => some (Node.start bp ports)
    | _ => none
  | _ => none

inductive NodeAct
  /-- `pthread_create` of the next thread -/
  | create
  /-- `read_time` with a reading of the clock -/
  | readTime (sec nsec : ℤ)
  /-- the kernel receives a frame -/
  | arrive (p : ℕ) (f : Frame)
  | kernelTake (p : ℕ)
  | kernelComplete (p : ℕ)
  /-- `port_rx_burst`, where the peek returns `k` -/
  | rxBurst (t k : ℕ)
  /-- the next frame of the burst -/
  | handle (t : ℕ)
  /-- `mpmc_queue_pull` at the current slot, and what is done to the frame -/
  | pull (t : ℕ)
  /-- the end of the pulls at the current slot -/
  | leave (t : ℕ)
  /-- first half of `port_tx_burst_collector`, where the peek returns `k` -/
  | drain (t k : ℕ)
  /-- second half, once the TX ring has room -/
  | submit (t : ℕ)

/-! ### What the threads compute -/

/-- The slot number that `read_time` stores: cycles of 6.4 ms, slots of 200 us. -/
def readTime (sec nsec : ℤ) : ℕ :=
  let currentTimeNs := ((sec * 1000000000 + nsec) % 18446744073709551616).toNat
  let timeIntoCycleNs := currentTimeNs % 6400000
  (timeIntoCycleNs / 200000 + 1) % 256

/-- An `int` stored as an unsigned length. -/
def toU32 (z : ℤ) : ℕ := (z % 4294967296).toNat

theorem toU32_lt (z : ℤ) : toU32 z < 4294967296 := by
  unfold toU32; omega

/-- The frame with new contents and a new length. -/
def Frame.rewrite (f : Frame) (m : Bytes.Mem) (len : ℤ) : Frame :=
  ⟨f.addr, toU32 len, toU32_lt len, m⟩

/-- What an RX thread does with a frame. -/
inductive Outcome
  /-- offer it to a queue -/
  | offer (Q : QueueId) (f : Frame)
  /-- give the buffer back -/
  | release
  /-- do nothing, for want of a queue -/
  | nothing

/-- The loop body of `thread_func_nic` up to the push. -/
def nicReceive (P : NodeParams) (t : ℕ) (ret : ReturnProcessRx) (f : Frame) :
    Except Fault (ReturnProcessRx × Outcome) :=
  match nicLocals (P.thread t) P.v with
  | .error e => .error e
  | .ok locals =>
    match nicFrame P.g locals ret f with
    | .error e => .error e
    | .ok (m, ret, .nonLocal q len) => .ok (ret, .offer (.nonLocal q) (f.rewrite m len))
    | .ok (m, ret, .veth q len) => .ok (ret, .offer (.veth q) (f.rewrite m len))
    | .ok (_, ret, .noQueue) => .ok (ret, .nothing)
    | .ok (_, ret, .dropped) => .ok (ret, .release)

/-- The interface of the port that a thread receives on. -/
def NodeParams.ifaceRx (P : NodeParams) (t : ℕ) : String :=
  (((P.thread t).portsRx 0).bind (ifaces P.g.nicIface P.n P.v)).getD ""

/-- The loop body of `thread_func_veth` up to the push. -/
def vethReceive (P : NodeParams) (t : ℕ) (f : Frame) : Except Fault Outcome :=
  match getDestinationQueueIndex P.g (P.ifaceRx t) f.umem f.data with
  | .error e => .error e
  | .ok destIndex =>
    if f.addr = 0 then .ok .release
    else match readEntry (P.thread t).localDestQueueArray numOfPerDestQueues destIndex with
      | .error e => .error e
      | .ok none => .ok .nothing
      | .ok (some q) => .ok (.offer (.loc q) f)

/-- One frame of a burst of RX thread `t`. -/
def receive (P : NodeParams) (t : ℕ) (ret : ReturnProcessRx) (f : Frame) :
    Except Fault (ReturnProcessRx × Outcome) :=
  if P.role t = some .nicRx then nicReceive P t ret f
  else match vethReceive P t f with
    | .error e => .error e
    | .ok o => .ok (ret, o)

/-- The queue and the slot index at position `pos` of a TX thread's round. A NIC TX thread goes
through the non-local queues and then through the local ones. -/
def slotAt (P : NodeParams) (t pos : ℕ) : Option (QueueId × ℕ) :=
  let thread := P.thread t
  let count := thread.assignedPerdestCount
  match P.role t with
  | some .vethToNicTx =>
    if pos < count then (thread.nonLocalDestQueueArray pos).map fun q => (.nonLocal q, pos)
    else if pos < count + count then
      (thread.localDestQueueArray (pos - count)).map fun q => (.loc q, pos - count)
    else none
  | some .nicToVethTx =>
    if pos = 0 then (thread.vethSideQueueArray 0).map fun q => (.veth q, 0) else none
  | _ => none

/-- The position after `pos`. -/
def nextPos (P : NodeParams) (t pos : ℕ) : ℕ :=
  let count := (P.thread t).assignedPerdestCount
  if pos + 1 < count + count then pos + 1 else 0

/-- What a TX thread does to a frame from slot `w` of a queue. -/
def prepare (g : Globals) (topo : ℕ) (Q : QueueId) (w : ℕ) (f : Frame) : Except Fault Frame :=
  match Q with
  | .nonLocal _ =>
    match encapIndirection g w topo f.umem f.data with
    | .error e => .error e
    | .ok m => .ok { f with umem := m }
  | .loc _ =>
    match encapVeth g w topo f.umem f.data f.len f.addr with
    | .error e => .error e
    | .ok (m, newLen) => .ok (f.rewrite m newLen)
  | .veth _ => .ok f

/-- The lookup that `prepare` makes. -/
def routeCall (topo ticks : ℕ) (Q : QueueId) (w : ℕ) : List RouteCall :=
  match Q with
  | .veth _ => []
  | _ => [⟨w + 1, topo, ticks⟩]

/-! ### Updates of the state -/

/-- The node after an undefined operation. -/
def Node.fail (s : Node) (e : Fault) : Node := { s with fault := some e }

def Node.note (s : Node) (us : List Use) : Node :=
  { s with log := { s.log with uses := s.log.uses ++ us } }

/-- `bcache_prod` of some addresses by thread `t` into the cache of port `p`. -/
def Node.release (s : Node) (t p : ℕ) (as : List ℕ) : Node :=
  let s := s.note (if as = [] then [] else [⟨t, p, .prod⟩])
  match bcacheProdAll s.bp (s.bc p) as with
  | .error e => s.fail e
  | .ok (bp, bc) => { s with bp := bp, bc := update s.bc p bc }

/-- Releasing changes the pool and the cache, and may fail. -/
theorem Node.release_eq (s : Node) (t p : ℕ) (as : List ℕ) : ∃ bp bc fault,
    s.release t p as =
      { s.note (if as = [] then [] else [⟨t, p, .prod⟩]) with
        bp := bp, bc := bc, fault := fault } := by
  unfold Node.release
  simp only
  split
  · exact ⟨_, _, _, rfl⟩
  · exact ⟨_, _, _, rfl⟩

/-- The frames of a burst as packets, numbered from `stamp` on. -/
def stampAll (p : ℕ) : ℕ → List Frame → List Packet
  | _, [] => []
  | stamp, f :: fs => ⟨f, p, stamp, f⟩ :: stampAll p (stamp + 1) fs

/-! ### The steps -/

/-- `port_rx_burst` by thread `t` on port `p`. -/
def Node.rxBurst (s : Node) (t p k : ℕ) : Option Node :=
  if (s.rx t).burst = [] ∧ k ≤ (s.rxq p).length ∧
      (s.umemFq p).length + k ≤ s.bp.params.fillSize then
    match portRxBurst s.bp (s.bc p) k with
    | .error e => some ((s.note [⟨t, p, .cons⟩]).fail e)
    | .ok none => none
    | .ok (some (fresh, bp, bc)) =>
      some
        { s with
          bp := bp
          bc := update s.bc p bc
          rxq := update s.rxq p ((s.rxq p).drop k)
          umemFq := update s.umemFq p (s.umemFq p ++ fresh)
          rx := update s.rx t
            ⟨stampAll p (s.log.received p) ((s.rxq p).take k), (s.rx t).ret.reset⟩
          log := { s.log with
            received := update s.log.received p (s.log.received p + k)
            uses := s.log.uses ++ [⟨t, p, .cons⟩, ⟨t, p, .rxFill⟩] } }
  else none

/-- `mpmc_queue_push`, and `bcache_prod` when the queue is full. -/
def Node.offer (s : Node) (t p : ℕ) (Q : QueueId) (x : Packet) : Node :=
  if (s.queue Q).length < maxBurstTxObjs then
    { s with
      queue := update s.queue Q (s.queue Q ++ [x])
      log := { s.log with accepted := update s.log.accepted Q (s.log.accepted Q ++ [x]) } }
  else s.release t p [x.rx.addr]

/-- The next frame of the burst of thread `t`, received on port `p`. -/
def Node.handle (P : NodeParams) (s : Node) (t p : ℕ) : Option Node :=
  match (s.rx t).burst with
  | [] => none
  | x :: rest =>
    match receive P t (s.rx t).ret x.rx with
    | .error e => some (s.fail e)
    | .ok (ret, o) =>
      let s : Node := { s with rx := update s.rx t ⟨rest, ret⟩ }
      match o with
      | .offer Q f => some (s.offer t p Q { x with frame := f })
      | .release => some (s.release t p [x.rx.addr])
      | .nothing => some s

/-- A pull by thread `t`. -/
def Node.pull (P : NodeParams) (s : Node) (t : ℕ) : Option Node :=
  if (s.tx t).stage = .pulling ∧ (s.tx t).collector.length < maxBurstTx then
    match slotAt P t (s.tx t).pos with
    | none => none
    | some (Q, w) =>
      match s.queue Q with
      | [] => none
      | x :: rest =>
        let s : Node := { s with log := { s.log with
          routeCalls := s.log.routeCalls ++ routeCall s.topo s.log.ticks Q w } }
        match prepare P.g s.topo Q w x.frame with
        | .error e => some (s.fail e)
        | .ok f => some { s with
            queue := update s.queue Q rest
            tx := update s.tx t { s.tx t with
              collector := (s.tx t).collector ++ [⟨Q, w, x, s.topo, f⟩] } }
  else none

/-- The end of the pulls at a slot: a call when something was pulled, the next slot otherwise. -/
def Node.leave (P : NodeParams) (s : Node) (t : ℕ) : Option Node :=
  if (s.tx t).stage = .pulling then
    if (s.tx t).collector = [] then
      some { s with tx := update s.tx t { s.tx t with pos := nextPos P t (s.tx t).pos } }
    else
      some { s with
        tx := update s.tx t { s.tx t with stage := .draining }
        log := { s.log with bursts := s.log.bursts ++ [(s.tx t).collector.length] } }
  else none

/-- The completions that thread `t` finds on port `p` go back to the cache. -/
def Node.drain (s : Node) (t p k : ℕ) : Option Node :=
  if (s.tx t).stage = .draining ∧ k ≤ (s.umemCq p).length ∧ k ≤ s.bp.params.compSize then
    let s' := (s.note [⟨t, p, .txComp⟩]).release t p ((s.umemCq p).take k)
    some { s' with
      umemCq := update s'.umemCq p ((s'.umemCq p).drop k)
      tx := update s'.tx t { s'.tx t with stage := .reserving } }
  else none

/-- The collector of thread `t` goes to the TX ring of port `p`. -/
def Node.submit (P : NodeParams) (s : Node) (t p : ℕ) : Option Node :=
  let es := (s.tx t).collector
  if (s.tx t).stage = .reserving ∧ (s.txq p).length + es.length ≤ P.txSize then
    some { s with
      tx := update s.tx t ⟨nextPos P t (s.tx t).pos, .pulling, []⟩
      txq := update s.txq p (s.txq p ++ es)
      log := { s.log with
        sent := update s.log.sent p (s.log.sent p ++ es)
        uses := s.log.uses ++ [⟨t, p, .txComp⟩] } }
  else none

/-- A step of a created RX thread on its port, and of a created TX thread on its port. -/
def Node.onRx (P : NodeParams) (s : Node) (t : ℕ) (f : ℕ → Option Node) : Option Node :=
  if t < s.created ∧ (P.role t = some .nicRx ∨ P.role t = some .vethRx) then
    ((P.thread t).portsRx 0).bind f
  else none

def Node.onTx (P : NodeParams) (s : Node) (t : ℕ) (f : ℕ → Option Node) : Option Node :=
  if t < s.created ∧ (P.role t = some .vethToNicTx ∨ P.role t = some .nicToVethTx) then
    ((P.thread t).portsTx 0).bind f
  else none

/-- One step of the node. -/
def Node.step (P : NodeParams) (s : Node) (a : NodeAct) : Option Node :=
  if s.fault ≠ none then none
  else match a with
  | .create => if s.created < P.nThreads then some { s with created := s.created + 1 } else none
  | .readTime sec nsec =>
    if s.created = P.nThreads then
      some { s with
        topo := readTime sec nsec
        log := { s.log with ticks := s.log.ticks + 1 } }
    else none
  | .arrive p f =>
    match s.umemFq p with
    | [] => none
    | a :: rest =>
      if f.addr / s.bp.params.bufferSize = a / s.bp.params.bufferSize then
        some { s with
          umemFq := update s.umemFq p rest
          rxq := update s.rxq p (s.rxq p ++ [f]) }
      else none
  | .kernelTake p =>
    match s.txq p with
    | [] => none
    | e :: rest =>
      if (s.kernelTx p).length + (s.umemCq p).length < s.bp.params.compSize then
        some { s with
          txq := update s.txq p rest
          kernelTx := update s.kernelTx p (s.kernelTx p ++ [e]) }
      else none
  | .kernelComplete p =>
    match s.kernelTx p with
    | [] => none
    | e :: rest =>
      some { s with
        kernelTx := update s.kernelTx p rest
        umemCq := update s.umemCq p (s.umemCq p ++ [e.frame.addr]) }
  | .rxBurst t k => s.onRx P t fun p => s.rxBurst t p k
  | .handle t => s.onRx P t fun p => s.handle P t p
  | .pull t => s.onTx P t fun _ => s.pull P t
  | .leave t => s.onTx P t fun _ => s.leave P t
  | .drain t k => s.onTx P t fun p => s.drain t p k
  | .submit t => s.onTx P t fun p => s.submit P t p

/-! ### What a step can do -/

/-- Thread `t` is created and receives on port `p`. -/
structure OnRx (P : NodeParams) (s : Node) (t p : ℕ) : Prop where
  created : t < s.created
  role : P.role t = some .nicRx ∨ P.role t = some .vethRx
  port : (P.thread t).portsRx 0 = some p

/-- Thread `t` is created and transmits on port `p`. -/
structure OnTx (P : NodeParams) (s : Node) (t p : ℕ) : Prop where
  created : t < s.created
  role : P.role t = some .vethToNicTx ∨ P.role t = some .nicToVethTx
  port : (P.thread t).portsTx 0 = some p

/-- The outcomes of a step. -/
inductive NodeStep (P : NodeParams) (s : Node) : NodeAct → Node → Prop
  | create (h : s.created < P.nThreads) :
      NodeStep P s .create { s with created := s.created + 1 }
  | readTime (sec nsec : ℤ) (h : s.created = P.nThreads) :
      NodeStep P s (.readTime sec nsec) { s with
        topo := RotorXdp.readTime sec nsec
        log := { s.log with ticks := s.log.ticks + 1 } }
  | arrive (p : ℕ) (f : Frame) (a : ℕ) (rest : List ℕ) (hfill : s.umemFq p = a :: rest)
      (hchunk : f.addr / s.bp.params.bufferSize = a / s.bp.params.bufferSize) :
      NodeStep P s (.arrive p f) { s with
        umemFq := update s.umemFq p rest
        rxq := update s.rxq p (s.rxq p ++ [f]) }
  | kernelTake (p : ℕ) (e : TxEntry) (rest : List TxEntry) (htxq : s.txq p = e :: rest)
      (hroom : (s.kernelTx p).length + (s.umemCq p).length < s.bp.params.compSize) :
      NodeStep P s (.kernelTake p) { s with
        txq := update s.txq p rest
        kernelTx := update s.kernelTx p (s.kernelTx p ++ [e]) }
  | kernelComplete (p : ℕ) (e : TxEntry) (rest : List TxEntry) (htx : s.kernelTx p = e :: rest) :
      NodeStep P s (.kernelComplete p) { s with
        kernelTx := update s.kernelTx p rest
        umemCq := update s.umemCq p (s.umemCq p ++ [e.frame.addr]) }
  | rxFault (t p k : ℕ) (e : Fault) (ht : OnRx P s t p) :
      NodeStep P s (.rxBurst t k) ((s.note [⟨t, p, .cons⟩]).fail e)
  | rxBurst (t p k : ℕ) (fresh : List ℕ) (bp : Bpool) (bc : Bcache) (ht : OnRx P s t p)
      (hburst : (s.rx t).burst = []) (hk : k ≤ (s.rxq p).length)
      (hfill : (s.umemFq p).length + k ≤ s.bp.params.fillSize)
      (hpool : portRxBurst s.bp (s.bc p) k = .ok (some (fresh, bp, bc))) :
      NodeStep P s (.rxBurst t k) { s with
        bp := bp
        bc := update s.bc p bc
        rxq := update s.rxq p ((s.rxq p).drop k)
        umemFq := update s.umemFq p (s.umemFq p ++ fresh)
        rx := update s.rx t
          ⟨stampAll p (s.log.received p) ((s.rxq p).take k), (s.rx t).ret.reset⟩
        log := { s.log with
          received := update s.log.received p (s.log.received p + k)
          uses := s.log.uses ++ [⟨t, p, .cons⟩, ⟨t, p, .rxFill⟩] } }
  | handleFault (t p : ℕ) (x : Packet) (rest : List Packet) (e : Fault) (ht : OnRx P s t p)
      (hburst : (s.rx t).burst = x :: rest) (hrecv : receive P t (s.rx t).ret x.rx = .error e) :
      NodeStep P s (.handle t) (s.fail e)
  | accept (t p : ℕ) (x : Packet) (rest : List Packet) (ret : ReturnProcessRx) (Q : QueueId)
      (f : Frame) (ht : OnRx P s t p) (hburst : (s.rx t).burst = x :: rest)
      (hrecv : receive P t (s.rx t).ret x.rx = .ok (ret, .offer Q f))
      (hroom : (s.queue Q).length < maxBurstTxObjs) :
      NodeStep P s (.handle t) { s with
        rx := update s.rx t ⟨rest, ret⟩
        queue := update s.queue Q (s.queue Q ++ [{ x with frame := f }])
        log := { s.log with
          accepted := update s.log.accepted Q (s.log.accepted Q ++ [{ x with frame := f }]) } }
  | reject (t p : ℕ) (x : Packet) (rest : List Packet) (ret : ReturnProcessRx) (Q : QueueId)
      (f : Frame) (ht : OnRx P s t p) (hburst : (s.rx t).burst = x :: rest)
      (hrecv : receive P t (s.rx t).ret x.rx = .ok (ret, .offer Q f))
      (hfull : ¬ (s.queue Q).length < maxBurstTxObjs) :
      NodeStep P s (.handle t)
        ({ s with rx := update s.rx t ⟨rest, ret⟩ }.release t p [x.rx.addr])
  | giveBack (t p : ℕ) (x : Packet) (rest : List Packet) (ret : ReturnProcessRx)
      (ht : OnRx P s t p) (hburst : (s.rx t).burst = x :: rest)
      (hrecv : receive P t (s.rx t).ret x.rx = .ok (ret, .release)) :
      NodeStep P s (.handle t)
        ({ s with rx := update s.rx t ⟨rest, ret⟩ }.release t p [x.rx.addr])
  | ignore (t p : ℕ) (x : Packet) (rest : List Packet) (ret : ReturnProcessRx)
      (ht : OnRx P s t p) (hburst : (s.rx t).burst = x :: rest)
      (hrecv : receive P t (s.rx t).ret x.rx = .ok (ret, .nothing)) :
      NodeStep P s (.handle t) { s with rx := update s.rx t ⟨rest, ret⟩ }
  | pullFault (t p : ℕ) (Q : QueueId) (w : ℕ) (x : Packet) (rest : List Packet) (e : Fault)
      (ht : OnTx P s t p) (hslot : slotAt P t (s.tx t).pos = some (Q, w))
      (hqueue : s.queue Q = x :: rest) (hprep : prepare P.g s.topo Q w x.frame = .error e) :
      NodeStep P s (.pull t) (Node.fail { s with log := { s.log with
        routeCalls := s.log.routeCalls ++ routeCall s.topo s.log.ticks Q w } } e)
  | pull (t p : ℕ) (Q : QueueId) (w : ℕ) (x : Packet) (rest : List Packet) (f : Frame)
      (ht : OnTx P s t p) (hroom : (s.tx t).collector.length < maxBurstTx)
      (hslot : slotAt P t (s.tx t).pos = some (Q, w)) (hqueue : s.queue Q = x :: rest)
      (hprep : prepare P.g s.topo Q w x.frame = .ok f) :
      NodeStep P s (.pull t) { s with
        queue := update s.queue Q rest
        tx := update s.tx t { s.tx t with
          collector := (s.tx t).collector ++ [⟨Q, w, x, s.topo, f⟩] }
        log := { s.log with
          routeCalls := s.log.routeCalls ++ routeCall s.topo s.log.ticks Q w } }
  | advance (t p : ℕ) (ht : OnTx P s t p) :
      NodeStep P s (.leave t) { s with
        tx := update s.tx t { s.tx t with pos := nextPos P t (s.tx t).pos } }
  | call (t p : ℕ) (ht : OnTx P s t p) :
      NodeStep P s (.leave t) { s with
        tx := update s.tx t { s.tx t with stage := .draining }
        log := { s.log with bursts := s.log.bursts ++ [(s.tx t).collector.length] } }
  | drain (t p k : ℕ) (s' : Node) (ht : OnTx P s t p) (hk : k ≤ (s.umemCq p).length)
      (hs' : s' = (s.note [⟨t, p, .txComp⟩]).release t p ((s.umemCq p).take k)) :
      NodeStep P s (.drain t k) { s' with
        umemCq := update s'.umemCq p ((s'.umemCq p).drop k)
        tx := update s'.tx t { s'.tx t with stage := .reserving } }
  | submit (t p : ℕ) (ht : OnTx P s t p) :
      NodeStep P s (.submit t) { s with
        tx := update s.tx t ⟨nextPos P t (s.tx t).pos, .pulling, []⟩
        txq := update s.txq p (s.txq p ++ (s.tx t).collector)
        log := { s.log with
          sent := update s.log.sent p (s.log.sent p ++ (s.tx t).collector)
          uses := s.log.uses ++ [⟨t, p, .txComp⟩] } }

variable {P : NodeParams} {s s' : Node} {a : NodeAct} {t p k : ℕ}

theorem Node.boot_eq_some {params : BpoolParams} {n : ℕ} (h : Node.boot params n = some s) :
    ∃ bp ports, s = Node.start bp ports := by
  unfold Node.boot at h
  split at h
  · split at h
    · cases h; exact ⟨_, _, rfl⟩
    · exact absurd h (by simp)
  · exact absurd h (by simp)

theorem Node.onRx_eq_some {f : ℕ → Option Node} (h : s.onRx P t f = some s') :
    ∃ p, OnRx P s t p ∧ f p = some s' := by
  unfold Node.onRx at h
  split at h
  · rename_i hg
    obtain ⟨p, hp, hf⟩ := Option.bind_eq_some_iff.1 h
    exact ⟨p, ⟨hg.1, hg.2, hp⟩, hf⟩
  · exact absurd h (by simp)

theorem Node.onTx_eq_some {f : ℕ → Option Node} (h : s.onTx P t f = some s') :
    ∃ p, OnTx P s t p ∧ f p = some s' := by
  unfold Node.onTx at h
  split at h
  · rename_i hg
    obtain ⟨p, hp, hf⟩ := Option.bind_eq_some_iff.1 h
    exact ⟨p, ⟨hg.1, hg.2, hp⟩, hf⟩
  · exact absurd h (by simp)

theorem NodeStep.of_rxBurst (ht : OnRx P s t p) (h : s.rxBurst t p k = some s') :
    NodeStep P s (.rxBurst t k) s' := by
  unfold Node.rxBurst at h
  split at h
  · rename_i hg
    split at h
    · cases h; exact .rxFault t p k _ ht
    · exact absurd h (by simp)
    · rename_i hpool
      cases h
      exact .rxBurst t p k _ _ _ ht hg.1 hg.2.1 hg.2.2 hpool
  · exact absurd h (by simp)

theorem NodeStep.of_handle (ht : OnRx P s t p) (h : s.handle P t p = some s') :
    NodeStep P s (.handle t) s' := by
  unfold Node.handle at h
  split at h
  · exact absurd h (by simp)
  · rename_i x rest hburst
    split at h
    · rename_i e hrecv
      cases h
      exact .handleFault t p x rest e ht hburst hrecv
    · rename_i ret o hrecv
      cases o with
      | offer Q f =>
        simp only [Node.offer, Option.some.injEq] at h
        split at h
        · rename_i hroom
          subst h
          exact .accept t p x rest ret Q f ht hburst hrecv hroom
        · rename_i hfull
          subst h
          exact .reject t p x rest ret Q f ht hburst hrecv hfull
      | release =>
        cases h
        exact .giveBack t p x rest ret ht hburst hrecv
      | nothing =>
        cases h
        exact .ignore t p x rest ret ht hburst hrecv

theorem NodeStep.of_pull (ht : OnTx P s t p) (h : s.pull P t = some s') :
    NodeStep P s (.pull t) s' := by
  unfold Node.pull at h
  split at h
  · rename_i hg
    split at h
    · exact absurd h (by simp)
    · rename_i Q w hslot
      split at h
      · exact absurd h (by simp)
      · rename_i x rest hqueue
        simp only at h
        split at h
        · rename_i e hprep
          cases h
          exact .pullFault t p Q w x rest e ht hslot hqueue hprep
        · rename_i f hprep
          cases h
          exact .pull t p Q w x rest f ht hg.2 hslot hqueue hprep
  · exact absurd h (by simp)

theorem NodeStep.of_leave (ht : OnTx P s t p) (h : s.leave P t = some s') :
    NodeStep P s (.leave t) s' := by
  unfold Node.leave at h
  split at h
  · split at h
    · cases h; exact .advance t p ht
    · cases h; exact .call t p ht
  · exact absurd h (by simp)

theorem NodeStep.of_drain (ht : OnTx P s t p) (h : s.drain t p k = some s') :
    NodeStep P s (.drain t k) s' := by
  unfold Node.drain at h
  split at h
  · rename_i hg
    cases h
    exact .drain t p k _ ht hg.2.1 rfl
  · exact absurd h (by simp)

theorem NodeStep.of_submit (ht : OnTx P s t p) (h : s.submit P t p = some s') :
    NodeStep P s (.submit t) s' := by
  unfold Node.submit at h
  simp only at h
  split at h
  · cases h; exact .submit t p ht
  · exact absurd h (by simp)

/-- **Every step has one of the outcomes.** -/
theorem NodeStep.of_step (h : s.step P a = some s') : s.fault = none ∧ NodeStep P s a s' := by
  unfold Node.step at h
  split at h
  · exact absurd h (by simp)
  · rename_i hfault
    refine ⟨not_not.1 hfault, ?_⟩
    cases a with
    | create =>
      simp only at h
      split at h
      · rename_i hlt; cases h; exact .create hlt
      · exact absurd h (by simp)
    | readTime sec nsec =>
      simp only at h
      split at h
      · rename_i heq; cases h; exact .readTime sec nsec heq
      · exact absurd h (by simp)
    | arrive p f =>
      simp only at h
      split at h
      · exact absurd h (by simp)
      · rename_i b rest hfill
        split at h
        · rename_i hchunk; cases h; exact .arrive p f b rest hfill hchunk
        · exact absurd h (by simp)
    | kernelTake p =>
      simp only at h
      split at h
      · exact absurd h (by simp)
      · rename_i e rest htxq
        split at h
        · rename_i hroom; cases h; exact .kernelTake p e rest htxq hroom
        · exact absurd h (by simp)
    | kernelComplete p =>
      simp only at h
      split at h
      · exact absurd h (by simp)
      · rename_i e rest htx
        cases h
        exact .kernelComplete p e rest htx
    | rxBurst t k =>
      obtain ⟨p, ht, h⟩ := Node.onRx_eq_some h
      exact .of_rxBurst ht h
    | handle t =>
      obtain ⟨p, ht, h⟩ := Node.onRx_eq_some h
      exact .of_handle ht h
    | pull t =>
      obtain ⟨p, ht, h⟩ := Node.onTx_eq_some h
      exact .of_pull ht h
    | leave t =>
      obtain ⟨p, ht, h⟩ := Node.onTx_eq_some h
      exact .of_leave ht h
    | drain t k =>
      obtain ⟨p, ht, h⟩ := Node.onTx_eq_some h
      exact .of_drain ht h
    | submit t =>
      obtain ⟨p, ht, h⟩ := Node.onTx_eq_some h
      exact .of_submit ht h

end RotorXdp
