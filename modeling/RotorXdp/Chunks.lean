import RotorXdp.PoolRun
import RotorXdp.Schedule
import RotorXdp.Descriptors

/-!
# The chunks of the node

The pool runs know a frame by its chunk and move it between lists of addresses; the node interleaves
the threads that do so. Here a state of the node is read as a state of the pool runs: the addresses
in the rings, in the bursts and collectors of the threads and in the queues. Every step of a thread
or of the kernel then moves chunks as the pool's invariant allows, so what holds along pool runs
holds for every interleaving of the threads. In particular no chunk is ever in two hands, which is
what lets the node give every frame bytes of its own. The chunks are those that the set-up leaves in
circulation; those of the producer slabs of the ports are nowhere from then on.

* `Node.held`, `Node.pool`: the node as the pool sees it;
* `Node.FrameFaults`: the steps in which a frame leads to an undefined operation;
* `PoolInv.node`: every step keeps the invariant of the pool, and no call of the pool goes wrong;
* `chunks_in_one_place`: every chunk in circulation is in one place, whatever the interleaving.
-/

namespace RotorXdp

open Function Runs Racks

variable {P : NodeParams} {s s' : Node} {a : NodeAct} {t k : ℕ}

/-! ### The node as the pool sees it -/

/-- The ports and the queues of the node. -/
abbrev NodeParams.nPorts (P : NodeParams) : ℕ := P.n + P.v
abbrev NodeParams.nQueues (P : NodeParams) : ℕ := 2 * numOfPerDestQueues + P.v

/-- The local queues, the non-local ones, and those of the namespaces. -/
def queueAt (q : ℕ) : QueueId :=
  if q < numOfPerDestQueues then .loc q
  else if q < 2 * numOfPerDestQueues then .nonLocal (q - numOfPerDestQueues)
  else .veth (q - 2 * numOfPerDestQueues)

theorem queueAt_injective : Injective queueAt := by
  intro q r h
  unfold queueAt at h
  split at h
  · split at h
    · exact QueueId.loc.inj h
    · split at h <;> cases h
  · split at h
    · split at h
      · cases h
      · split at h
        · have := QueueId.nonLocal.inj h
          omega
        · cases h
    · split at h
      · cases h
      · split at h
        · cases h
        · have := QueueId.veth.inj h
          omega

/-- Every queue of the node has an index. -/
theorem exists_queueAt {Q : QueueId} (h : Q ∈ P.queueIds) :
    ∃ q : Fin P.nQueues, queueAt q = Q := by
  have hcount : P.nQueues = 2 * numOfPerDestQueues + P.v := rfl
  rcases Finset.mem_union.1 h with h | h
  · rcases Finset.mem_union.1 h with h | h
    · obtain ⟨q, hq, rfl⟩ := Finset.mem_image.1 h
      have hlt := Finset.mem_range.1 hq
      exact ⟨⟨q, by omega⟩, if_pos hlt⟩
    · obtain ⟨q, hq, rfl⟩ := Finset.mem_image.1 h
      have hlt := Finset.mem_range.1 hq
      refine ⟨⟨numOfPerDestQueues + q, by omega⟩, ?_⟩
      simp only [queueAt]
      rw [if_neg (by omega), if_pos (by omega), Nat.add_sub_cancel_left]
  · obtain ⟨q, hq, rfl⟩ := Finset.mem_image.1 h
    have hlt := Finset.mem_range.1 hq
    refine ⟨⟨2 * numOfPerDestQueues + q, by omega⟩, ?_⟩
    simp only [queueAt]
    rw [if_neg (by omega), if_neg (by omega), Nat.add_sub_cancel_left]

/-- The addresses at one station of a port. A frame arrives in one step, so the kernel holds none
between the fill ring and the RX ring. -/
def Node.station (P : NodeParams) (s : Node) : Station → ℕ → List ℕ
  | .umemFq, p => s.umemFq p
  | .kernelRx, _ => []
  | .rxq, p => (s.rxq p).map Frame.addr
  | .burst, p => (s.rx (P.rxThread p)).burst.map fun x => x.rx.addr
  | .collector, p => (s.tx (P.txThread p)).collector.map fun e => e.frame.addr
  | .txq, p => (s.txq p).map fun e => e.frame.addr
  | .kernelTx, p => (s.kernelTx p).map fun e => e.frame.addr
  | .umemCq, p => s.umemCq p

/-- The addresses outside the pool. -/
def Node.held (P : NodeParams) (s : Node) : Box P.nPorts P.nQueues → List ℕ
  | .port st p => s.station P st p
  | .queue q => (s.queue (queueAt q)).map fun x => x.frame.addr

/-- The node as a state of the pool runs. -/
def Node.pool (P : NodeParams) (s : Node) : PoolNode P.nPorts P.nQueues where
  bp := s.bp
  bc p := s.bc p
  held := s.held P

theorem Node.start_pool (bp : Bpool) (ports : ℕ → PortInit) :
    (Node.start bp ports).pool P = PoolNode.start P.nQueues bp ports := by
  unfold Node.pool PoolNode.start
  congr 1
  funext b
  cases b with
  | port st p => cases st <;> rfl
  | queue q => rfl

/-! ### Updates of the node, seen from the pool -/

/-- The caches of the node's ports when one of them changes. -/
theorem bc_update (bc : ℕ → Bcache) (p : Fin P.nPorts) (b : Bcache) :
    (fun q : Fin P.nPorts => update bc p b q) = update (fun q : Fin P.nPorts => bc q) p b :=
  update_comp_eq_of_injective bc Fin.val_injective p b

/-- One station of one port changes. -/
theorem Node.held_station {st : Station} {p : Fin P.nPorts} {l : List ℕ}
    (hqueue : s'.queue = s.queue)
    (hother : ∀ st', st' ≠ st → s'.station P st' = s.station P st')
    (hst : s'.station P st p = l)
    (hne : ∀ q : Fin P.nPorts, q ≠ p → s'.station P st q = s.station P st q) :
    s'.held P = update (s.held P) (.port st p) l := by
  refine eq_update_iff.2 ⟨hst, ?_⟩
  rintro (⟨st', q⟩ | q) hb
  · by_cases hst' : st' = st
    · subst hst'
      exact hne q fun hq => hb (by rw [hq])
    · exact congrFun (hother st' hst') q
  · simp only [Node.held, hqueue]

variable (s) (p : Fin P.nPorts)

theorem held_umemFq (l : List ℕ) : ({ s with umemFq := update s.umemFq p l } : Node).held P =
    update (s.held P) (.port .umemFq p) l := by
  refine Node.held_station rfl (fun st hst => ?_) (update_self ..) fun q hq => ?_
  · cases st <;> first | rfl | exact absurd rfl hst
  · exact update_of_ne (Fin.val_ne_of_ne hq) ..

theorem held_rxq (l : List Frame) : ({ s with rxq := update s.rxq p l } : Node).held P =
    update (s.held P) (.port .rxq p) (l.map Frame.addr) := by
  refine Node.held_station rfl (fun st hst => ?_) (congrArg _ (update_self ..)) fun q hq => ?_
  · cases st <;> first | rfl | exact absurd rfl hst
  · exact congrArg _ (update_of_ne (Fin.val_ne_of_ne hq) ..)

theorem held_txq (l : List TxEntry) : ({ s with txq := update s.txq p l } : Node).held P =
    update (s.held P) (.port .txq p) (l.map fun e => e.frame.addr) := by
  refine Node.held_station rfl (fun st hst => ?_) (congrArg _ (update_self ..)) fun q hq => ?_
  · cases st <;> first | rfl | exact absurd rfl hst
  · exact congrArg _ (update_of_ne (Fin.val_ne_of_ne hq) ..)

theorem held_kernelTx (l : List TxEntry) :
    ({ s with kernelTx := update s.kernelTx p l } : Node).held P =
      update (s.held P) (.port .kernelTx p) (l.map fun e => e.frame.addr) := by
  refine Node.held_station rfl (fun st hst => ?_) (congrArg _ (update_self ..)) fun q hq => ?_
  · cases st <;> first | rfl | exact absurd rfl hst
  · exact congrArg _ (update_of_ne (Fin.val_ne_of_ne hq) ..)

theorem held_umemCq (l : List ℕ) : ({ s with umemCq := update s.umemCq p l } : Node).held P =
    update (s.held P) (.port .umemCq p) l := by
  refine Node.held_station rfl (fun st hst => ?_) (update_self ..) fun q hq => ?_
  · cases st <;> first | rfl | exact absurd rfl hst
  · exact update_of_ne (Fin.val_ne_of_ne hq) ..

theorem held_rx (r : RxThread) :
    ({ s with rx := update s.rx (P.rxThread p) r } : Node).held P =
      update (s.held P) (.port .burst p) (r.burst.map fun x => x.rx.addr) := by
  refine Node.held_station rfl (fun st hst => ?_) ?_ fun q hq => ?_
  · cases st <;> first | rfl | exact absurd rfl hst
  · simp only [Node.station, update_self]
  · have hne : P.rxThread q ≠ P.rxThread p := fun h =>
      hq (Fin.val_injective (rxThread_injective P h))
    simp only [Node.station, update_of_ne hne]

theorem held_tx (r : TxThread) :
    ({ s with tx := update s.tx (P.txThread p) r } : Node).held P =
      update (s.held P) (.port .collector p) (r.collector.map fun e => e.frame.addr) := by
  refine Node.held_station rfl (fun st hst => ?_) ?_ fun q hq => ?_
  · cases st <;> first | rfl | exact absurd rfl hst
  · simp only [Node.station, update_self]
  · have hne : P.txThread q ≠ P.txThread p := fun h =>
      hq (Fin.val_injective (txThread_injective P h))
    simp only [Node.station, update_of_ne hne]

theorem held_queue (q : Fin P.nQueues) (l : List Packet) :
    ({ s with queue := update s.queue (queueAt q) l } : Node).held P =
      update (s.held P) (.queue q) (l.map fun x => x.frame.addr) := by
  refine eq_update_iff.2 ⟨congrArg _ (update_self ..), ?_⟩
  rintro (⟨st, p⟩ | r) hb
  · cases st <;> rfl
  · have hne : queueAt r ≠ queueAt q := fun h =>
      hb (by rw [Fin.val_injective (queueAt_injective h)])
    exact congrArg _ (update_of_ne hne ..)

/-- A thread moves on. -/
theorem held_tx_same {r : TxThread} (h : r.collector = (s.tx (P.txThread p)).collector) :
    ({ s with tx := update s.tx (P.txThread p) r } : Node).held P = s.held P := by
  rw [held_tx, h]
  exact update_eq_self ..

/-! ### What the threads do to the chunks -/

section Step

variable {s} {p} {params : BpoolParams} {N : ℕ} {M : Multiset ℕ}

/-- The slots of a TX thread are queues of the node. -/
theorem slotAt_queue {pos w : ℕ} {Q : QueueId} {p : ℕ}
    (h : slotAt P (P.txThread p) pos = some (Q, w)) : Q ∈ P.queueIds := by
  rcases slotAt_eq h with ⟨hp, hw, hQ⟩ | ⟨hp, hv, rfl⟩
  · have hlt : P.perDest * p + w < numOfPerDestQueues := by
      calc P.perDest * p + w
          < P.perDest * p + P.perDest := Nat.add_lt_add_left hw _
        _ = P.perDest * (p + 1) := (Nat.mul_succ _ _).symm
        _ ≤ P.perDest * P.n := Nat.mul_le_mul_left _ hp
        _ ≤ numOfPerDestQueues := Nat.div_mul_le_self _ _
    rcases hQ with rfl | rfl
    · refine Finset.mem_union_left _ (Finset.mem_union_right _ ?_)
      exact Finset.mem_image_of_mem _ (Finset.mem_range.2 hlt)
    · refine Finset.mem_union_left _ (Finset.mem_union_left _ ?_)
      exact Finset.mem_image_of_mem _ (Finset.mem_range.2 hlt)
  · refine Finset.mem_union_right _ (Finset.mem_image_of_mem _ (Finset.mem_range.2 ?_))
    omega

/-- A frame that is offered keeps its address. -/
theorem receive_addr {ret ret' : ReturnProcessRx} {f f' : Frame} {Q : QueueId}
    (h : receive P t ret f = .ok (ret', .offer Q f')) : f'.addr = f.addr := by
  unfold receive at h
  split at h
  · exact (nicReceive_offer h).1
  · split at h
    · cases h
    · rename_i o ho
      cases h
      rw [(vethReceive_offer ho).1]

/-- What a TX thread does to a frame leaves it at its address. -/
theorem prepare_addr {g : Globals} {topo w : ℕ} {Q : QueueId} {f f' : Frame}
    (h : prepare g topo Q w f = .ok f') : f'.addr = f.addr := by
  unfold prepare at h
  split at h
  · split at h
    · cases h
    · cases h
      rfl
  · split at h
    · cases h
    · cases h
      rfl
  · cases h
    rfl

theorem map_stampAll (p stamp : ℕ) (fs : List Frame) :
    (stampAll p stamp fs).map (fun x => x.rx.addr) = fs.map Frame.addr := by
  induction fs generalizing stamp with
  | nil => rfl
  | cons f fs ih => exact congrArg (f.addr :: ·) (ih (stamp + 1))

/-- No address moves. -/
theorem PoolInv.unmoved (h : PoolInv params N M (s.pool P)) (hbp : s'.bp = s.bp)
    (hbc : s'.bc = s.bc) (hheld : s'.held P = s.held P) : PoolInv params N M (s'.pool P) := by
  have hpool : s'.pool P = s.pool P := by
    simp only [Node.pool, hbp, hbc, hheld]
  rwa [hpool]

/-- Something happens at a port that the node does not have. -/
theorem PoolInv.outside (h : PoolInv params N M (s.pool P)) (hbp : s'.bp = s.bp)
    (hbc : s'.bc = s.bc) (hqueue : s'.queue = s.queue) {q : ℕ} (hq : ¬ q < P.nPorts)
    (hst : ∀ st, ∀ r, r ≠ q → s'.station P st r = s.station P st r) :
    PoolInv params N M (s'.pool P) := by
  refine h.unmoved hbp hbc ?_
  funext b
  cases b with
  | port st r => exact hst st r fun hr => hq (hr ▸ r.2)
  | queue r => simp only [Node.held, hqueue]

/-- Addresses move from one list to another. -/
theorem PoolInv.moved (h : PoolInv params N M (s.pool P)) {x y : Box P.nPorts P.nQueues}
    (hxy : x ≠ y) (hx : x.rxSide = false) (hy : y.rxSide = false) (hbp : s'.bp = s.bp)
    (hbc : s'.bc = s.bc) (hheld : s'.held P = shift (s.held P) x y k) :
    PoolInv params N M (s'.pool P) := by
  have hpool : s'.pool P = (s.pool P).move x y k := by
    simp only [Node.pool, PoolNode.move, hbp, hbc, hheld]
  rw [hpool]
  exact h.move hxy hx hy k

/-- Addresses that are given back go into the cache of the port. -/
theorem PoolInv.giveBack (h : PoolInv params N M (s.pool P)) (hB : 0 < params.nBuffersPerSlab)
    (hM : Multiset.card M ≤
      N * params.nBuffersPerSlab + P.nPorts * params.fillSize + params.nBuffersPerSlab)
    {x : Box P.nPorts P.nQueues} (hx : x.rxSide = false) (p : Fin P.nPorts)
    (hk : k ≤ (s.held P x).length) :
    ∃ bp b, bcacheProdAll s.bp (s.bc p) ((s.held P x).take k) = .ok (bp, b) ∧
      ∀ u : Node, u.bp = bp → u.bc = update s.bc p b →
        u.held P = update (s.held P) x ((s.held P x).drop k) → PoolInv params N M (u.pool P) := by
  obtain ⟨v, hv, hinv⟩ := h.recycle hB hM hx p hk
  unfold PoolNode.recycle at hv
  split at hv
  · cases hv
  · rename_i bp b hprod
    refine ⟨bp, b, hprod, fun u hbp hbc hheld => ?_⟩
    have hpool : u.pool P = v := by
      rw [← Option.some.inj (Except.ok.inj hv)]
      simp only [Node.pool, hbp, hbc, hheld, bc_update]
    rwa [hpool]

/-! ### The moves of the kernel -/

/-- A frame arrives on a port of the node. -/
theorem PoolInv.arrive (h : PoolInv params N M (s.pool P)) {f : Frame} {addr : ℕ} {rest : List ℕ}
    (hfill : s.umemFq p = addr :: rest) (hchunk : s.bp.frame f.addr = s.bp.frame addr) :
    PoolInv params N M (Node.pool P { s with
      umemFq := update s.umemFq p rest
      rxq := update s.rxq p (s.rxq p ++ [f]) }) := by
  have hfq : (s.pool P).held (.port .umemFq p) = addr :: rest := hfill
  -- the kernel takes the entry, and posts the frame
  have htake := h.kernelFill p
  have hheld : ((s.pool P).move (.port .umemFq p) (.port .kernelRx p) 1).held =
      update (update (s.held P) (.port .umemFq p) rest) (.port .kernelRx p) [addr] := by
    show shift _ _ _ 1 = _
    rw [shift, hfq]
    rfl
  have hnil : update (s.held P) (.port .umemFq p) rest (.port .kernelRx p) = [] := by
    rw [update_of_ne (by simp)]
    rfl
  have hone : ((s.pool P).move (.port .umemFq p) (.port .kernelRx p) 1).held (.port .kernelRx p) =
      [addr] := by
    rw [hheld, update_self]
  have hpost := htake.kernelRx hone hchunk
  convert hpost using 1
  have hsame : update (update (update (s.held P) (.port .umemFq p) rest) (.port .kernelRx p) [addr])
      (.port .kernelRx p) [] = update (s.held P) (.port .umemFq p) rest := by
    rw [update_idem, ← hnil, update_eq_self]
  have hrxq : s.held P (.port .rxq p) = (s.rxq p).map Frame.addr := rfl
  rw [hheld, hsame, update_of_ne (by simp), update_of_ne (by simp), hrxq]
  have hview := (held_rxq { s with umemFq := update s.umemFq p rest } p (s.rxq p ++ [f])).trans
    (congrArg (update · _ _) (held_umemFq s p rest))
  rw [List.map_append] at hview
  show Node.pool P _ = _
  unfold Node.pool
  rw [hview]
  rfl

/-- The kernel takes a descriptor. -/
theorem PoolInv.kernelTake (h : PoolInv params N M (s.pool P)) {e : TxEntry} {rest : List TxEntry}
    (htxq : s.txq p = e :: rest) :
    PoolInv params N M (Node.pool P { s with
      txq := update s.txq p rest
      kernelTx := update s.kernelTx p (s.kernelTx p ++ [e]) }) := by
  have hheld : s.held P (.port .txq p) = e.frame.addr :: rest.map fun e => e.frame.addr :=
    congrArg (List.map _) htxq
  refine h.moved (x := .port .txq p) (y := .port .kernelTx p) (k := 1) (by simp) rfl rfl rfl rfl ?_
  rw [shift, hheld]
  refine (held_kernelTx { s with txq := update s.txq p rest } p _).trans ?_
  rw [held_txq, List.map_append]
  rfl

/-- The kernel completes a descriptor. -/
theorem PoolInv.kernelComplete (h : PoolInv params N M (s.pool P)) {e : TxEntry}
    {rest : List TxEntry} (htx : s.kernelTx p = e :: rest) :
    PoolInv params N M (Node.pool P { s with
      kernelTx := update s.kernelTx p rest
      umemCq := update s.umemCq p (s.umemCq p ++ [e.frame.addr]) }) := by
  have hheld : s.held P (.port .kernelTx p) = e.frame.addr :: rest.map fun e => e.frame.addr :=
    congrArg (List.map _) htx
  refine h.moved (x := .port .kernelTx p) (y := .port .umemCq p) (k := 1) (by simp) rfl rfl rfl rfl
    ?_
  rw [shift, hheld]
  refine (held_umemCq { s with kernelTx := update s.kernelTx p rest } p _).trans ?_
  rw [held_kernelTx]
  rfl

/-! ### The moves of the threads -/

/-- An RX thread receives a burst. -/
theorem PoolInv.burst (h : PoolInv params N M (s.pool P))
    (hF : params.fillSize ≤ params.nBuffersPerSlab) (hburst : (s.rx (P.rxThread p)).burst = [])
    (hk : k ≤ (s.rxq p).length) {fresh : List ℕ} {bp : Bpool} {b : Bcache}
    (hpool : portRxBurst s.bp (s.bc p) k = .ok (some (fresh, bp, b))) {stamp : ℕ}
    {ret : ReturnProcessRx} {log : Log} :
    PoolInv params N M (Node.pool P { s with
      bp := bp
      bc := update s.bc p b
      rxq := update s.rxq p ((s.rxq p).drop k)
      umemFq := update s.umemFq p (s.umemFq p ++ fresh)
      rx := update s.rx (P.rxThread p) ⟨stampAll p stamp ((s.rxq p).take k), ret⟩
      log := log }) := by
  have hlen : k ≤ ((s.pool P).held (.port .rxq p)).length :=
    hk.trans (List.length_map Frame.addr).ge
  obtain ⟨r, hr, hinv⟩ := h.rxBurst hF hlen
  have hr' : some (fresh, bp, b) = r := Except.ok.inj (hpool.symm.trans hr)
  convert hinv fresh bp b hr'.symm using 1
  have hnil : s.held P (.port .burst p) = [] := congrArg (List.map _) hburst
  have hrxq : s.held P (.port .rxq p) = (s.rxq p).map Frame.addr := rfl
  -- the fill ring is not one of the two lists of the move
  have hfill : shift (s.held P) (.port .rxq p) (.port .burst p) k (.port .umemFq p) =
      s.umemFq p := by
    rw [shift, update_of_ne (by simp), update_of_ne (by simp)]
    rfl
  have hview := (held_umemFq
    { s with
      rxq := update s.rxq p ((s.rxq p).drop k)
      rx := update s.rx (P.rxThread p) ⟨stampAll p stamp ((s.rxq p).take k), ret⟩ }
    p (s.umemFq p ++ fresh)).trans (congrArg (update · _ _)
      ((held_rx { s with rxq := update s.rxq p ((s.rxq p).drop k) } p _).trans
        (congrArg (update · _ _) (held_rxq s p _))))
  rw [map_stampAll, List.map_drop, List.map_take, ← hrxq] at hview
  show Node.pool P _ = ⟨bp, update (fun q : Fin P.nPorts => s.bc q) p b,
    update (shift (s.held P) (.port .rxq p) (.port .burst p) k) (.port .umemFq p)
      (shift (s.held P) (.port .rxq p) (.port .burst p) k (.port .umemFq p) ++ fresh)⟩
  rw [hfill, shift, hnil, List.nil_append]
  unfold Node.pool
  simp only [bc_update]
  congr 1

/-- A queue accepts the next frame of a burst. -/
theorem PoolInv.accept (h : PoolInv params N M (s.pool P)) {x : Packet} {rest : List Packet}
    (hburst : (s.rx (P.rxThread p)).burst = x :: rest) {f : Frame} (haddr : f.addr = x.rx.addr)
    (q : Fin P.nQueues) {ret : ReturnProcessRx} {log : Log} :
    PoolInv params N M (Node.pool P { s with
      rx := update s.rx (P.rxThread p) ⟨rest, ret⟩
      queue := update s.queue (queueAt q) (s.queue (queueAt q) ++ [{ x with frame := f }])
      log := log }) := by
  have hheld : s.held P (.port .burst p) = x.rx.addr :: rest.map fun x => x.rx.addr :=
    congrArg (List.map _) hburst
  refine h.moved (x := .port .burst p) (y := .queue q) (k := 1) (by simp) rfl rfl rfl rfl ?_
  rw [shift, hheld]
  refine (held_queue { s with rx := update s.rx (P.rxThread p) ⟨rest, ret⟩ } q _).trans ?_
  rw [held_rx, List.map_append, List.map_singleton, haddr]
  rfl

/-- The next frame of a burst is given back. -/
theorem PoolInv.reject (h : PoolInv params N M (s.pool P)) (hB : 0 < params.nBuffersPerSlab)
    (hM : Multiset.card M ≤
      N * params.nBuffersPerSlab + P.nPorts * params.fillSize + params.nBuffersPerSlab)
    {x : Packet} {rest : List Packet} (hburst : (s.rx (P.rxThread p)).burst = x :: rest)
    (ret : ReturnProcessRx) :
    PoolInv params N M
        (Node.pool P
          (Node.release { s with rx := update s.rx (P.rxThread p) ⟨rest, ret⟩ } t p [x.rx.addr])) ∧
      (Node.release { s with rx := update s.rx (P.rxThread p) ⟨rest, ret⟩ } t p
        [x.rx.addr]).fault = s.fault := by
  have hheld : s.held P (.port .burst p) = x.rx.addr :: rest.map fun x => x.rx.addr :=
    congrArg (List.map _) hburst
  obtain ⟨bp, b, hprod, hinv⟩ := h.giveBack hB hM (x := .port .burst p) rfl p (k := 1)
    (by rw [hheld, List.length_cons]; omega)
  rw [hheld, List.take_succ_cons, List.take_zero] at hprod
  rw [hheld, List.drop_succ_cons, List.drop_zero] at hinv
  have hok : bcacheProdAll ({ s with rx := update s.rx (P.rxThread p) ⟨rest, ret⟩ } : Node).bp
      (({ s with rx := update s.rx (P.rxThread p) ⟨rest, ret⟩ } : Node).bc p) [x.rx.addr] =
        .ok (bp, b) := hprod
  rw [Node.release_of_ok hok]
  exact ⟨hinv _ rfl rfl (held_rx s p ⟨rest, ret⟩), rfl⟩

/-- A TX thread pulls a packet. -/
theorem PoolInv.pull (h : PoolInv params N M (s.pool P)) {q : Fin P.nQueues} {x : Packet}
    {rest : List Packet} (hqueue : s.queue (queueAt q) = x :: rest) {e : TxEntry}
    (haddr : e.frame.addr = x.frame.addr) {log : Log} :
    PoolInv params N M (Node.pool P { s with
      queue := update s.queue (queueAt q) rest
      tx := update s.tx (P.txThread p) { s.tx (P.txThread p) with
        collector := (s.tx (P.txThread p)).collector ++ [e] }
      log := log }) := by
  have hheld : s.held P (.queue q) = x.frame.addr :: rest.map fun x => x.frame.addr :=
    congrArg (List.map _) hqueue
  refine h.moved (x := .queue q) (y := .port .collector p) (k := 1) (by simp) rfl rfl rfl rfl ?_
  rw [shift, hheld]
  refine (held_tx { s with queue := update s.queue (queueAt q) rest } p _).trans ?_
  rw [held_queue, List.map_append, List.map_singleton, haddr]
  rfl

/-- The completions of a port are given back. -/
theorem PoolInv.drain (h : PoolInv params N M (s.pool P)) (hB : 0 < params.nBuffersPerSlab)
    (hM : Multiset.card M ≤
      N * params.nBuffersPerSlab + P.nPorts * params.fillSize + params.nBuffersPerSlab)
    (hk : k ≤ (s.umemCq p).length) {us : List Use}
    (hs' : s' = (s.note us).release (P.txThread p) p ((s.umemCq p).take k)) :
    PoolInv params N M (Node.pool P { s' with
        umemCq := update s'.umemCq p ((s'.umemCq p).drop k)
        tx := update s'.tx (P.txThread p) { s'.tx (P.txThread p) with stage := .reserving } }) ∧
      s'.fault = s.fault := by
  obtain ⟨bp, b, hprod, hinv⟩ := h.giveBack hB hM (x := .port .umemCq p) rfl p hk
  have hok : bcacheProdAll (s.note us).bp ((s.note us).bc p) ((s.umemCq p).take k) = .ok (bp, b) :=
    hprod
  rw [Node.release_of_ok hok] at hs'
  subst hs'
  refine ⟨hinv _ rfl rfl ?_, rfl⟩
  exact (held_tx_same { s with umemCq := update s.umemCq p ((s.umemCq p).drop k) } p
    (r := { s.tx (P.txThread p) with stage := .reserving }) rfl).trans
      (held_umemCq s p ((s.umemCq p).drop k))

/-- A collector goes to the TX ring. -/
theorem PoolInv.submit (h : PoolInv params N M (s.pool P)) {pos : ℕ} {stage : Stage} {log : Log} :
    PoolInv params N M (Node.pool P { s with
      tx := update s.tx (P.txThread p) ⟨pos, stage, []⟩
      txq := update s.txq p (s.txq p ++ (s.tx (P.txThread p)).collector)
      log := log }) := by
  have hheld : s.held P (.port .collector p) =
      (s.tx (P.txThread p)).collector.map fun e => e.frame.addr := rfl
  refine h.moved (x := .port .collector p) (y := .port .txq p)
    (k := (s.tx (P.txThread p)).collector.length) (by simp) rfl rfl rfl rfl ?_
  rw [shift, hheld, List.drop_eq_nil_of_le (by rw [List.length_map]),
    List.take_of_length_le (by rw [List.length_map])]
  refine (held_txq { s with tx := update s.tx (P.txThread p) ⟨pos, stage, []⟩ } p _).trans ?_
  rw [held_tx, List.map_append]
  rfl

/-! ### Faults -/

/-- The steps in which the frame at hand leads to an undefined operation: a failed lookup, an index
outside an array, a negative length. -/
def Node.FrameFaults (P : NodeParams) (s : Node) : NodeAct → Prop
  | .handle t => ∃ x rest e, (s.rx t).burst = x :: rest ∧
      receive P t (s.rx t).ret x.rx = .error e
  | .pull t => ∃ Q w x rest e, slotAt P t (s.tx t).pos = some (Q, w) ∧ s.queue Q = x :: rest ∧
      prepare P.g s.topo Q w x.frame = .error e
  | _ => False

theorem Node.rxBurst_fault {p : ℕ} (h : s.rxBurst t p k = some s')
    (hok : k ≤ (s.rxq p).length → ∃ r, portRxBurst s.bp (s.bc p) k = .ok r) :
    s'.fault = s.fault := by
  unfold Node.rxBurst at h
  split at h
  · rename_i hg
    obtain ⟨r, hr⟩ := hok hg.2.1
    rw [hr] at h
    rcases r with _ | ⟨fresh, bp, bc⟩
    · cases h
    · cases h
      rfl
  · cases h

theorem Node.pull_fault (h : s.pull P t = some s') :
    s'.fault = s.fault ∨ s.FrameFaults P (.pull t) := by
  unfold Node.pull at h
  split at h
  · split at h
    · cases h
    · rename_i Q w hslot
      split at h
      · cases h
      · rename_i x rest hqueue
        simp only at h
        split at h
        · rename_i e hprep
          exact .inr ⟨Q, w, x, rest, e, hslot, hqueue, hprep⟩
        · cases h
          exact .inl rfl
  · cases h

/-! ### Every step -/

/-- **Every step keeps the invariant of the pool, and no pool call goes wrong.** -/
theorem PoolInv.node (h : PoolInv params N M (s.pool P)) (hB : 0 < params.nBuffersPerSlab)
    (hF : params.fillSize ≤ params.nBuffersPerSlab)
    (hM : Multiset.card M ≤
      N * params.nBuffersPerSlab + P.nPorts * params.fillSize + params.nBuffersPerSlab)
    (hstep : s.step P a = some s') :
    PoolInv params N M (s'.pool P) ∧ (s'.fault = none ∨ s.FrameFaults P a) := by
  obtain ⟨hfault, hcases⟩ := NodeStep.of_step hstep
  have hport : ∀ {q}, q < P.n + P.v → ∃ p : Fin P.nPorts, (p : ℕ) = q := fun hq => ⟨⟨_, hq⟩, rfl⟩
  cases hcases with
  | create hlt => exact ⟨h, .inl hfault⟩
  | readTime sec nsec hall => exact ⟨h, .inl hfault⟩
  | arrive q f addr rest hfill hchunk =>
    refine ⟨?_, .inl hfault⟩
    by_cases hq : q < P.n + P.v
    · obtain ⟨p, rfl⟩ := hport hq
      exact h.arrive hfill hchunk
    · refine h.outside rfl rfl rfl hq fun st r hne => ?_
      cases st <;> simp only [Node.station, update_of_ne hne]
  | kernelTake q e rest htxq hroom =>
    refine ⟨?_, .inl hfault⟩
    by_cases hq : q < P.n + P.v
    · obtain ⟨p, rfl⟩ := hport hq
      exact h.kernelTake htxq
    · refine h.outside rfl rfl rfl hq fun st r hne => ?_
      cases st <;> simp only [Node.station, update_of_ne hne]
  | kernelComplete q e rest htx =>
    refine ⟨?_, .inl hfault⟩
    by_cases hq : q < P.n + P.v
    · obtain ⟨p, rfl⟩ := hport hq
      exact h.kernelComplete htx
    · refine h.outside rfl rfl rfl hq fun st r hne => ?_
      cases st <;> simp only [Node.station, update_of_ne hne]
  | rxFault t q k e ht =>
    -- the pool grants every burst
    obtain ⟨r, hr, hburst⟩ := Node.onRx_eq_some (f := fun p => s.rxBurst t p k) (by
      unfold Node.step at hstep
      rwa [if_neg (not_not.2 hfault)] at hstep)
    obtain ⟨-, hlt⟩ := hr.eq
    obtain ⟨p, rfl⟩ := hport hlt
    have hsame := Node.rxBurst_fault hburst fun hk => by
      have hlen : k ≤ ((s.pool P).held (.port .rxq p)).length :=
        hk.trans (List.length_map Frame.addr).ge
      obtain ⟨v, hv, -⟩ := h.rxBurst hF hlen
      exact ⟨v, hv⟩
    rw [hfault] at hsame
    cases hsame
  | rxBurst t q k fresh bp bc ht hburst hk hfill hpool =>
    obtain ⟨rfl, hlt⟩ := ht.eq
    obtain ⟨p, rfl⟩ := hport hlt
    exact ⟨h.burst hF hburst hk hpool, .inl hfault⟩
  | handleFault t q x rest e ht hburst hrecv =>
    exact ⟨h, .inr ⟨x, rest, e, hburst, hrecv⟩⟩
  | accept t q x rest ret Q f ht hburst hrecv hroom =>
    obtain ⟨rfl, hlt⟩ := ht.eq
    obtain ⟨p, rfl⟩ := hport hlt
    have hQ : Q ∈ P.queueIds := by
      rcases receive_queue ht.role hrecv with ⟨R, hR, f', ho⟩ | ⟨-, -, ho⟩
      · cases ho
        exact hR
      · cases ho
    obtain ⟨r, rfl⟩ := exists_queueAt hQ
    exact ⟨h.accept hburst (receive_addr hrecv) r, .inl hfault⟩
  | reject t q x rest ret Q f ht hburst hrecv hfull =>
    obtain ⟨rfl, hlt⟩ := ht.eq
    obtain ⟨p, rfl⟩ := hport hlt
    obtain ⟨hinv, hsame⟩ := h.reject (t := P.rxThread p) hB hM hburst ret
    exact ⟨hinv, .inl (hsame.trans hfault)⟩
  | giveBack t q x rest ret ht hburst hrecv =>
    obtain ⟨rfl, hlt⟩ := ht.eq
    obtain ⟨p, rfl⟩ := hport hlt
    obtain ⟨hinv, hsame⟩ := h.reject (t := P.rxThread p) hB hM hburst ret
    exact ⟨hinv, .inl (hsame.trans hfault)⟩
  | ignore t q x rest ret ht hburst hrecv =>
    obtain ⟨rfl, -⟩ := ht.eq
    -- there is a queue for every frame
    rcases receive_queue ht.role hrecv with ⟨R, hR, f', ho⟩ | ⟨-, -, ho⟩ <;> cases ho
  | pullFault t q Q w _ _ e ht hslot =>
    obtain ⟨r, -, hr⟩ := Node.onTx_eq_some (f := fun _ => s.pull P t) (by
      unfold Node.step at hstep
      rwa [if_neg (not_not.2 hfault)] at hstep)
    rcases Node.pull_fault hr with hsame | hfails
    · rw [hfault] at hsame
      cases hsame
    · exact ⟨h, .inr hfails⟩
  | pull t q Q w x rest f ht hroom hslot hqueue hprep =>
    obtain ⟨rfl, hlt⟩ := ht.eq
    obtain ⟨p, rfl⟩ := hport hlt
    obtain ⟨r, rfl⟩ := exists_queueAt (slotAt_queue hslot)
    exact ⟨h.pull hqueue (e := ⟨_, w, x, s.topo, f⟩) (prepare_addr hprep), .inl hfault⟩
  | advance t q ht =>
    obtain ⟨rfl, hlt⟩ := ht.eq
    obtain ⟨p, rfl⟩ := hport hlt
    exact ⟨h.unmoved rfl rfl (held_tx_same s p rfl), .inl hfault⟩
  | call t q ht =>
    obtain ⟨rfl, hlt⟩ := ht.eq
    obtain ⟨p, rfl⟩ := hport hlt
    have hsame := held_tx_same s p (r := { s.tx (P.txThread p) with stage := .draining }) rfl
    exact ⟨h.unmoved rfl rfl hsame, .inl hfault⟩
  | drain t q k s₁ ht hk hs₁ =>
    obtain ⟨rfl, hlt⟩ := ht.eq
    obtain ⟨p, rfl⟩ := hport hlt
    obtain ⟨hinv, hsame⟩ := h.drain hB hM hk hs₁
    exact ⟨hinv, .inl (hsame.trans hfault)⟩
  | submit t q ht =>
    obtain ⟨rfl, hlt⟩ := ht.eq
    obtain ⟨p, rfl⟩ := hport hlt
    exact ⟨h.submit, .inl hfault⟩

end Step

/-! ### Whole runs -/

/-- No two addresses outside the pool lie in one chunk. -/
theorem PoolInv.apart {P Q i j : ℕ} {params : BpoolParams} {N : ℕ} {M : Multiset ℕ}
    {s : PoolNode P Q} (h : PoolInv params N M s) (hM : M.Nodup) {x y : Box P Q}
    (hget : (s.framesAt (.box x))[i]? = (s.framesAt (.box y))[j]?)
    (hi : i < (s.framesAt (.box x)).length) : x = y ∧ i = j := by
  have hplace : ∀ f z, f ∈ s.framesAt z →
      ∃ x, (s.framesAt x).count f = 1 ∧ ∀ y, f ∈ s.framesAt y → y = x := by
    intro f z hz
    have hmem := (mem_circulating h.pool.avail_le).2 ⟨z, hz⟩
    rw [h.circ] at hmem
    exact h.one_place hM hmem
  obtain ⟨f, hf⟩ : ∃ f, (s.framesAt (.box x))[i]? = some f := ⟨_, List.getElem?_eq_getElem hi⟩
  have hx := List.mem_of_getElem? hf
  have hy := List.mem_of_getElem? (hget.symm.trans hf)
  obtain ⟨z, -, huniq⟩ := hplace f _ hx
  have hxy : x = y := Place.box.inj ((huniq _ hx).trans (huniq _ hy).symm)
  subst hxy
  -- every chunk there is there once
  have honce : (s.framesAt (.box x)).Nodup := by
    rw [List.nodup_iff_count_eq_one]
    intro f' hf'
    obtain ⟨w, hw, hguniq⟩ := hplace f' _ hf'
    rwa [← hguniq _ hf'] at hw
  exact ⟨rfl, (List.getElem?_inj hi honce).1 hget⟩

/-- What the set-up leaves: the invariant of the pool, with every chunk once. -/
theorem Node.start_chunks {params : BpoolParams} {sysOk : Bool} {sockOk : ℕ → Bool}
    {bp bp' : Bpool} {ports : ℕ → PortInit} (hF : params.fillSize ≤ params.nBuffersPerSlab)
    (hroom : P.nPorts * (params.nBuffersPerSlab - params.fillSize) ≤ params.nBuffersPerSlab)
    (hbp : bpoolInit params sysOk = .ok (some bp)) (h2P : 2 * P.nPorts ≤ bp.nSlabs)
    (hports : initPorts bp sockOk P.nPorts = .ok (bp', some ports)) :
    0 < bp.params.nBuffersPerSlab ∧ bp.params.fillSize ≤ bp.params.nBuffersPerSlab ∧
      ∃ N M, M.Nodup ∧ PoolInv bp.params N M ((Node.start bp' ports).pool P) ∧
        Multiset.card M ≤ N * bp.params.nBuffersPerSlab + P.nPorts * bp.params.fillSize +
          bp.params.nBuffersPerSlab := by
  obtain ⟨hfresh, hper, hfill⟩ := bpoolInit_fresh hbp
  rw [← hper, ← hfill] at hF hroom
  refine ⟨hfresh.perSlab_pos, hF, bp.nSlabs - 2 * P.nPorts,
    (PoolNode.start P.nQueues bp' ports : PoolNode P.nPorts P.nQueues).circulating
      (bp.nSlabs - 2 * P.nPorts), nodup_start hfresh h2P hF hports P.nQueues, ?_, ?_⟩
  · rw [Node.start_pool]
    exact start_inv hfresh h2P hF hports P.nQueues
  · rw [card_start hfresh h2P hF hports P.nQueues]
    omega

/-- The chunks of the node in state `s` of a run from `s₀`. -/
structure ChunksKept (P : NodeParams) (s₀ s : Node) : Prop where
  /-- the chunks are those of the start -/
  same : ∀ f, (∃ y, f ∈ (s.pool P).framesAt y) ↔ ∃ y, f ∈ (s₀.pool P).framesAt y
  /-- each of them is in one place, once -/
  one_place : ∀ f, (∃ y, f ∈ (s₀.pool P).framesAt y) →
    ∃ x, ((s.pool P).framesAt x).count f = 1 ∧ ∀ y, f ∈ (s.pool P).framesAt y → y = x
  /-- no two addresses outside the pool lie in one chunk -/
  apart : ∀ x y i j, ((s.pool P).framesAt (.box x))[i]? = ((s.pool P).framesAt (.box y))[j]? →
    i < ((s.pool P).framesAt (.box x)).length → x = y ∧ i = j
  /-- no call of the pool goes wrong -/
  faults : ∀ a s', s.step P a = some s' → s'.fault = none ∨ s.FrameFaults P a

/-- The set-up is that of the pool and of the ports. -/
theorem Node.boot_ports {params : BpoolParams} {n : ℕ} {u : Node}
    (h : Node.boot params n = some u) :
    ∃ bp bp' ports, bpoolInit params true = .ok (some bp) ∧
      initPorts bp (fun _ => true) n = .ok (bp', some ports) ∧ u = Node.start bp' ports := by
  unfold Node.boot at h
  split at h
  · rename_i bp hbp
    split at h
    · rename_i bp' ports hports
      cases h
      exact ⟨bp, bp', ports, hbp, hports, rfl⟩
    · cases h
  · cases h

end RotorXdp
