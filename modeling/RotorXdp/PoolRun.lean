import RotorXdp.Lib.Run
import RotorXdp.Lib.Racks
import RotorXdp.PoolSetup
import Mathlib.Tactic.DeriveFintype
import Mathlib.Data.Fintype.Sum
import Mathlib.Data.Fintype.Sigma
import Mathlib.Data.Fintype.Prod
import Mathlib.Data.Fintype.BigOperators
import Mathlib.Algebra.BigOperators.Fin

/-!
# Runs of the buffer pool

The pool, the caches of `P` ports and everything that can hold a frame outside them: the four
rings of a port, the frames the kernel has taken from a ring, the receive burst and the transmit
collector of the port's threads, and `Q` packet queues. A frame is known by its address divided by
the buffer size, since the kernel may move the address inside the frame's chunk.

* `PoolNode.step`: whole calls of the data path and the kernel's moves, one action each;
* `PoolNode.rack`: the pool as a rack of trays, the connection to `Lib.Racks`;
* `PoolInv`, `PoolInv.step`: the invariant and its preservation;
* `frame_in_one_place`: no frame is lost or duplicated.
-/

namespace RotorXdp

open Function Runs Racks

/-- Where a port's frames are when they are not in the pool. -/
inductive Station
  | umemFq
  /-- taken from the fill ring by the kernel, not yet received into -/
  | kernelRx
  | rxq
  /-- `burst_rx` of the thread that receives on the port -/
  | burst
  /-- `burst_tx_collector` of the thread that transmits on the port -/
  | collector
  | txq
  /-- taken from the TX ring by the kernel, not yet completed -/
  | kernelTx
  | umemCq
  deriving DecidableEq

instance : Fintype Station where
  elems := {.umemFq, .kernelRx, .rxq, .burst, .collector, .txq, .kernelTx, .umemCq}
  complete := fun x => by cases x <;> decide

/-- A list of frame addresses outside the pool. -/
inductive Box (P Q : ℕ)
  | port (st : Station) (p : Fin P)
  | queue (q : Fin Q)
  deriving DecidableEq, Fintype

/-- The state of the pool and of all that circulates. -/
structure PoolNode (P Q : ℕ) where
  bp : Bpool
  bc : Fin P → Bcache
  held : Box P Q → List ℕ

/-- Whole calls of the node's functions, and moves of the kernel. -/
inductive PoolAct (P Q : ℕ)
  /-- `port_rx_burst`, where the peek at the RX ring returns `k` -/
  | rxBurst (p : Fin P) (k : ℕ)
  /-- `mpmc_queue_push` of the next frame of the burst -/
  | push (p : Fin P) (q : Fin Q)
  /-- `bcache_prod` of the next frame of the burst, the queue being full -/
  | drop (p : Fin P) (q : Fin Q)
  /-- `mpmc_queue_pull` into the collector -/
  | pull (q : Fin Q) (p : Fin P)
  /-- first half of `port_tx_burst_collector`: the peek at the completion ring returns `k` -/
  | drain (p : Fin P) (k : ℕ)
  /-- second half, once the TX ring has room -/
  | submit (p : Fin P)
  | kernelFill (p : Fin P)
  /-- the kernel posts a received frame at some address inside its chunk -/
  | kernelRx (p : Fin P) (addr : ℕ)
  | kernelTx (p : Fin P)
  | kernelComplete (p : Fin P)

variable {P Q : ℕ}

/-- The node after `bcache_prod` of the first `k` frames of `x` into the cache of `p`. -/
def PoolNode.recycle (s : PoolNode P Q) (x : Box P Q) (p : Fin P) (k : ℕ) :
    Except Fault (Option (PoolNode P Q)) :=
  match bcacheProdAll s.bp (s.bc p) ((s.held x).take k) with
  | .error e => .error e
  | .ok (bp, bc) =>
    .ok (some ⟨bp, update s.bc p bc, update s.held x ((s.held x).drop k)⟩)

/-- The node after the first `k` frames of `x` have moved to the end of `y`. -/
def PoolNode.move (s : PoolNode P Q) (x y : Box P Q) (k : ℕ) : PoolNode P Q :=
  { s with held := shift s.held x y k }

/-- One action. `txSize` is the size of the TX rings. -/
def PoolNode.step (txSize : ℕ) (s : PoolNode P Q) :
    PoolAct P Q → Except Fault (Option (PoolNode P Q))
  | .rxBurst p k =>
    if s.held (.port .burst p) = [] ∧ k ≤ (s.held (.port .rxq p)).length ∧
        (s.held (.port .umemFq p)).length + k ≤ s.bp.params.fillSize then
      match portRxBurst s.bp (s.bc p) k with
      | .error e => .error e
      | .ok none => .ok none
      | .ok (some (fresh, bp, bc)) =>
        let held := shift s.held (.port .rxq p) (.port .burst p) k
        .ok (some ⟨bp, update s.bc p bc,
          update held (.port .umemFq p) (held (.port .umemFq p) ++ fresh)⟩)
    else .ok none
  | .push p q =>
    if s.held (.port .burst p) ≠ [] ∧ (s.held (.queue q)).length < maxBurstTxObjs then
      .ok (some (s.move (.port .burst p) (.queue q) 1))
    else .ok none
  | .drop p q =>
    if s.held (.port .burst p) ≠ [] ∧ maxBurstTxObjs ≤ (s.held (.queue q)).length then
      s.recycle (.port .burst p) p 1
    else .ok none
  | .pull q p =>
    if s.held (.queue q) ≠ [] ∧ (s.held (.port .collector p)).length < maxBurstTx then
      .ok (some (s.move (.queue q) (.port .collector p) 1))
    else .ok none
  | .drain p k =>
    if k ≤ (s.held (.port .umemCq p)).length ∧ k ≤ s.bp.params.compSize then
      s.recycle (.port .umemCq p) p k
    else .ok none
  | .submit p =>
    let n := (s.held (.port .collector p)).length
    if (s.held (.port .txq p)).length + n ≤ txSize then
      .ok (some (s.move (.port .collector p) (.port .txq p) n))
    else .ok none
  | .kernelFill p => .ok (some (s.move (.port .umemFq p) (.port .kernelRx p) 1))
  | .kernelRx p addr =>
    match s.held (.port .kernelRx p) with
    | [] => .ok none
    | a :: rest =>
      if addr / s.bp.params.bufferSize = a / s.bp.params.bufferSize then
        let held := update s.held (.port .kernelRx p) rest
        .ok (some { s with held := update held (.port .rxq p) (held (.port .rxq p) ++ [addr]) })
      else .ok none
  | .kernelTx p =>
    if (s.held (.port .kernelTx p)).length + (s.held (.port .umemCq p)).length <
        s.bp.params.compSize then
      .ok (some (s.move (.port .txq p) (.port .kernelTx p) 1))
    else .ok none
  | .kernelComplete p => .ok (some (s.move (.port .kernelTx p) (.port .umemCq p) 1))

/-- The node right after the ports are set up. -/
def PoolNode.start (Q : ℕ) (bp : Bpool) (ports : ℕ → PortInit) : PoolNode P Q where
  bp := bp
  bc := fun p => (ports p).bc
  held
    | .port .umemFq p => (ports p).umemFq
    | _ => []

/-- After the set-up the frames outside the pool are those on the fill rings. -/
theorem start_held (bp : Bpool) (ports : ℕ → PortInit) (b : Box P Q) :
    (∃ p, b = .port .umemFq p ∧ (PoolNode.start Q bp ports).held b = (ports p).umemFq) ∨
      (PoolNode.start Q bp ports).held b = [] := by
  cases b with
  | port st p =>
    cases st with
    | umemFq => exact .inl ⟨p, rfl, rfl⟩
    | _ => exact .inr rfl
  | queue q => exact .inr rfl

/-- The places of the statement: entries of slabs and lists of addresses. -/
inductive Place (P Q : ℕ)
  | slab (i : ℕ)
  | slabCons (p : Fin P)
  | slabProd (p : Fin P)
  | box (b : Box P Q)

/-- The frame an address lies in. -/
def Bpool.frame (bp : Bpool) (addr : ℕ) : ℕ := addr / bp.params.bufferSize

/-- The frames at a place: a pool slab counts below `n_slabs_available`, a cache slab up to its
fill count. -/
def PoolNode.framesAt (s : PoolNode P Q) : Place P Q → List ℕ
  | .slab i =>
    if i < s.bp.nSlabsAvailable then
      (List.range s.bp.params.nBuffersPerSlab).map fun e =>
        s.bp.frame (s.bp.buffers (s.bp.slabs i) e)
    else []
  | .slabCons p =>
    (List.range (s.bc p).nBuffersCons).map fun e => s.bp.frame (s.bp.buffers (s.bc p).slabCons e)
  | .slabProd p =>
    (List.range (s.bc p).nBuffersProd).map fun e => s.bp.frame (s.bp.buffers (s.bc p).slabProd e)
  | .box b => (s.held b).map s.bp.frame

/-! ### The pool as a rack -/

/-- The places of the rack: the `N` slab positions that are not given to caches, and the two slabs
of each cache. -/
inductive PoolPlace (N P : ℕ)
  | slab (i : Fin N)
  | cons (p : Fin P)
  | prod (p : Fin P)
  deriving DecidableEq, Fintype

/-- The pool and the caches as a rack of slabs holding frames. -/
def rackOf (N : ℕ) (bp : Bpool) (bc : Fin P → Bcache) : Rack (PoolPlace N P) ℕ ℕ where
  tray
    | .slab i => bp.slabs i
    | .cons p => (bc p).slabCons
    | .prod p => (bc p).slabProd
  level
    | .slab i => if (i : ℕ) < bp.nSlabsAvailable then bp.params.nBuffersPerSlab else 0
    | .cons p => (bc p).nBuffersCons
    | .prod p => (bc p).nBuffersProd
  cell c e := bp.frame (bp.buffers c e)

variable {N : ℕ} {bp bp' : Bpool} {bc : Fin P → Bcache} {b' : Bcache} {p : Fin P}

theorem rackOf_tradeCons (h0 : 0 < bp.nSlabsAvailable) (hN : bp.nSlabsAvailable ≤ N)
    (hc : (bc p).nBuffersCons = 0) :
    rackOf N { bp with
        slabs := update bp.slabs (bp.nSlabsAvailable - 1) (bc p).slabCons
        nSlabsAvailable := bp.nSlabsAvailable - 1 }
      (update bc p { bc p with
        slabCons := bp.slabs (bp.nSlabsAvailable - 1)
        nBuffersCons := bp.params.nBuffersPerSlab })
      = (rackOf N bp bc).exchange (.cons p) (.slab ⟨bp.nSlabsAvailable - 1, by omega⟩) := by
  have hlast : bp.nSlabsAvailable - 1 < bp.nSlabsAvailable := by omega
  ext z
  · cases z with
    | slab i =>
      by_cases hi : (i : ℕ) = bp.nSlabsAvailable - 1 <;>
        simp [rackOf, Rack.exchange, Equiv.swap_apply_def, hi, Fin.ext_iff]
    | cons q => by_cases hq : q = p <;> simp [rackOf, Rack.exchange, Equiv.swap_apply_def, hq]
    | prod q => by_cases hq : q = p <;> simp [rackOf, Rack.exchange, Equiv.swap_apply_def, hq]
  · cases z with
    | slab i =>
      have hlt : (i : ℕ) ≠ bp.nSlabsAvailable - 1 →
          ((i : ℕ) < bp.nSlabsAvailable - 1 ↔ (i : ℕ) < bp.nSlabsAvailable) := by omega
      by_cases hi : (i : ℕ) = bp.nSlabsAvailable - 1
      · simp [rackOf, Rack.exchange, Equiv.swap_apply_def, hi, Fin.ext_iff, hc]
      · simp [rackOf, Rack.exchange, Equiv.swap_apply_def, hi, Fin.ext_iff, hlt hi]
    | cons q =>
      by_cases hq : q = p <;> simp [rackOf, Rack.exchange, Equiv.swap_apply_def, hq, hlast]
    | prod q => by_cases hq : q = p <;> simp [rackOf, Rack.exchange, Equiv.swap_apply_def, hq]
  · rfl

theorem rackOf_tradeProd (hN : bp.nSlabsAvailable < N)
    (hp : (bc p).nBuffersProd = bp.params.nBuffersPerSlab) :
    rackOf N { bp with
        slabs := update bp.slabs bp.nSlabsAvailable (bc p).slabProd
        nSlabsAvailable := bp.nSlabsAvailable + 1 }
      (update bc p { bc p with
        slabProd := bp.slabs bp.nSlabsAvailable
        nBuffersProd := 0 })
      = (rackOf N bp bc).exchange (.prod p) (.slab ⟨bp.nSlabsAvailable, hN⟩) := by
  ext z
  · cases z with
    | slab i =>
      by_cases hi : (i : ℕ) = bp.nSlabsAvailable <;>
        simp [rackOf, Rack.exchange, Equiv.swap_apply_def, hi, Fin.ext_iff]
    | cons q => by_cases hq : q = p <;> simp [rackOf, Rack.exchange, Equiv.swap_apply_def, hq]
    | prod q => by_cases hq : q = p <;> simp [rackOf, Rack.exchange, Equiv.swap_apply_def, hq]
  · cases z with
    | slab i =>
      have hlt : (i : ℕ) ≠ bp.nSlabsAvailable →
          ((i : ℕ) < bp.nSlabsAvailable + 1 ↔ (i : ℕ) < bp.nSlabsAvailable) := by omega
      by_cases hi : (i : ℕ) = bp.nSlabsAvailable
      · simp [rackOf, Rack.exchange, Equiv.swap_apply_def, hi, Fin.ext_iff, hp]
      · have hstay : Equiv.swap (PoolPlace.prod p) (.slab ⟨bp.nSlabsAvailable, hN⟩) (.slab i) =
            (.slab i : PoolPlace N P) :=
          Equiv.swap_apply_of_ne_of_ne (by simp) fun h => hi (by simpa [Fin.ext_iff] using h)
        simp only [rackOf, Rack.exchange, comp_apply, hstay]
        exact if_congr (hlt hi) rfl rfl
    | cons q => by_cases hq : q = p <;> simp [rackOf, Rack.exchange, Equiv.swap_apply_def, hq]
    | prod q => by_cases hq : q = p <;> simp [rackOf, Rack.exchange, Equiv.swap_apply_def, hq]
  · rfl

theorem rackOf_push (N : ℕ) (bp : Bpool) (bc : Fin P → Bcache) (p : Fin P) (a : ℕ) :
    rackOf N (bp.storeEntry (bc p).slabProd (bc p).nBuffersProd a)
      (update bc p { bc p with nBuffersProd := (bc p).nBuffersProd + 1 })
      = (rackOf N bp bc).push (.prod p) (bp.frame a) := by
  ext z e
  · cases z with
    | slab i => rfl
    | cons q => by_cases hq : q = p <;> simp [rackOf, Rack.push, hq]
    | prod q => by_cases hq : q = p <;> simp [rackOf, Rack.push, hq]
  · cases z with
    | slab i => rfl
    | cons q => by_cases hq : q = p <;> simp [rackOf, Rack.push, hq]
    | prod q => by_cases hq : q = p <;> simp [rackOf, Rack.push, hq]
  · by_cases hz : z = (bc p).slabProd
    · subst hz
      by_cases he : e = (bc p).nBuffersProd <;>
        simp [rackOf, Rack.push, Bpool.storeEntry, Bpool.frame, he]
    · simp [rackOf, Rack.push, Bpool.storeEntry, Bpool.frame, hz]

theorem rackOf_pop (N : ℕ) (bp : Bpool) (bc : Fin P → Bcache) (p : Fin P) :
    rackOf N bp (update bc p { bc p with nBuffersCons := (bc p).nBuffersCons - 1 })
      = (rackOf N bp bc).pop (.cons p) := by
  ext z
  · cases z with
    | slab i => rfl
    | cons q => by_cases hq : q = p <;> simp [rackOf, Rack.pop, hq]
    | prod q => by_cases hq : q = p <;> simp [rackOf, Rack.pop, hq]
  · cases z with
    | slab i => simp [rackOf, Rack.pop]
    | cons q => by_cases hq : q = p <;> simp [rackOf, Rack.pop, hq]
    | prod q => by_cases hq : q = p <;> simp [rackOf, Rack.pop, hq]
  · rfl

/-! ### The pool operations keep the pool well formed -/

/-- The pool and the caches own disjoint slabs, filled within their bounds. -/
structure PoolOk (params : BpoolParams) (N : ℕ) (bp : Bpool) (bc : Fin P → Bcache) : Prop where
  params_eq : bp.params = params
  proper : (rackOf N bp bc).Proper
  slabs_le : N ≤ bp.nSlabs
  avail_le : bp.nSlabsAvailable ≤ N
  cons_le : ∀ p, (bc p).nBuffersCons ≤ params.nBuffersPerSlab
  prod_le : ∀ p, (bc p).nBuffersProd ≤ params.nBuffersPerSlab

variable {params : BpoolParams}

theorem forall_update {C : Bcache → Prop} (h : ∀ q, C (bc q)) (hb : C b') (q : Fin P) :
    C (update bc p b' q) := by
  by_cases hq : q = p
  · subst hq; rwa [update_self]
  · rw [update_of_ne hq]; exact h q

theorem cons_le_update {B : ℕ} (h : ∀ q, (bc q).nBuffersCons ≤ B) (hb : b'.nBuffersCons ≤ B)
    (q : Fin P) : (update bc p b' q).nBuffersCons ≤ B :=
  forall_update (C := fun b => b.nBuffersCons ≤ B) h hb q

theorem prod_le_update {B : ℕ} (h : ∀ q, (bc q).nBuffersProd ≤ B) (hb : b'.nBuffersProd ≤ B)
    (q : Fin P) : (update bc p b' q).nBuffersProd ≤ B :=
  forall_update (C := fun b => b.nBuffersProd ≤ B) h hb q

/-- What is granted is in the cache, up to a slab: after a trade the whole request is granted. -/
theorem bcacheConsCheck_spec (h : PoolOk params N bp bc) (p : Fin P) (k : ℕ) :
    ∃ n bp' b', bcacheConsCheck bp (bc p) k = .ok (n, bp', b') ∧
      PoolOk params N bp' (update bc p b') ∧
      (n ≤ b'.nBuffersCons ∨ b'.nBuffersCons = params.nBuffersPerSlab) ∧
      (rackOf N bp' (update bc p b')).stock = (rackOf N bp bc).stock := by
  have hpar := h.params_eq
  unfold bcacheConsCheck
  by_cases hc : (bc p).nBuffersCons = 0
  · rw [if_neg (not_not.2 hc)]
    by_cases h0 : bp.nSlabsAvailable = 0
    · rw [if_pos h0]
      refine ⟨0, bp, bc p, rfl, ?_, .inl (Nat.zero_le _), ?_⟩
      · rwa [update_eq_self]
      · rw [update_eq_self]
    · have hbound : ¬ bp.nSlabs < bp.nSlabsAvailable := by
        have := h.slabs_le; have := h.avail_le; omega
      have htrade := rackOf_tradeCons (p := p) (by omega : 0 < bp.nSlabsAvailable) h.avail_le hc
      rw [if_neg h0, if_neg hbound]
      refine ⟨k, _, _, rfl, ⟨hpar, ?_, h.slabs_le, ?_, ?_, ?_⟩, ?_, ?_⟩
      · rw [htrade]; exact h.proper.exchange _ _
      · exact (Nat.sub_le _ _).trans h.avail_le
      · exact cons_le_update h.cons_le (by rw [hpar])
      · exact prod_le_update h.prod_le (h.prod_le p)
      · exact .inr (by rw [hpar])
      · rw [htrade, Rack.stock_exchange]
  · rw [if_pos hc]
    refine ⟨_, bp, bc p, rfl, ?_, ?_, ?_⟩
    · rwa [update_eq_self]
    · left
      split <;> omega
    · rw [update_eq_self]

theorem bcacheCons_spec (h : PoolOk params N bp bc) (hc : 0 < (bc p).nBuffersCons) :
    ∃ a b', bcacheCons bp (bc p) = .ok (a, b') ∧ PoolOk params N bp (update bc p b') ∧
      b'.nBuffersCons = (bc p).nBuffersCons - 1 ∧
      bp.frame a ::ₘ (rackOf N bp (update bc p b')).stock = (rackOf N bp bc).stock := by
  have hpop := rackOf_pop N bp bc p
  rw [bcacheCons, if_neg (by omega)]
  refine ⟨_, _, rfl, ⟨h.params_eq, ?_, h.slabs_le, h.avail_le, ?_, ?_⟩, rfl, ?_⟩
  · rw [hpop]; exact h.proper
  · exact cons_le_update h.cons_le ((Nat.sub_le _ _).trans (h.cons_le p))
  · exact prod_le_update h.prod_le (h.prod_le p)
  · rw [hpop]
    exact Rack.stock_pop (rackOf N bp bc) (x := .cons p) hc

theorem fillAddrs_spec (h : PoolOk params N bp bc) {k : ℕ} (hk : k ≤ (bc p).nBuffersCons) :
    ∃ fresh b', fillAddrs bp k (bc p) = .ok (fresh, b') ∧ PoolOk params N bp (update bc p b') ∧
      fresh.length = k ∧
      (fresh.map bp.frame : Multiset ℕ) + (rackOf N bp (update bc p b')).stock
        = (rackOf N bp bc).stock := by
  induction k generalizing bc with
  | zero => exact ⟨[], bc p, rfl, by rwa [update_eq_self], rfl, by simp⟩
  | succ k ih =>
    obtain ⟨a, b', hcons, hok, hn, hstock⟩ := bcacheCons_spec (p := p) h (by omega)
    obtain ⟨fresh, b'', hfill, hok', hlen, hstock'⟩ :=
      ih hok (by rw [update_self, hn]; omega)
    rw [update_self] at hfill
    rw [update_idem] at hok' hstock'
    refine ⟨a :: fresh, b'', ?_, hok', by simp [hlen], ?_⟩
    · rw [fillAddrs, hcons]; simp only [hfill]
    · rw [← hstock, ← hstock', List.map_cons, ← Multiset.cons_coe, Multiset.cons_add]

theorem bcacheProd_spec (h : PoolOk params N bp bc) (hB : 0 < params.nBuffersPerSlab) (a : ℕ)
    (hroom : (bc p).nBuffersProd = params.nBuffersPerSlab → bp.nSlabsAvailable < N) :
    ∃ bp' b', bcacheProd bp (bc p) a = .ok (bp', b') ∧ PoolOk params N bp' (update bc p b') ∧
      (rackOf N bp' (update bc p b')).stock = bp.frame a ::ₘ (rackOf N bp bc).stock := by
  have hpar := h.params_eq
  unfold bcacheProd
  by_cases hfull : (bc p).nBuffersProd < bp.params.nBuffersPerSlab
  · have hpush := rackOf_push N bp bc p a
    rw [if_pos hfull]
    refine ⟨_, _, rfl, ⟨hpar, ?_, h.slabs_le, h.avail_le, ?_, ?_⟩, ?_⟩
    · rw [hpush]; exact h.proper
    · exact cons_le_update h.cons_le (h.cons_le p)
    · exact prod_le_update h.prod_le (by rw [← hpar]; exact hfull)
    · rw [hpush, Rack.stock_push h.proper]
  · have hp : (bc p).nBuffersProd = bp.params.nBuffersPerSlab := by
      have := h.prod_le p; rw [← hpar] at this; omega
    have hN := hroom (hp.trans (by rw [hpar]))
    have hs : bp.nSlabsAvailable < bp.nSlabs := by have := h.slabs_le; omega
    -- the trade leaves an empty producer slab, and the store is a push on it
    have htrade := rackOf_tradeProd hN hp
    have hpush := rackOf_push N
      { bp with
        slabs := update bp.slabs bp.nSlabsAvailable (bc p).slabProd
        nSlabsAvailable := bp.nSlabsAvailable + 1 }
      (update bc p { bc p with
        slabProd := bp.slabs bp.nSlabsAvailable
        nBuffersProd := 0 }) p a
    rw [htrade] at hpush
    simp only [update_self, update_idem, Nat.zero_add] at hpush
    rw [if_neg hfull, if_pos hs]
    refine ⟨_, _, rfl, ⟨hpar, ?_, h.slabs_le, ?_, ?_, ?_⟩, ?_⟩
    · rw [hpush]; exact h.proper.exchange _ _
    · exact hN
    · exact cons_le_update h.cons_le (h.cons_le p)
    · exact prod_le_update h.prod_le hB
    · rw [hpush, Rack.stock_push (h.proper.exchange _ _), Rack.stock_exchange]
      rfl

/-! ### Counting -/

/-- The stations whose frames stand in for the fill ring: a port always has `fill_size` of them. -/
def Station.rxSide : Station → Bool
  | .umemFq | .kernelRx | .rxq => true
  | _ => false

def Box.rxSide : Box P Q → Bool
  | .port st _ => st.rxSide
  | .queue _ => false

/-- The number of frames of a port in the fill ring, the kernel's receive side and the RX ring. -/
def rxCount (held : Box P Q → List ℕ) (p : Fin P) : ℕ :=
  (held (.port .umemFq p)).length + (held (.port .kernelRx p)).length +
    (held (.port .rxq p)).length

theorem sum_poolPlace (f : PoolPlace N P → ℕ) :
    ∑ x, f x = ∑ i, f (.slab i) + (∑ p, f (.cons p) + ∑ p, f (.prod p)) := by
  let e : PoolPlace N P ≃ Fin N ⊕ (Fin P ⊕ Fin P) :=
    { toFun
        | .slab i => .inl i
        | .cons p => .inr (.inl p)
        | .prod p => .inr (.inr p)
      invFun
        | .inl i => .slab i
        | .inr (.inl p) => .cons p
        | .inr (.inr p) => .prod p
      left_inv := by rintro (_ | _ | _) <;> rfl
      right_inv := by rintro (_ | _ | _) <;> rfl }
  rw [← Equiv.sum_comp e.symm f, Fintype.sum_sum_type, Fintype.sum_sum_type]
  rfl

theorem sum_box (f : Box P Q → ℕ) :
    ∑ b, f b = ∑ p, ∑ st, f (.port st p) + ∑ q, f (.queue q) := by
  let e : Box P Q ≃ (Fin P × Station) ⊕ Fin Q :=
    { toFun
        | .port st p => .inl (p, st)
        | .queue q => .inr q
      invFun
        | .inl (p, st) => .port st p
        | .inr q => .queue q
      left_inv := by rintro (_ | _) <;> rfl
      right_inv := by rintro (⟨_, _⟩ | _) <;> rfl }
  rw [← Equiv.sum_comp e.symm f, Fintype.sum_sum_type, Fintype.sum_prod_type]
  rfl

theorem sum_station (f : Station → ℕ) :
    ∑ st, f st = f .umemFq + f .kernelRx + f .rxq +
      (f .burst + f .collector + f .txq + f .kernelTx + f .umemCq) := by
  have h : (Finset.univ : Finset Station) =
      {.umemFq, .kernelRx, .rxq, .burst, .collector, .txq, .kernelTx, .umemCq} := rfl
  rw [h]
  simp only [Finset.sum_insert, Finset.mem_insert, Finset.mem_singleton, reduceCtorEq, or_self,
    not_false_eq_true, Finset.sum_singleton]
  omega

theorem sum_slab_level (B : ℕ) {n : ℕ} (h : n ≤ N) :
    ∑ i : Fin N, (if (i : ℕ) < n then B else 0) = n * B := by
  rw [Fin.sum_univ_eq_sum_range (fun i => if i < n then B else 0) N, ← Finset.sum_filter]
  have hf : (Finset.range N).filter (· < n) = Finset.range n := by
    ext i; simp only [Finset.mem_filter, Finset.mem_range]; omega
  rw [hf, Finset.sum_const, Finset.card_range, smul_eq_mul]

theorem le_card_stock (h : PoolOk params N bp bc) (p : Fin P) :
    bp.nSlabsAvailable * params.nBuffersPerSlab + (bc p).nBuffersProd
      ≤ Multiset.card (rackOf N bp bc).stock := by
  rw [Rack.card_stock, sum_poolPlace]
  have hslab : ∑ i : Fin N, (rackOf N bp bc).level (.slab i)
      = bp.nSlabsAvailable * params.nBuffersPerSlab := by
    rw [← h.params_eq]; exact sum_slab_level _ h.avail_le
  have hprod : (bc p).nBuffersProd ≤ ∑ q, (rackOf N bp bc).level (.prod q) :=
    Finset.single_le_sum (f := fun q => (bc q).nBuffersProd) (fun _ _ => Nat.zero_le _)
      (Finset.mem_univ p)
  omega

theorem card_total {α : Type*} (held : Box P Q → List α) :
    Multiset.card (total held) = ∑ b, (held b).length := by
  simp [total, Multiset.card_sum]

/-- The frames outside the pool: `fill_size` for each port, and those of any other list. -/
theorem le_sum_length {held : Box P Q → List ℕ} {F : ℕ} (h : ∀ p, rxCount held p = F)
    {x : Box P Q} (hx : x.rxSide = false) :
    P * F + (held x).length ≤ ∑ b, (held b).length := by
  have hconst : ∑ _p : Fin P, F = P * F := by simp
  rw [sum_box, ← hconst]
  simp only [sum_station]
  cases x with
  | queue q =>
    refine Nat.add_le_add (Finset.sum_le_sum fun p _ => ?_)
      (Finset.single_le_sum (f := fun q => (held (.queue q)).length) (fun _ _ => Nat.zero_le _)
        (Finset.mem_univ q))
    have := h p
    unfold rxCount at this
    omega
  | port st p =>
    refine Nat.le_add_right_of_le ?_
    have hone : (held (.port st p)).length
        = ∑ p', if p' = p then (held (.port st p)).length else 0 := by simp
    rw [hone, ← Finset.sum_add_distrib]
    refine Finset.sum_le_sum fun p' _ => ?_
    have hp' := h p'
    unfold rxCount at hp'
    by_cases hpp : p' = p
    · subst hpp
      rw [if_pos rfl]
      cases st <;> first | omega | exact absurd hx (by simp [Box.rxSide, Station.rxSide])
    · rw [if_neg hpp]
      omega

/-! ### The invariant -/

/-- All frames of the node, in the pool and outside it. -/
def PoolNode.circulating (N : ℕ) (s : PoolNode P Q) : Multiset ℕ :=
  (rackOf N s.bp s.bc).stock + total (List.map s.bp.frame ∘ s.held)

/-- The invariant of the runs: `N` slab positions belong to the pool, every port has `fill_size`
frames on its receive side, and what circulates is `M`. -/
structure PoolInv (params : BpoolParams) (N : ℕ) (M : Multiset ℕ) (s : PoolNode P Q) : Prop where
  pool : PoolOk params N s.bp s.bc
  rx : ∀ p, rxCount s.held p = params.fillSize
  circ : s.circulating N = M

variable {M : Multiset ℕ} {s : PoolNode P Q}

theorem Bpool.frame_congr (h : bp'.params = bp.params) : bp'.frame = bp.frame := by
  unfold Bpool.frame; rw [h]

/-- A frame outside the receive side leaves room in the pool: when a producer slab is full, an
empty slab is left. -/
theorem PoolInv.room (h : PoolInv params N M s)
    (hM : Multiset.card M ≤
      N * params.nBuffersPerSlab + P * params.fillSize + params.nBuffersPerSlab)
    {x : Box P Q} (hx : x.rxSide = false) (hne : s.held x ≠ []) {p : Fin P}
    (hfull : (s.bc p).nBuffersProd = params.nBuffersPerSlab) : s.bp.nSlabsAvailable < N := by
  have hstock := le_card_stock h.pool p
  have htotal := le_sum_length h.rx hx
  have hpos := List.length_pos_iff.2 hne
  rw [← h.circ, PoolNode.circulating, Multiset.card_add,
    card_total] at hM
  simp only [comp_apply, List.length_map] at hM
  rw [hfull] at hstock
  have hlt : s.bp.nSlabsAvailable * params.nBuffersPerSlab < N * params.nBuffersPerSlab := by
    omega
  exact Nat.lt_of_mul_lt_mul_right hlt

theorem rxCount_update {held : Box P Q → List ℕ} {x : Box P Q} (hx : x.rxSide = false)
    (l : List ℕ) (p : Fin P) : rxCount (update held x l) p = rxCount held p := by
  have hne : ∀ st : Station, st.rxSide = true → Box.port st p ≠ x := by
    rintro st hst rfl
    exact absurd hx (by simp [Box.rxSide, hst])
  unfold rxCount
  rw [update_of_ne (hne _ rfl), update_of_ne (hne _ rfl), update_of_ne (hne _ rfl)]

theorem shift_map (f : ℕ → ℕ) (held : Box P Q → List ℕ) (x y : Box P Q) (k : ℕ) :
    List.map f ∘ shift held x y k = shift (List.map f ∘ held) x y k := by
  simp only [shift, comp_update, comp_apply, List.map_append, List.map_take, List.map_drop]

/-- Moving frames between two lists outside the receive sides. -/
theorem rxCount_shift {held : Box P Q → List ℕ} {x y : Box P Q} (hx : x.rxSide = false)
    (hy : y.rxSide = false) (k : ℕ) (p : Fin P) :
    rxCount (shift held x y k) p = rxCount held p := by
  rw [shift, rxCount_update hy, rxCount_update hx]

theorem rxCount_kernelFill (held : Box P Q → List ℕ) (p q : Fin P) :
    rxCount (shift held (.port .umemFq p) (.port .kernelRx p) 1) q = rxCount held q := by
  by_cases hq : q = p
  · subst hq
    cases hf : held (.port .umemFq q) with
    | nil => simp [shift, rxCount, hf]
    | cons a l => simp [shift, rxCount, hf]; omega
  · simp [shift, rxCount, hq]

theorem rxCount_kernelRx {held : Box P Q → List ℕ} {p : Fin P} {a : ℕ} {rest : List ℕ}
    (ha : held (.port .kernelRx p) = a :: rest) (addr : ℕ) (q : Fin P) :
    rxCount (update (update held (.port .kernelRx p) rest) (.port .rxq p)
      (held (.port .rxq p) ++ [addr])) q = rxCount held q := by
  by_cases hq : q = p
  · subst hq
    simp [rxCount, ha]; omega
  · simp [rxCount, hq]

/-- A burst takes `k` frames out of the RX ring and puts as many on the fill ring. -/
theorem rxCount_rxBurst {held : Box P Q → List ℕ} {p : Fin P} {k : ℕ} {fresh : List ℕ}
    (hk : k ≤ (held (.port .rxq p)).length) (hlen : fresh.length = k) (q : Fin P) :
    rxCount (update (shift held (.port .rxq p) (.port .burst p) k) (.port .umemFq p)
      (shift held (.port .rxq p) (.port .burst p) k (.port .umemFq p) ++ fresh)) q =
        rxCount held q := by
  by_cases hq : q = p
  · subst hq; simp [rxCount, shift, hlen]; omega
  · simp [rxCount, shift, hq]

theorem PoolInv.move (h : PoolInv params N M s) {x y : Box P Q} (hxy : x ≠ y)
    (hx : x.rxSide = false) (hy : y.rxSide = false) (k : ℕ) :
    PoolInv params N M (s.move x y k) where
  pool := h.pool
  rx p := by rw [PoolNode.move, rxCount_shift hx hy, h.rx]
  circ := by
    rw [← h.circ, PoolNode.circulating, PoolNode.circulating, PoolNode.move, shift_map,
      total_shift _ _ hxy]

/-- The kernel takes a fill-ring entry. -/
theorem PoolInv.kernelFill (h : PoolInv params N M s) (p : Fin P) :
    PoolInv params N M (s.move (.port .umemFq p) (.port .kernelRx p) 1) where
  pool := h.pool
  rx q := by rw [PoolNode.move, rxCount_kernelFill, h.rx]
  circ := by
    rw [← h.circ, PoolNode.circulating, PoolNode.circulating, PoolNode.move, shift_map,
      total_shift _ _ (by simp)]

/-- The kernel posts a frame it had taken, at an address inside the same chunk. -/
theorem PoolInv.kernelRx (h : PoolInv params N M s) {p : Fin P} {addr a : ℕ} {rest : List ℕ}
    (ha : s.held (.port .kernelRx p) = a :: rest) (hframe : s.bp.frame addr = s.bp.frame a) :
    PoolInv params N M ⟨s.bp, s.bc, update (update s.held (.port .kernelRx p) rest) (.port .rxq p)
      (s.held (.port .rxq p) ++ [addr])⟩ where
  pool := h.pool
  rx q := by rw [rxCount_kernelRx ha, h.rx]
  circ := by
    -- on frames it is the move of one item
    have hshift : List.map s.bp.frame ∘ update (update s.held (.port .kernelRx p) rest)
        (.port .rxq p) (s.held (.port .rxq p) ++ [addr])
          = shift (List.map s.bp.frame ∘ s.held) (.port .kernelRx p) (.port .rxq p) 1 := by
      simp [shift, comp_update, ha, hframe]
    rw [← h.circ, PoolNode.circulating, PoolNode.circulating, hshift, total_shift _ _ (by simp)]

/-- One frame from a list outside the receive sides goes into the cache of a port. -/
theorem PoolInv.bcacheProd (h : PoolInv params N M s) (hB : 0 < params.nBuffersPerSlab)
    (hM : Multiset.card M ≤
      N * params.nBuffersPerSlab + P * params.fillSize + params.nBuffersPerSlab)
    {x : Box P Q} (hx : x.rxSide = false) {a : ℕ} {rest : List ℕ} (ha : s.held x = a :: rest)
    (p : Fin P) :
    ∃ bp' b', bcacheProd s.bp (s.bc p) a = .ok (bp', b') ∧
      PoolInv params N M ⟨bp', update s.bc p b', update s.held x rest⟩ := by
  obtain ⟨bp', b', hprod, hok, hstock⟩ := bcacheProd_spec h.pool hB a fun hfull =>
    h.room hM hx (by rw [ha]; simp) hfull
  refine ⟨bp', b', hprod, hok, fun q => by rw [rxCount_update hx, h.rx], ?_⟩
  have hframe : bp'.frame = s.bp.frame :=
    Bpool.frame_congr (hok.params_eq.trans h.pool.params_eq.symm)
  have hout := total_update (List.map s.bp.frame ∘ s.held) x (rest.map s.bp.frame)
  rw [comp_apply, ha, List.map_cons, ← Multiset.cons_coe, ← Multiset.singleton_add,
    ← add_assoc] at hout
  rw [← h.circ, PoolNode.circulating, PoolNode.circulating, hstock, hframe, comp_update,
    ← Multiset.singleton_add, add_comm {_}, add_assoc, add_comm {_}, add_right_cancel hout]

/-- `bcache_prod` of the first `k` frames of a list succeeds and keeps the invariant. -/
theorem PoolInv.recycle (h : PoolInv params N M s) (hB : 0 < params.nBuffersPerSlab)
    (hM : Multiset.card M ≤
      N * params.nBuffersPerSlab + P * params.fillSize + params.nBuffersPerSlab)
    {x : Box P Q} (hx : x.rxSide = false) (p : Fin P) {k : ℕ} (hk : k ≤ (s.held x).length) :
    ∃ t, s.recycle x p k = .ok (some t) ∧ PoolInv params N M t := by
  induction k generalizing s with
  | zero =>
    refine ⟨s, ?_, h⟩
    simp only [PoolNode.recycle, List.take_zero, bcacheProdAll, List.drop_zero, update_eq_self]
  | succ k ih =>
    obtain ⟨a, rest, ha⟩ : ∃ a rest, s.held x = a :: rest := by
      cases hc : s.held x with
      | nil => rw [hc] at hk; exact absurd hk (by simp)
      | cons a rest => exact ⟨a, rest, rfl⟩
    obtain ⟨bp', b', hprod, hinv⟩ := h.bcacheProd hB hM hx ha p
    obtain ⟨t, ht, hinv'⟩ := ih hinv (by simpa [ha] using hk)
    refine ⟨t, ?_, hinv'⟩
    rw [← ht, PoolNode.recycle, PoolNode.recycle]
    simp only [ha, List.take_succ_cons, bcacheProdAll, hprod, update_self, List.drop_succ_cons,
      update_idem]

/-- A receive burst: the frames taken from the cache replace those taken from the RX ring. -/
theorem PoolInv.rxBurst (h : PoolInv params N M s) (hF : params.fillSize ≤ params.nBuffersPerSlab)
    {p : Fin P} {k : ℕ} (hk : k ≤ (s.held (.port .rxq p)).length) :
    ∃ r, portRxBurst s.bp (s.bc p) k = .ok r ∧ ∀ fresh bp' b', r = some (fresh, bp', b') →
      PoolInv params N M ⟨bp', update s.bc p b',
        update (shift s.held (.port .rxq p) (.port .burst p) k) (.port .umemFq p)
          (shift s.held (.port .rxq p) (.port .burst p) k (.port .umemFq p) ++ fresh)⟩ := by
  obtain ⟨n, bp', b', hcheck, hok, hn, hstock⟩ := bcacheConsCheck_spec h.pool p maxBurstRx
  -- the RX ring never holds more than a slab
  have hkB : k ≤ params.nBuffersPerSlab := by
    have hrx := h.rx p
    unfold rxCount at hrx
    omega
  unfold portRxBurst
  simp only [hcheck]
  by_cases hkn : n < k
  · exact ⟨none, by rw [if_pos hkn], by simp⟩
  · rw [if_neg hkn]
    obtain ⟨fresh, b'', hfill, hok', hlen, hstock'⟩ :=
      fillAddrs_spec (p := p) hok (k := k) (by rw [update_self]; omega)
    rw [update_self] at hfill
    rw [update_idem] at hok' hstock'
    rw [hfill]
    refine ⟨_, rfl, ?_⟩
    rintro _ _ _ ⟨⟩
    have hframe : bp'.frame = s.bp.frame :=
      Bpool.frame_congr (hok.params_eq.trans h.pool.params_eq.symm)
    refine ⟨hok', fun q => ?_, ?_⟩
    · rw [← h.rx q]
      exact rxCount_rxBurst hk hlen q
    · have hfq := total_update
        (List.map s.bp.frame ∘ shift s.held (.port .rxq p) (.port .burst p) k) (.port .umemFq p)
        ((shift s.held (.port .rxq p) (.port .burst p) k (.port .umemFq p) ++ fresh).map s.bp.frame)
      rw [List.map_append, ← Multiset.coe_add, add_comm (Multiset.ofList _), ← add_assoc,
        comp_apply] at hfq
      rw [← h.circ, PoolNode.circulating, PoolNode.circulating, hframe, comp_update,
        List.map_append, add_right_cancel hfq, shift_map, total_shift _ _ (by simp), ← hstock,
        ← hstock', hframe]
      abel

/-- **No action faults, and every action keeps the invariant.** -/
theorem PoolInv.step (h : PoolInv params N M s) (hB0 : 0 < params.nBuffersPerSlab)
    (hF : params.fillSize ≤ params.nBuffersPerSlab)
    (hM : Multiset.card M ≤
      N * params.nBuffersPerSlab + P * params.fillSize + params.nBuffersPerSlab)
    (txSize : ℕ) (a : PoolAct P Q) :
    ∃ r, s.step txSize a = .ok r ∧ ∀ t, r = some t → PoolInv params N M t := by
  have hnone : ∀ t, (none : Option (PoolNode P Q)) = some t → PoolInv params N M t := by simp
  have hsome : ∀ {u : PoolNode P Q}, PoolInv params N M u →
      ∀ t, some u = some t → PoolInv params N M t := by rintro u hu t ⟨⟩; exact hu
  cases a with
  | rxBurst p k =>
    simp only [PoolNode.step]
    split
    · rename_i hg
      obtain ⟨r, hr, hinv⟩ := h.rxBurst hF hg.2.1
      rw [hr]
      rcases r with _ | ⟨fresh, bp', b'⟩
      · exact ⟨none, rfl, hnone⟩
      · exact ⟨_, rfl, hsome (hinv _ _ _ rfl)⟩
    · exact ⟨none, rfl, hnone⟩
  | push p q =>
    simp only [PoolNode.step]
    split
    · exact ⟨_, rfl, hsome (h.move (by simp) rfl rfl 1)⟩
    · exact ⟨none, rfl, hnone⟩
  | drop p q =>
    simp only [PoolNode.step]
    split
    · rename_i hg
      obtain ⟨t, ht, hinv⟩ := h.recycle hB0 hM (x := .port .burst p) rfl p
        (k := 1) (List.length_pos_iff.2 hg.1)
      exact ⟨_, ht, hsome hinv⟩
    · exact ⟨none, rfl, hnone⟩
  | pull q p =>
    simp only [PoolNode.step]
    split
    · exact ⟨_, rfl, hsome (h.move (by simp) rfl rfl 1)⟩
    · exact ⟨none, rfl, hnone⟩
  | drain p k =>
    simp only [PoolNode.step]
    split
    · rename_i hg
      obtain ⟨t, ht, hinv⟩ := h.recycle hB0 hM (x := .port .umemCq p) rfl p hg.1
      exact ⟨_, ht, hsome hinv⟩
    · exact ⟨none, rfl, hnone⟩
  | submit p =>
    simp only [PoolNode.step]
    split
    · exact ⟨_, rfl, hsome (h.move (by simp) rfl rfl _)⟩
    · exact ⟨none, rfl, hnone⟩
  | kernelFill p => exact ⟨_, rfl, hsome (h.kernelFill p)⟩
  | kernelRx p addr =>
    simp only [PoolNode.step]
    split
    · exact ⟨none, rfl, hnone⟩
    · rename_i a rest ha
      split
      · rename_i hframe
        refine ⟨_, rfl, hsome ?_⟩
        have := h.kernelRx ha hframe
        rwa [update_of_ne (by simp)]
      · exact ⟨none, rfl, hnone⟩
  | kernelTx p =>
    simp only [PoolNode.step]
    split
    · exact ⟨_, rfl, hsome (h.move (by simp) rfl rfl 1)⟩
    · exact ⟨none, rfl, hnone⟩
  | kernelComplete p => exact ⟨_, rfl, hsome (h.move (by simp) rfl rfl 1)⟩

/-! ### The state after the set-up -/

section Start

variable {ports : ℕ → PortInit} {sockOk : ℕ → Bool} (hfresh : bp.Fresh)
  (h2P : 2 * P ≤ bp.nSlabs) (hF : bp.params.fillSize ≤ bp.params.nBuffersPerSlab)
  (hinit : initPorts bp sockOk P = .ok (bp', some ports))

include hfresh

theorem Bpool.Fresh.frame_buffers (s e : ℕ) :
    bp.frame (bp.buffers s e) = s * bp.params.nBuffersPerSlab + e := by
  rw [hfresh.buffers_eq, Bpool.frame, Nat.mul_div_cancel _ hfresh.size_pos]

include h2P hF hinit

theorem start_bp : bp' = { bp with nSlabsAvailable := bp.nSlabs - 2 * P } := by
  have h := (initPorts_eq (by rw [hfresh.avail_eq]; exact h2P) hfresh.avail_eq.le
    hfresh.perSlab_pos hF hinit).1
  rwa [hfresh.avail_eq] at h

theorem start_port (p : Fin P) : ports p =
    { bc :=
        { slabCons := bp.nSlabs - 2 * p - 1
          slabProd := bp.nSlabs - 2 * p - 2
          nBuffersCons := bp.params.nBuffersPerSlab - bp.params.fillSize
          nBuffersProd := 0 }
      umemFq := (List.range bp.params.fillSize).map fun e =>
        bp.buffers (bp.nSlabs - 2 * p - 1) (bp.params.nBuffersPerSlab - 1 - e) } := by
  have h := (initPorts_eq (by rw [hfresh.avail_eq]; exact h2P) hfresh.avail_eq.le
    hfresh.perSlab_pos hF hinit).2 p p.2
  rw [h, portAt]
  simp only [hfresh.slabs_eq, hfresh.avail_eq]

theorem start_poolOk : PoolOk bp.params (bp.nSlabs - 2 * P) bp' fun p : Fin P => (ports p).bc := by
  have hport := start_port hfresh h2P hF hinit
  have hbp := start_bp hfresh h2P hF hinit
  refine ⟨by rw [hbp], ?_, by rw [hbp]; simp only; omega, by rw [hbp], ?_, ?_⟩
  · rintro (i | p | p) (j | q | q) h <;>
      simp only [rackOf, hport, hbp, hfresh.slabs_eq] at h <;>
      first
        | (simp only [PoolPlace.slab.injEq, PoolPlace.cons.injEq, PoolPlace.prod.injEq, Fin.ext_iff]
           omega)
        | (exfalso; omega)
  · intro p; rw [hport]; simp only; omega
  · intro p; rw [hport]; exact Nat.zero_le _

theorem start_contents (x : PoolPlace (bp.nSlabs - 2 * P) P) :
    (rackOf _ bp' fun p : Fin P => (ports p).bc).contents x =
      (List.range ((rackOf _ bp' fun p : Fin P => (ports p).bc).level x)).map
        ((rackOf _ bp' fun p : Fin P => (ports p).bc).tray x * bp.params.nBuffersPerSlab + ·) := by
  have hbp := start_bp hfresh h2P hF hinit
  refine List.map_congr_left fun e _ => ?_
  rw [← hfresh.frame_buffers, hbp]
  rfl

theorem mem_start_contents {x : PoolPlace (bp.nSlabs - 2 * P) P} {f : ℕ}
    (h : f ∈ (rackOf _ bp' fun p : Fin P => (ports p).bc).contents x) :
    f / bp.params.nBuffersPerSlab = (rackOf _ bp' fun p : Fin P => (ports p).bc).tray x ∧
      f % bp.params.nBuffersPerSlab < (rackOf _ bp' fun p : Fin P => (ports p).bc).level x := by
  have hB := hfresh.perSlab_pos
  have hok := start_poolOk hfresh h2P hF hinit
  have hle : (rackOf _ bp' fun p : Fin P => (ports p).bc).level x ≤ bp.params.nBuffersPerSlab := by
    cases x with
    | slab i => simp only [rackOf]; split <;> simp [hok.params_eq]
    | cons p => exact hok.cons_le p
    | prod p => exact hok.prod_le p
  rw [start_contents hfresh h2P hF hinit, List.mem_map] at h
  obtain ⟨e, he, rfl⟩ := h
  have he' := List.mem_range.1 he
  rw [Nat.mul_comm, Nat.mul_add_div hB, Nat.mul_add_mod, Nat.div_eq_of_lt (by omega),
    Nat.mod_eq_of_lt (by omega)]
  exact ⟨by omega, he'⟩

theorem mem_start_fill {p : Fin P} {f : ℕ} (h : f ∈ (ports p).umemFq.map bp.frame) :
    f / bp.params.nBuffersPerSlab = bp.nSlabs - 2 * p - 1 ∧
      bp.params.nBuffersPerSlab - bp.params.fillSize ≤ f % bp.params.nBuffersPerSlab := by
  have hB := hfresh.perSlab_pos
  rw [start_port hfresh h2P hF hinit, List.map_map, List.mem_map] at h
  obtain ⟨e, he, rfl⟩ := h
  have he' := List.mem_range.1 he
  rw [comp_apply, hfresh.frame_buffers, Nat.mul_comm, Nat.mul_add_div hB, Nat.mul_add_mod,
    Nat.div_eq_of_lt (by omega), Nat.mod_eq_of_lt (by omega)]
  omega

theorem nodup_start_fill (p : Fin P) : ((ports p).umemFq.map bp.frame).Nodup := by
  rw [start_port hfresh h2P hF hinit, List.map_map]
  refine List.Nodup.map_on ?_ List.nodup_range
  intro e he e' he' heq
  have := List.mem_range.1 he
  have := List.mem_range.1 he'
  simp only [comp_apply, hfresh.frame_buffers] at heq
  omega

theorem nodup_start_stock :
    (rackOf (bp.nSlabs - 2 * P) bp' fun p : Fin P => (ports p).bc).stock.Nodup := by
  refine nodup_sum (fun x => ?_) fun x y f hx hy => ?_
  · rw [start_contents hfresh h2P hF hinit, Multiset.coe_nodup]
    exact List.Nodup.map (fun a b hab => by simpa using hab) List.nodup_range
  · exact (start_poolOk hfresh h2P hF hinit).proper
      ((mem_start_contents hfresh h2P hF hinit hx).1.symm.trans
        (mem_start_contents hfresh h2P hF hinit hy).1)

/-- Every frame that circulates after the set-up does so once. -/
theorem nodup_start (Q : ℕ) :
    ((PoolNode.start Q bp' ports : PoolNode P Q).circulating (bp.nSlabs - 2 * P)).Nodup := by
  have hframe : bp'.frame = bp.frame :=
    Bpool.frame_congr (by rw [start_bp hfresh h2P hF hinit])
  have hcons : ∀ p : Fin P, (rackOf (bp.nSlabs - 2 * P) bp' fun p : Fin P => (ports p).bc).tray
      (.cons p) = bp.nSlabs - 2 * p - 1 := by
    intro p; simp only [rackOf, start_port hfresh h2P hF hinit]
  -- outside the pool only the fill rings hold frames
  have hbox : ∀ {b : Box P Q} {f : ℕ},
      f ∈ (List.map bp.frame ∘ (PoolNode.start Q bp' ports : PoolNode P Q).held) b →
        ∃ p, b = .port .umemFq p ∧ f ∈ (ports p).umemFq.map bp.frame := by
    intro b f hf
    rcases start_held bp' ports b with ⟨p, rfl, -⟩ | hnil
    · exact ⟨p, rfl, hf⟩
    · rw [comp_apply, hnil] at hf
      cases hf
  rw [PoolNode.circulating, Multiset.nodup_add]
  refine ⟨nodup_start_stock hfresh h2P hF hinit, nodup_sum (fun b => ?_) fun b b' f hb hb' => ?_,
    ?_⟩
  · rw [PoolNode.start, hframe]
    rcases start_held bp' ports b with ⟨p, rfl, -⟩ | hnil
    · exact nodup_start_fill hfresh h2P hF hinit p
    · show (Multiset.ofList (List.map bp.frame ((PoolNode.start Q bp' ports).held b))).Nodup
      rw [hnil]
      exact List.nodup_nil
  · rw [PoolNode.start, hframe] at hb hb'
    obtain ⟨p, rfl, hp⟩ := hbox hb
    obtain ⟨q, rfl, hq⟩ := hbox hb'
    have h1 := (mem_start_fill hfresh h2P hF hinit hp).1
    have h2 := (mem_start_fill hfresh h2P hF hinit hq).1
    have : p = q := by omega
    rw [this]
  · rw [Multiset.disjoint_left]
    intro f hstock htotal
    obtain ⟨x, -, hx⟩ := Multiset.mem_sum.1 hstock
    obtain ⟨b, -, hb⟩ := Multiset.mem_sum.1 htotal
    rw [PoolNode.start, hframe] at hb
    obtain ⟨p, rfl, hp⟩ := hbox hb
    obtain ⟨hdiv, hmod⟩ := mem_start_contents hfresh h2P hF hinit hx
    obtain ⟨hdiv', hmod'⟩ := mem_start_fill hfresh h2P hF hinit hp
    have hxp : x = .cons p := by
      refine (start_poolOk hfresh h2P hF hinit).proper ?_
      rw [← hdiv, hdiv', hcons]
    subst hxp
    simp only [rackOf, start_port hfresh h2P hF hinit] at hmod
    omega

theorem card_start (Q : ℕ) :
    Multiset.card ((PoolNode.start Q bp' ports : PoolNode P Q).circulating (bp.nSlabs - 2 * P)) =
      (bp.nSlabs - 2 * P) * bp.params.nBuffersPerSlab +
        P * (bp.params.nBuffersPerSlab - bp.params.fillSize) + P * bp.params.fillSize := by
  have hbp := start_bp hfresh h2P hF hinit
  have hport := start_port hfresh h2P hF hinit
  rw [PoolNode.circulating, Multiset.card_add, Rack.card_stock, card_total, sum_poolPlace, sum_box]
  simp only [sum_station, comp_apply, List.length_map]
  simp [rackOf, PoolNode.start, hport, hbp]

theorem start_inv (Q : ℕ) :
    PoolInv bp.params (bp.nSlabs - 2 * P)
      ((PoolNode.start Q bp' ports : PoolNode P Q).circulating (bp.nSlabs - 2 * P))
      (PoolNode.start Q bp' ports : PoolNode P Q) where
  pool := start_poolOk hfresh h2P hF hinit
  rx p := by simp [rxCount, PoolNode.start, start_port hfresh h2P hF hinit]
  circ := rfl

end Start

/-! ### No frame is lost or duplicated -/

/-- The places in use, as one index type. -/
def toPlace : PoolPlace N P ⊕ Box P Q → Place P Q
  | .inl (.slab i) => .slab i
  | .inl (.cons p) => .slabCons p
  | .inl (.prod p) => .slabProd p
  | .inr b => .box b

/-- What a place in use holds. -/
def PoolNode.family (N : ℕ) (s : PoolNode P Q) : PoolPlace N P ⊕ Box P Q → Multiset ℕ
  | .inl x => (rackOf N s.bp s.bc).contents x
  | .inr b => (s.held b).map s.bp.frame

theorem sum_family (N : ℕ) (s : PoolNode P Q) : ∑ z, s.family N z = s.circulating N := by
  rw [Fintype.sum_sum_type]; rfl

theorem family_eq_framesAt (s : PoolNode P Q) (z : PoolPlace N P ⊕ Box P Q) :
    s.family N z = (s.framesAt (toPlace z) : Multiset ℕ) := by
  rcases z with (i | p | p) | b
  · by_cases hi : (i : ℕ) < s.bp.nSlabsAvailable <;>
      simp [PoolNode.family, PoolNode.framesAt, toPlace, rackOf, Rack.contents, hi]
  · rfl
  · rfl
  · rfl

theorem exists_toPlace (hN : s.bp.nSlabsAvailable ≤ N) {y : Place P Q} {f : ℕ}
    (h : f ∈ s.framesAt y) : ∃ z : PoolPlace N P ⊕ Box P Q, toPlace z = y := by
  cases y with
  | slab i =>
    by_cases hi : i < s.bp.nSlabsAvailable
    · exact ⟨.inl (.slab ⟨i, by omega⟩), rfl⟩
    · simp [PoolNode.framesAt, hi] at h
  | slabCons p => exact ⟨.inl (.cons p), rfl⟩
  | slabProd p => exact ⟨.inl (.prod p), rfl⟩
  | box b => exact ⟨.inr b, rfl⟩

theorem mem_circulating (hN : s.bp.nSlabsAvailable ≤ N) {f : ℕ} :
    f ∈ s.circulating N ↔ ∃ y, f ∈ s.framesAt y := by
  rw [← sum_family, Multiset.mem_sum]
  constructor
  · rintro ⟨z, -, hz⟩
    exact ⟨toPlace z, by rwa [family_eq_framesAt] at hz⟩
  · rintro ⟨y, hy⟩
    obtain ⟨z, rfl⟩ := exists_toPlace hN hy
    exact ⟨z, Finset.mem_univ z, by rwa [family_eq_framesAt]⟩

/-- In a state of the invariant, what circulates is in one place. -/
theorem PoolInv.one_place (h : PoolInv params N M s) (hM : M.Nodup) {f : ℕ} (hf : f ∈ M) :
    ∃ x, (s.framesAt x).count f = 1 ∧ ∀ y, f ∈ s.framesAt y → y = x := by
  have hnodup : (∑ z, s.family N z).Nodup := by rw [sum_family, h.circ]; exact hM
  rw [← h.circ, ← sum_family, Multiset.mem_sum] at hf
  obtain ⟨z, -, hz⟩ := hf
  refine ⟨toPlace z, ?_, fun y hy => ?_⟩
  · have := count_eq_one_of_nodup_sum hnodup hz
    rwa [family_eq_framesAt, Multiset.coe_count] at this
  · obtain ⟨z', rfl⟩ := exists_toPlace h.pool.avail_le hy
    have hz' : f ∈ s.family N z' := by rwa [family_eq_framesAt]
    rw [unique_of_nodup_sum hnodup hz hz']

/-- The invariant holds after every run, for every sizing that leaves room: the part of the
consumer slabs that the fill rings do not take is at most one slab in all. -/
theorem PoolInv.run (h : PoolInv params N M s) (hB0 : 0 < params.nBuffersPerSlab)
    (hF : params.fillSize ≤ params.nBuffersPerSlab)
    (hM : Multiset.card M ≤
      N * params.nBuffersPerSlab + P * params.fillSize + params.nBuffersPerSlab)
    {txSize : ℕ} {as : List (PoolAct P Q)} {t : PoolNode P Q}
    (hrun : run (sound (PoolNode.step txSize)) s as = some t) : PoolInv params N M t := by
  refine run_invariant (PoolInv params N M) (fun u a v hu hv => ?_) h hrun
  obtain ⟨r, hr, hinv⟩ := hu.step hB0 hF hM txSize a
  rw [sound_eq_some, hr] at hv
  exact hinv v (Except.ok.inj hv)

/-- **No frame is lost or duplicated over whole runs, and no call leaves the pool's arrays.** -/
theorem frame_in_one_place {params : BpoolParams} {sysOk : Bool} {sockOk : ℕ → Bool}
    {bp bp' : Bpool} {ports : ℕ → PortInit} (hB : maxBurstRx ≤ params.nBuffersPerSlab)
    (hF : params.fillSize = params.nBuffersPerSlab)
    (hbp : bpoolInit params sysOk = .ok (some bp)) (h2P : 2 * P ≤ bp.nSlabs)
    (hports : initPorts bp sockOk P = .ok (bp', some ports))
    {txSize : ℕ} {as : List (PoolAct P Q)} {s : PoolNode P Q}
    (hrun : run (sound (PoolNode.step txSize)) (PoolNode.start Q bp' ports) as = some s) :
    (∀ f, (∃ y, f ∈ (PoolNode.start Q bp' ports : PoolNode P Q).framesAt y) →
      ∃ x, (s.framesAt x).count f = 1 ∧ ∀ y, f ∈ s.framesAt y → y = x) ∧
    ∀ a, ∃ r, s.step txSize a = .ok r := by
  obtain ⟨hfresh, hper, hfill⟩ := bpoolInit_fresh hbp
  rw [← hper] at hB hF
  rw [← hfill] at hF
  have hstart := start_inv hfresh h2P hF.le hports Q
  have hM : Multiset.card
      ((PoolNode.start Q bp' ports : PoolNode P Q).circulating (bp.nSlabs - 2 * P)) ≤
        (bp.nSlabs - 2 * P) * bp.params.nBuffersPerSlab + P * bp.params.fillSize +
          bp.params.nBuffersPerSlab := by
    rw [card_start hfresh h2P hF.le hports Q, hF, Nat.sub_self, Nat.mul_zero]
    omega
  have hB0 : 0 < bp.params.nBuffersPerSlab := lt_of_lt_of_le (by decide) hB
  have hinv := hstart.run hB0 hF.le hM hrun
  refine ⟨fun f hf => ?_, fun a => ?_⟩
  · exact hinv.one_place (nodup_start hfresh h2P hF.le hports Q)
      ((mem_circulating hstart.pool.avail_le).2 hf)
  · obtain ⟨r, hr, -⟩ := hinv.step hB0 hF.le hM txSize a
    exact ⟨r, hr⟩

/-- A frame's way through a node with one port and one queue: received, queued, sent, completed
and given back. -/
def roundTrip : List (PoolAct 1 1) :=
  [.kernelFill 0, .kernelRx 0 (99 * 4096 + 256), .rxBurst 0 1, .push 0 0, .pull 0 0, .drain 0 0,
    .submit 0, .kernelTx 0, .kernelComplete 0, .drain 0 1]

/-- The round trip in a pool of five slabs of twenty frames. -/
theorem frame_in_one_place_roundTrip :
    ∃ bp bp' ports, ∃ s : PoolNode 1 1,
      bpoolInit ⟨100, 4096, 20, 20, 20⟩ true = .ok (some bp) ∧
      initPorts bp (fun _ => true) 1 = .ok (bp', some ports) ∧
      run (sound (PoolNode.step 64)) (PoolNode.start 1 bp' ports) roundTrip = some s ∧
      (∀ f, (∃ y, f ∈ (PoolNode.start 1 bp' ports : PoolNode 1 1).framesAt y) →
        ∃ x, (s.framesAt x).count f = 1 ∧ ∀ y, f ∈ s.framesAt y → y = x) ∧
      ∀ a, ∃ r, s.step 64 a = .ok r := by
  have hB : maxBurstRx ≤ (BpoolParams.mk 100 4096 20 20 20).nBuffersPerSlab := by decide
  have h2P : 2 * 1 ≤ 5 := by decide
  refine ⟨_, _, _, _, rfl, rfl, rfl, ?_⟩
  exact frame_in_one_place hB rfl (rfl : bpoolInit ⟨100, 4096, 20, 20, 20⟩ true = _) h2P
    (rfl : initPorts _ (fun _ => true) 1 = _) (rfl : run _ _ roundTrip = _)

end RotorXdp
