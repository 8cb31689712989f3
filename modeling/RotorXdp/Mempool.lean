import RotorXdp.Structures
import Mathlib.Logic.Function.Basic

/-!
# The buffer pool

`mempool.h`: a pool of slabs of frame addresses shared by all ports, and for each port a cache
that owns a consumer and a producer slab. A slab pointer is the number of the slab it points to,
and `buffers s e` is entry `e` of slab `s`. An access outside `slabs` or a slab is a fault.

* `bcacheConsCheck`, `bcacheCons`, `bcacheProd`, `portRxBurst`: the operations of the data path;
* `bpoolInit`, `portInit`, `initPorts`: the set-up.
-/

namespace RotorXdp

open Function

/-- `struct bpool_params` with the two ring sizes of `struct xsk_umem_config`. -/
structure BpoolParams where
  nBuffers : ℕ
  bufferSize : ℕ
  nBuffersPerSlab : ℕ
  fillSize : ℕ
  compSize : ℕ

/-- `bpool_params_default` and `umem_cfg_default`. -/
def bpoolParamsDefault : BpoolParams where
  nBuffers := 128 * 1024
  bufferSize := 4096
  nBuffersPerSlab := 2048 * 2
  fillSize := 2048 * 2
  compSize := 2048

/-- `struct bpool`. -/
structure Bpool where
  params : BpoolParams
  slabs : ℕ → ℕ
  buffers : ℕ → ℕ → ℕ
  nSlabs : ℕ
  nSlabsAvailable : ℕ

/-- `struct bcache`. -/
structure Bcache where
  slabCons : ℕ
  slabProd : ℕ
  nBuffersCons : ℕ
  nBuffersProd : ℕ

/-- `slab[e] = buffer`. -/
def Bpool.storeEntry (bp : Bpool) (slab e buffer : ℕ) : Bpool :=
  { bp with buffers := update bp.buffers slab (update (bp.buffers slab) e buffer) }

@[simp] theorem Bpool.storeEntry_params (bp : Bpool) (slab e buffer : ℕ) :
    (bp.storeEntry slab e buffer).params = bp.params := rfl

@[simp] theorem Bpool.storeEntry_nSlabs (bp : Bpool) (slab e buffer : ℕ) :
    (bp.storeEntry slab e buffer).nSlabs = bp.nSlabs := rfl

@[simp] theorem Bpool.storeEntry_nSlabsAvailable (bp : Bpool) (slab e buffer : ℕ) :
    (bp.storeEntry slab e buffer).nSlabsAvailable = bp.nSlabsAvailable := rfl

/-! ### The data path -/

/-- `bcache_cons_check`: how many buffers may be taken from the cache. An empty consumer slab is
traded for the last full slab of the pool. -/
def bcacheConsCheck (bp : Bpool) (bc : Bcache) (nBuffers : ℕ) :
    Except Fault (ℕ × Bpool × Bcache) :=
  if bc.nBuffersCons ≠ 0 then
    .ok (if bc.nBuffersCons < nBuffers then bc.nBuffersCons else nBuffers, bp, bc)
  else if bp.nSlabsAvailable = 0 then .ok (0, bp, bc)
  else if bp.nSlabs < bp.nSlabsAvailable then .error .outOfBounds
  else
    let n := bp.nSlabsAvailable - 1
    .ok (nBuffers, { bp with slabs := update bp.slabs n bc.slabCons, nSlabsAvailable := n },
      { bc with slabCons := bp.slabs n, nBuffersCons := bp.params.nBuffersPerSlab })

/-- `bcache_cons`. -/
def bcacheCons (bp : Bpool) (bc : Bcache) : Except Fault (ℕ × Bcache) :=
  if bc.nBuffersCons = 0 then .error .outOfBounds
  else
    let n := bc.nBuffersCons - 1
    .ok (bp.buffers bc.slabCons n, { bc with nBuffersCons := n })

/-- `n` calls of `bcache_cons`, each result written to the next fill-ring entry. -/
def fillAddrs (bp : Bpool) : ℕ → Bcache → Except Fault (List ℕ × Bcache)
  | 0, bc => .ok ([], bc)
  | n + 1, bc =>
    match bcacheCons bp bc with
    | .error e => .error e
    | .ok (a, bc) =>
      match fillAddrs bp n bc with
      | .error e => .error e
      | .ok (as, bc) => .ok (a :: as, bc)

/-- `bcache_prod`: a full producer slab is traded for the empty slab that the pool is taken to
have at `slabs[n_slabs_available]`. -/
def bcacheProd (bp : Bpool) (bc : Bcache) (buffer : ℕ) : Except Fault (Bpool × Bcache) :=
  if bc.nBuffersProd < bp.params.nBuffersPerSlab then
    .ok (bp.storeEntry bc.slabProd bc.nBuffersProd buffer,
      { bc with nBuffersProd := bc.nBuffersProd + 1 })
  else if bp.nSlabsAvailable < bp.nSlabs then
    let slabEmpty := bp.slabs bp.nSlabsAvailable
    .ok ({ bp with
        slabs := update bp.slabs bp.nSlabsAvailable bc.slabProd
        nSlabsAvailable := bp.nSlabsAvailable + 1 }.storeEntry slabEmpty 0 buffer,
      { bc with slabProd := slabEmpty, nBuffersProd := 1 })
  else .error .outOfBounds

/-- `bcache_prod` on each of the addresses in turn. -/
def bcacheProdAll (bp : Bpool) (bc : Bcache) : List ℕ → Except Fault (Bpool × Bcache)
  | [] => .ok (bp, bc)
  | a :: as =>
    match bcacheProd bp bc a with
    | .error e => .error e
    | .ok (bp, bc) => bcacheProdAll bp bc as

/-- `port_rx_burst` on the pool's side, `k` being what the peek returned: the addresses put on the
fill ring. A peek returns at most what `bcache_cons_check` granted. -/
def portRxBurst (bp : Bpool) (bc : Bcache) (k : ℕ) :
    Except Fault (Option (List ℕ × Bpool × Bcache)) :=
  match bcacheConsCheck bp bc maxBurstRx with
  | .error e => .error e
  | .ok (n, bp, bc) =>
    if n < k then .ok none
    else match fillAddrs bp k bc with
      | .error e => .error e
      | .ok (fresh, bc) => .ok (some (fresh, bp, bc))

/-! ### Set-up -/

/-- `bpool_init`. `sysOk` says that `setrlimit`, `calloc`, `pthread_mutex_init`, `mmap` and
`xsk_umem__create` succeed; `mmap` refuses the length 0. The sum in the slab count is computed in
32 bits. -/
def bpoolInit (params : BpoolParams) (sysOk : Bool) : Except Fault (Option Bpool) :=
  if params.nBuffersPerSlab = 0 then .error .outOfBounds
  else
    let sum := (params.nBuffers + params.nBuffersPerSlab + 4294967295) % 4294967296
    let nSlabs := sum / params.nBuffersPerSlab
    let nBuffers := nSlabs * params.nBuffersPerSlab
    if nBuffers * params.bufferSize = 0 ∨ sysOk = false then .ok none
    else .ok <| some
      { params := { params with nBuffers := nBuffers }
        slabs := fun i => i
        buffers := fun s e => (s * params.nBuffersPerSlab + e) * params.bufferSize
        nSlabs := nSlabs
        nSlabsAvailable := nSlabs }

/-- `bcache_init`: the last two slabs of the pool become the cache's slabs, the last one full.
With a single slab left, `slabs[n_slabs_available - 2]` is outside the array. -/
def bcacheInit (bp : Bpool) : Except Fault (Bpool × Option Bcache) :=
  if bp.nSlabsAvailable = 0 then .ok (bp, none)
  else if bp.nSlabsAvailable = 1 ∨ bp.nSlabs < bp.nSlabsAvailable then .error .outOfBounds
  else
    let bc : Bcache :=
      { slabCons := bp.slabs (bp.nSlabsAvailable - 1)
        slabProd := bp.slabs (bp.nSlabsAvailable - 2)
        nBuffersCons := bp.params.nBuffersPerSlab
        nBuffersProd := 0 }
    .ok ({ bp with nSlabsAvailable := bp.nSlabsAvailable - 2 }, some bc)

/-- `bcache_free`, called by `port_free`. -/
def bcacheFree (bp : Bpool) : Option Bcache → Bpool
  | none => bp
  | some _ => { bp with nSlabsAvailable := bp.nSlabsAvailable + 2 }

/-- What `port_init` leaves in a port: its cache and the filled part of its fill ring. -/
structure PortInit where
  bc : Bcache
  umemFq : List ℕ

/-- `port_init`; `sockOk` says that the socket is created. -/
def portInit (bp : Bpool) (sockOk : Bool) : Except Fault (Bpool × Option PortInit) :=
  match bcacheInit bp with
  | .error e => .error e
  | .ok (bp, none) => .ok (bp, none)
  | .ok (bp, some bc) =>
    if bp.params.nBuffersPerSlab < bp.params.fillSize then .ok (bcacheFree bp (some bc), none)
    else match bcacheConsCheck bp bc bp.params.fillSize with
      | .error e => .error e
      | .ok (n, bp, bc) =>
        if n < bp.params.fillSize then .ok (bcacheFree bp (some bc), none)
        else if sockOk = false then .ok (bcacheFree bp (some bc), none)
        else match fillAddrs bp bp.params.fillSize bc with
          | .error e => .error e
          | .ok (umemFq, bc) => .ok (bp, some ⟨bc, umemFq⟩)

/-- The loop of `main` that sets up the first `n` ports; it gives up at the first failure. -/
def initPorts (bp : Bpool) (sockOk : ℕ → Bool) : ℕ → Except Fault (Bpool × Option (ℕ → PortInit))
  | 0 => .ok (bp, some fun _ => ⟨⟨0, 0, 0, 0⟩, []⟩)
  | i + 1 =>
    match initPorts bp sockOk i with
    | .error e => .error e
    | .ok (bp, none) => .ok (bp, none)
    | .ok (bp, some ports) =>
      match portInit bp (sockOk i) with
      | .error e => .error e
      | .ok (bp, none) => .ok (bp, none)
      | .ok (bp, some p) => .ok (bp, some (update ports i p))

end RotorXdp
