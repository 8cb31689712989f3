import RotorXdp.ProdRoom

/-!
# Can every port receive?

Frames that are given back stay in the producer slab until it is full, and a port that receives
nothing keeps a full consumer slab. In an idle node the frames outside the fill rings are all in
slabs, so a port whose consumer slab is empty and that finds the pool empty is stuck when the
`2 * P - 1` other slabs of the caches hold them all.

* `LevelInv`: how many frames the fill counts stand for, whatever slabs they are in;
* `port_can_receive`: no port is stuck when there are more frames than that;
* `default_pool_wedges`: the shipped pool with `MAX_PORTS` ports.
-/

namespace RotorXdp

open Function Runs Racks

variable {P Q : ℕ} {s u : PoolNode P Q} {params : BpoolParams} {T : ℕ}

/-! ### Counting by fill counts -/

/-- The fill counts of the pool and one cache are within their bounds. -/
structure CacheOk (bp : Bpool) (bc : Bcache) : Prop where
  pos : 0 < bp.params.nBuffersPerSlab
  avail_le : bp.nSlabsAvailable ≤ bp.nSlabs
  cons_le : bc.nBuffersCons ≤ bp.params.nBuffersPerSlab
  prod_le : bc.nBuffersProd ≤ bp.params.nBuffersPerSlab

/-- The frames in the pool and one cache, by their fill counts. -/
def cacheLevel (bp : Bpool) (bc : Bcache) : ℕ :=
  bp.nSlabsAvailable * bp.params.nBuffersPerSlab + (bc.nBuffersCons + bc.nBuffersProd)

/-- From `bp`, `bc` to `bp'`, `b'` the pool and the cache give `m` frames and get `n`. -/
structure CacheStep (bp : Bpool) (bc : Bcache) (bp' : Bpool) (b' : Bcache) (m n : ℕ) : Prop where
  params_eq : bp'.params = bp.params
  nSlabs_eq : bp'.nSlabs = bp.nSlabs
  ok : CacheOk bp bc → CacheOk bp' b'
  level : CacheOk bp bc → cacheLevel bp' b' + m = cacheLevel bp bc + n

variable {bp bp' bp'' : Bpool} {bc b' b'' : Bcache} {m n m' n' k : ℕ}

theorem CacheStep.refl (bp : Bpool) (bc : Bcache) : CacheStep bp bc bp bc 0 0 :=
  ⟨rfl, rfl, id, fun _ => rfl⟩

theorem CacheStep.trans (h : CacheStep bp bc bp' b' m n) (h' : CacheStep bp' b' bp'' b'' m' n') :
    CacheStep bp bc bp'' b'' (m + m') (n + n') where
  params_eq := h'.params_eq.trans h.params_eq
  nSlabs_eq := h'.nSlabs_eq.trans h.nSlabs_eq
  ok hok := h'.ok (h.ok hok)
  level hok := by
    have h1 := h.level hok
    have h2 := h'.level (h.ok hok)
    omega

theorem bcacheConsCheck_step {nBuffers : ℕ}
    (h : bcacheConsCheck bp bc nBuffers = .ok (n, bp', b')) : CacheStep bp bc bp' b' 0 0 := by
  unfold bcacheConsCheck at h
  by_cases hc : bc.nBuffersCons = 0
  · rw [if_neg (not_not.2 hc)] at h
    split at h
    · cases h; exact .refl bp bc
    · split at h
      · exact absurd h (by simp)
      · -- a full slab for the empty one
        rename_i h0 _
        cases h
        refine ⟨rfl, rfl, fun hok => ⟨hok.pos, ?_, Nat.le_refl _, hok.prod_le⟩, fun _ => ?_⟩
        · exact Nat.le_trans (Nat.sub_le _ _) hok.avail_le
        · simp only [cacheLevel, hc]
          rw [Nat.sub_mul, Nat.one_mul]
          have := Nat.le_mul_of_pos_left bp.params.nBuffersPerSlab (Nat.pos_of_ne_zero h0)
          omega
  · rw [if_pos hc] at h
    cases h
    exact .refl bp bc

theorem bcacheCons_step {a : ℕ} (h : bcacheCons bp bc = .ok (a, b')) :
    CacheStep bp bc bp b' 1 0 := by
  unfold bcacheCons at h
  split at h
  · exact absurd h (by simp)
  · rename_i hc
    cases h
    refine ⟨rfl, rfl, fun hok => ⟨hok.pos, hok.avail_le, ?_, hok.prod_le⟩, fun _ => ?_⟩
    · exact Nat.le_trans (Nat.sub_le _ _) hok.cons_le
    · simp only [cacheLevel]
      omega

theorem fillAddrs_step {fresh : List ℕ} (h : fillAddrs bp k bc = .ok (fresh, b')) :
    fresh.length = k ∧ CacheStep bp bc bp b' k 0 := by
  induction k generalizing bc fresh with
  | zero => cases h; exact ⟨rfl, .refl _ _⟩
  | succ k ih =>
    rw [fillAddrs] at h
    split at h
    · cases h
    · rename_i a b₁ hcons
      split at h
      · cases h
      · rename_i as b₂ hrest
        cases h
        obtain ⟨hlen, hstep⟩ := ih hrest
        refine ⟨by rw [List.length_cons, hlen], ?_⟩
        rw [Nat.add_comm]
        exact (bcacheCons_step hcons).trans hstep

theorem bcacheProd_step {a : ℕ} (h : bcacheProd bp bc a = .ok (bp', b')) :
    CacheStep bp bc bp' b' 0 1 := by
  unfold bcacheProd at h
  split at h
  · rename_i hlt
    cases h
    exact ⟨rfl, rfl, fun hok => ⟨hok.pos, hok.avail_le, hok.cons_le, hlt⟩, fun _ => rfl⟩
  · rename_i hfull
    split at h
    · -- the full slab goes to the pool
      rename_i hroom
      cases h
      refine ⟨rfl, rfl, fun hok => ⟨hok.pos, hroom, hok.cons_le, hok.pos⟩, fun hok => ?_⟩
      have hle := hok.prod_le
      simp only [cacheLevel, Bpool.storeEntry_params, Bpool.storeEntry_nSlabsAvailable]
      rw [Nat.add_mul, Nat.one_mul]
      omega
    · exact absurd h (by simp)

theorem bcacheProdAll_step {as : List ℕ} (h : bcacheProdAll bp bc as = .ok (bp', b')) :
    CacheStep bp bc bp' b' 0 as.length := by
  induction as generalizing bp bc with
  | nil => cases h; exact .refl _ _
  | cons a as ih =>
    rw [bcacheProdAll] at h
    split at h
    · cases h
    · rename_i bp₁ b₁ hprod
      rw [List.length_cons, Nat.add_comm]
      exact (bcacheProd_step hprod).trans (ih h)

theorem portRxBurst_step {fresh : List ℕ}
    (h : portRxBurst bp bc k = .ok (some (fresh, bp', b'))) :
    fresh.length = k ∧ CacheStep bp bc bp' b' k 0 := by
  unfold portRxBurst at h
  split at h
  · cases h
  · rename_i n bp₁ b₁ hcheck
    split at h
    · cases h
    · split at h
      · cases h
      · rename_i fresh' b₂ hfill
        cases h
        obtain ⟨hlen, hstep⟩ := fillAddrs_step hfill
        have := (bcacheConsCheck_step hcheck).trans hstep
        rw [Nat.zero_add] at this
        exact ⟨hlen, this⟩

/-! ### The count over runs -/

variable {s u : PoolNode P Q} {params : BpoolParams} {T : ℕ}

/-- The frames in the pool and all caches. -/
def PoolNode.levels (s : PoolNode P Q) : ℕ :=
  s.bp.nSlabsAvailable * s.bp.params.nBuffersPerSlab +
    ∑ p, ((s.bc p).nBuffersCons + (s.bc p).nBuffersProd)

/-- The fill counts stand for all frames that are not in the lists outside the pool; the receive
side of each port has `fill_size` of these. -/
structure LevelInv (params : BpoolParams) (T : ℕ) (s : PoolNode P Q) : Prop where
  params_eq : s.bp.params = params
  cacheOk : ∀ p, CacheOk s.bp (s.bc p)
  rx : ∀ p, rxCount s.held p = params.fillSize
  count : s.levels + ∑ b, (s.held b).length = T

theorem sum_length_update (held : Box P Q → List ℕ) (x : Box P Q) (l : List ℕ) :
    ∑ b, (update held x l b).length + (held x).length = ∑ b, (held b).length + l.length :=
  sum_update_add List.length held x l

theorem sum_length_shift (held : Box P Q → List ℕ) {x y : Box P Q} (k : ℕ) (h : x ≠ y) :
    ∑ b, (shift held x y k b).length = ∑ b, (held b).length := by
  rw [← card_total, ← card_total, total_shift held k h]

/-- Frames move between lists outside the pool. -/
theorem LevelInv.lists (h : LevelInv params T s) {held : Box P Q → List ℕ}
    (hrx : ∀ p, rxCount held p = rxCount s.held p)
    (hsum : ∑ b, (held b).length = ∑ b, (s.held b).length) :
    LevelInv params T { s with held := held } where
  params_eq := h.params_eq
  cacheOk := h.cacheOk
  rx p := (hrx p).trans (h.rx p)
  count := by
    rw [← h.count, ← hsum]
    rfl

/-- The lists outside the pool get what the cache of `p` gives, and the other way round. -/
theorem LevelInv.cache (h : LevelInv params T s) {p : Fin P} {held : Box P Q → List ℕ}
    (hstep : CacheStep s.bp (s.bc p) bp' b' m n) (hrx : ∀ q, rxCount held q = rxCount s.held q)
    (hsum : ∑ b, (held b).length + n = ∑ b, (s.held b).length + m) :
    LevelInv params T ⟨bp', update s.bc p b', held⟩ where
  params_eq := hstep.params_eq.trans h.params_eq
  cacheOk q := by
    have hp := hstep.ok (h.cacheOk p)
    show CacheOk bp' (update s.bc p b' q)
    by_cases hq : q = p
    · subst hq
      rwa [update_self]
    · have := h.cacheOk q
      rw [update_of_ne hq]
      exact ⟨hp.pos, hp.avail_le, hstep.params_eq ▸ this.cons_le, hstep.params_eq ▸ this.prod_le⟩
  rx q := (hrx q).trans (h.rx q)
  count := by
    have hlevel := hstep.level (h.cacheOk p)
    -- one cache changes, the others keep their level
    have hcaches := sum_update_add (fun b : Bcache => b.nBuffersCons + b.nBuffersProd) s.bc p b'
    have hcount := h.count
    simp only [PoolNode.levels, cacheLevel] at *
    omega

theorem LevelInv.recycle (h : LevelInv params T s) {x : Box P Q} (hx : x.rxSide = false)
    {p : Fin P} (hk : k ≤ (s.held x).length) (hu : s.recycle x p k = .ok (some u)) :
    LevelInv params T u := by
  unfold PoolNode.recycle at hu
  split at hu
  · cases hu
  · rename_i bp' b' hprod
    cases hu
    refine h.cache (bcacheProdAll_step hprod) (rxCount_update hx _) ?_
    have hsum := sum_length_update s.held x ((s.held x).drop k)
    rw [List.length_drop] at hsum
    rw [List.length_take_of_le hk]
    omega

theorem LevelInv.rxBurst (h : LevelInv params T s) {p : Fin P}
    (hk : k ≤ (s.held (.port .rxq p)).length) {fresh : List ℕ}
    (hu : portRxBurst s.bp (s.bc p) k = .ok (some (fresh, bp', b'))) :
    LevelInv params T ⟨bp', update s.bc p b',
      update (shift s.held (.port .rxq p) (.port .burst p) k) (.port .umemFq p)
        (shift s.held (.port .rxq p) (.port .burst p) k (.port .umemFq p) ++ fresh)⟩ := by
  obtain ⟨hlen, hstep⟩ := portRxBurst_step hu
  refine h.cache hstep (rxCount_rxBurst hk hlen) ?_
  have hsum := sum_length_update (shift s.held (.port .rxq p) (.port .burst p) k) (.port .umemFq p)
    (shift s.held (.port .rxq p) (.port .burst p) k (.port .umemFq p) ++ fresh)
  rw [sum_length_shift s.held k (by simp), List.length_append, hlen] at hsum
  omega

/-- Every action that does not fault keeps the count. -/
theorem LevelInv.step (h : LevelInv params T s) {txSize : ℕ} {a : PoolAct P Q}
    (hu : s.step txSize a = .ok (some u)) : LevelInv params T u := by
  cases PoolStep.of_step hu with
  | rxBurst hk hburst => exact h.rxBurst hk hburst
  | move k hxy hx hy => exact h.lists (rxCount_shift hx hy k) (sum_length_shift s.held k hxy)
  | recycle hx hk hrec => exact h.recycle hx hk hrec
  | kernelFill p =>
    exact h.lists (rxCount_kernelFill s.held p) (sum_length_shift s.held 1 (by simp))
  | @kernelRx p a rest addr ha =>
    refine h.lists (rxCount_kernelRx ha addr) ?_
    have hrxq : update s.held (.port .kernelRx p) rest (.port .rxq p) = s.held (.port .rxq p) :=
      update_of_ne (by simp) _ _
    have h1 := sum_length_update s.held (.port .kernelRx p) rest
    have h2 := sum_length_update (update s.held (.port .kernelRx p) rest) (.port .rxq p)
      (s.held (.port .rxq p) ++ [addr])
    rw [ha, List.length_cons] at h1
    rw [hrxq, List.length_append, List.length_singleton] at h2
    omega

/-! ### An idle node -/

/-- No frame is outside the pool but on the fill rings. -/
def PoolNode.Idle (s : PoolNode P Q) : Prop := ∀ b, (∀ p, b ≠ .port .umemFq p) → s.held b = []

theorem PoolNode.Idle.sum_length (hidle : s.Idle) {F : ℕ} (hrx : ∀ p, rxCount s.held p = F) :
    ∑ b, (s.held b).length = P * F := by
  have hzero : ∀ b, (∀ p, b ≠ .port .umemFq p) → (s.held b).length = 0 := fun b hb => by
    rw [hidle b hb, List.length_nil]
  have hport : ∀ p, ∑ st, (s.held (.port st p)).length = F := by
    intro p
    have hp := hrx p
    unfold rxCount at hp
    rw [sum_station, hzero (.port .burst p) (by simp), hzero (.port .collector p) (by simp),
      hzero (.port .txq p) (by simp), hzero (.port .kernelTx p) (by simp),
      hzero (.port .umemCq p) (by simp)]
    omega
  have hqueue : ∀ q, (s.held (.queue q)).length = 0 := fun q => hzero _ (by simp)
  simp only [sum_box, hport, hqueue, Finset.sum_const, Finset.card_univ, Fintype.card_fin,
    smul_eq_mul, Nat.mul_zero, Nat.add_zero]

theorem start_idle (bp : Bpool) (ports : ℕ → PortInit) :
    (PoolNode.start Q bp ports : PoolNode P Q).Idle := by
  intro b hb
  rcases start_held bp ports b with ⟨p, rfl, -⟩ | hnil
  · exact absurd rfl (hb p)
  · exact hnil

/-- What the caches can hold when the consumer slab of `p` is empty: all slabs but one. -/
theorem sum_cache_le {bc : Fin P → Bcache} {B : ℕ} (hcons : ∀ q, (bc q).nBuffersCons ≤ B)
    (hprod : ∀ q, (bc q).nBuffersProd ≤ B) {p : Fin P} (h0 : (bc p).nBuffersCons = 0) :
    ∑ q, ((bc q).nBuffersCons + (bc q).nBuffersProd) + B ≤ P * (2 * B) := by
  calc ∑ q, ((bc q).nBuffersCons + (bc q).nBuffersProd) + B
      = ∑ q, ((bc q).nBuffersCons + (bc q).nBuffersProd + if q = p then B else 0) := by
        rw [Finset.sum_add_distrib (f := fun q => (bc q).nBuffersCons + (bc q).nBuffersProd)]
        simp
    _ ≤ ∑ _q : Fin P, 2 * B := Finset.sum_le_sum fun q _ => by
        have hc := hcons q
        have hp := hprod q
        by_cases hq : q = p
        · subst hq
          rw [if_pos rfl]
          omega
        · rw [if_neg hq]
          omega
    _ = P * (2 * B) := by simp

theorem bcacheConsCheck_pos (havail : bp.nSlabsAvailable ≤ bp.nSlabs)
    (h : bc.nBuffersCons ≠ 0 ∨ bp.nSlabsAvailable ≠ 0) :
    ∃ n bp' b', bcacheConsCheck bp bc maxBurstRx = .ok (n, bp', b') ∧ 0 < n := by
  have hmax : 0 < maxBurstRx := by decide
  unfold bcacheConsCheck
  by_cases hc : bc.nBuffersCons = 0
  · rw [if_neg (not_not.2 hc), if_neg (h.resolve_left (not_not.2 hc)), if_neg (by omega)]
    exact ⟨_, _, _, rfl, hmax⟩
  · rw [if_pos hc]
    refine ⟨_, _, _, rfl, ?_⟩
    split <;> omega

/-- With nothing outside the pool and no empty consumer slab, the pool never changes. -/
theorem Stalled.pool_eq (h : Stalled s.held) (hcons : ∀ p, (s.bc p).nBuffersCons ≠ 0)
    {txSize : ℕ} {a : PoolAct P Q} (hu : s.step txSize a = .ok (some u)) :
    u.bp = s.bp ∧ u.bc = s.bc := by
  cases PoolStep.of_step hu with
  | @rxBurst p k fresh bp' b' hk hburst =>
    rw [h, List.length_nil, Nat.le_zero] at hk
    subst hk
    obtain ⟨-, n, hcheck⟩ := portRxBurst_zero hburst
    rw [bcacheConsCheck, if_pos (hcons p)] at hcheck
    cases hcheck
    exact ⟨rfl, update_eq_self ..⟩
  | @recycle x p k _ hx hk hrec =>
    rw [PoolNode.recycle, h x, List.take_nil, bcacheProdAll] at hrec
    cases hrec
    exact ⟨rfl, update_eq_self ..⟩
  | move k => exact ⟨rfl, rfl⟩
  | kernelFill p => exact ⟨rfl, rfl⟩
  | kernelRx addr ha => exact ⟨rfl, rfl⟩

section Start

variable {ports : ℕ → PortInit} {sockOk : ℕ → Bool} (hfresh : bp.Fresh)
  (h2P : 2 * P ≤ bp.nSlabs) (hF : bp.params.fillSize ≤ bp.params.nBuffersPerSlab)
  (hinit : initPorts bp sockOk P = .ok (bp', some ports))

include hfresh h2P hF hinit

theorem start_levelInv : LevelInv bp.params
    ((bp.nSlabs - 2 * P) * bp.params.nBuffersPerSlab +
      P * (bp.params.nBuffersPerSlab - bp.params.fillSize) + P * bp.params.fillSize)
    (PoolNode.start Q bp' ports : PoolNode P Q) where
  params_eq := by rw [PoolNode.start, start_bp hfresh h2P hF hinit]
  cacheOk p := by
    simp only [PoolNode.start, start_bp hfresh h2P hF hinit, start_port hfresh h2P hF hinit]
    exact ⟨hfresh.perSlab_pos, Nat.sub_le _ _, Nat.sub_le _ _, Nat.zero_le _⟩
  rx := (start_inv hfresh h2P hF hinit Q).rx
  count := by
    have hrx := (start_inv hfresh h2P hF hinit Q).rx
    rw [(start_idle bp' ports).sum_length hrx]
    simp [PoolNode.levels, PoolNode.start, start_bp hfresh h2P hF hinit,
      start_port hfresh h2P hF hinit]

end Start

/-- **Every port of an idle node can receive**, if the pool has more frames than the fill rings and
all but one of the cache slabs hold. -/
theorem port_can_receive {params : BpoolParams} {sysOk : Bool} {sockOk : ℕ → Bool} {bp bp' : Bpool}
    {ports : ℕ → PortInit} (hbp : bpoolInit params sysOk = .ok (some bp))
    (hports : initPorts bp sockOk P = .ok (bp', some ports))
    (hsize : params.fillSize = 0 ∨ 3 * P * params.nBuffersPerSlab + P * params.fillSize <
      (bp.nSlabs + 1) * params.nBuffersPerSlab) {txSize : ℕ} {as : List (PoolAct P Q)}
    (hrun : run (sound (PoolNode.step txSize)) (PoolNode.start Q bp' ports) as = some s)
    (hidle : s.Idle) (p : Fin P) :
    ∃ n bp₁ b₁, bcacheConsCheck s.bp (s.bc p) maxBurstRx = .ok (n, bp₁, b₁) ∧ 0 < n := by
  obtain ⟨hfresh, hper, hfill⟩ := bpoolInit_fresh hbp
  rw [← hper, ← hfill] at hsize
  have hB := hfresh.perSlab_pos
  have hF := fillSize_le_of_initPorts (Nat.zero_lt_of_lt p.2) hports
  have h2P : 2 * P ≤ bp.nSlabs := by
    rw [← hfresh.avail_eq]
    exact two_mul_le_of_initPorts hfresh.avail_eq.le hB hF hports
  rcases hsize with hzero | hsize
  · -- no frame ever leaves the pool
    have hstart : ∀ q : Fin P,
        ((PoolNode.start Q bp' ports : PoolNode P Q).bc q).nBuffersCons ≠ 0 := by
      intro q
      simp only [PoolNode.start, start_port hfresh h2P hF hports]
      omega
    obtain ⟨-, heqbp, heqbc⟩ := run_invariant
      (fun t => Stalled t.held ∧ t.bp = (PoolNode.start Q bp' ports : PoolNode P Q).bp ∧
        t.bc = (PoolNode.start Q bp' ports : PoolNode P Q).bc)
      (fun t b v ht hv => by
        have hv' := sound_eq_some.1 hv
        obtain ⟨h1, h2⟩ := ht.1.pool_eq (by rw [ht.2.2]; exact hstart) hv'
        exact ⟨ht.1.step hv', h1.trans ht.2.1, h2.trans ht.2.2⟩)
      ⟨start_stalled hfresh h2P hF hports hzero, rfl, rfl⟩ hrun
    rw [heqbp, heqbc]
    exact bcacheConsCheck_pos ((start_levelInv hfresh h2P hF hports (Q := Q)).cacheOk p).avail_le
      (.inl (hstart p))
  · have hinv : LevelInv bp.params _ s := run_invariant (LevelInv bp.params _)
      (fun t b v ht hv => ht.step (sound_eq_some.1 hv)) (start_levelInv hfresh h2P hF hports) hrun
    refine bcacheConsCheck_pos (hinv.cacheOk p).avail_le ?_
    by_contra hstuck
    obtain ⟨hcons, havail⟩ : (s.bc p).nBuffersCons = 0 ∧ s.bp.nSlabsAvailable = 0 := by
      simpa only [not_or, not_not] using hstuck
    have hcount := hinv.count
    -- an empty pool leaves the caches and the fill rings, which are too small for all frames
    have hle := sum_cache_le (B := bp.params.nBuffersPerSlab)
      (fun q => hinv.params_eq ▸ (hinv.cacheOk q).cons_le)
      (fun q => hinv.params_eq ▸ (hinv.cacheOk q).prod_le) hcons
    rw [hidle.sum_length hinv.rx, PoolNode.levels, havail, Nat.zero_mul, Nat.sub_mul,
      Nat.mul_sub] at hcount
    have hslabs := Nat.mul_le_mul_right bp.params.nBuffersPerSlab h2P
    have hfillP := Nat.mul_le_mul_left P hF
    rw [Nat.add_mul, Nat.one_mul, Nat.mul_assoc] at hsize
    rw [Nat.mul_assoc] at hslabs hcount
    rw [Nat.mul_left_comm] at hle
    omega

/-- Five slabs of twenty frames and one port, after one frame has come and gone. -/
theorem port_can_receive_roundTrip : ∃ bp bp' ports, ∃ s : PoolNode 1 1,
    bpoolInit ⟨100, 4096, 20, 20, 20⟩ true = .ok (some bp) ∧
    initPorts bp (fun _ => true) 1 = .ok (bp', some ports) ∧
    3 * 1 * 20 + 1 * 20 < (bp.nSlabs + 1) * 20 ∧
    run (sound (PoolNode.step 64)) (PoolNode.start 1 bp' ports) roundTrip = some s ∧ s.Idle ∧
    ∃ n bp₁ b₁, bcacheConsCheck s.bp (s.bc 0) maxBurstRx = .ok (n, bp₁, b₁) ∧ 0 < n := by
  refine ⟨_, _, _, _, rfl, rfl, by decide, rfl, by unfold PoolNode.Idle; decide, ?_⟩
  exact port_can_receive (rfl : bpoolInit ⟨100, 4096, 20, 20, 20⟩ true = _)
    (rfl : initPorts _ (fun _ => true) 1 = _) (.inr (by decide))
    (rfl : run (sound (PoolNode.step 64)) _ roundTrip = _) (by unfold PoolNode.Idle; decide) 0

/-! ### The shipped pool -/

/-- After ports `0, …, j - 1` have polled their empty RX rings once: each has taken a full slab. -/
structure Polled (s₀ s : PoolNode P Q) (j : ℕ) : Prop where
  held : s.held = s₀.held
  params : s.bp.params = s₀.bp.params
  nSlabs : s.bp.nSlabs = s₀.bp.nSlabs
  avail : s.bp.nSlabsAvailable + j = s₀.bp.nSlabsAvailable
  cons : ∀ q : Fin P, j ≤ q → (s.bc q).nBuffersCons = 0

theorem shift_zero (held : Box P Q → List ℕ) (x y : Box P Q) : shift held x y 0 = held := by
  rw [shift, List.drop_zero, update_eq_self, List.take_zero, List.append_nil, update_eq_self]

/-- One more poll. -/
theorem Polled.step {s₀ s : PoolNode P Q} {j : ℕ} (h : Polled s₀ s j) (hj : j < P)
    (hburst : s₀.held (.port .burst ⟨j, hj⟩) = [])
    (hfq : (s₀.held (.port .umemFq ⟨j, hj⟩)).length ≤ s₀.bp.params.fillSize)
    (hle : s₀.bp.nSlabsAvailable ≤ s₀.bp.nSlabs) (hlt : j < s₀.bp.nSlabsAvailable) (txSize : ℕ) :
    ∃ t, s.step txSize (.rxBurst ⟨j, hj⟩ 0) = .ok (some t) ∧ Polled s₀ t (j + 1) := by
  have havail := h.avail
  have hcheck : bcacheConsCheck s.bp (s.bc ⟨j, hj⟩) maxBurstRx = .ok (maxBurstRx,
      { s.bp with
        slabs := update s.bp.slabs (s.bp.nSlabsAvailable - 1) (s.bc ⟨j, hj⟩).slabCons
        nSlabsAvailable := s.bp.nSlabsAvailable - 1 },
      { s.bc ⟨j, hj⟩ with
        slabCons := s.bp.slabs (s.bp.nSlabsAvailable - 1)
        nBuffersCons := s.bp.params.nBuffersPerSlab }) := by
    rw [bcacheConsCheck, h.cons _ (Nat.le_refl j), if_neg (not_not.2 rfl), if_neg (by omega),
      if_neg (by rw [h.nSlabs]; omega)]
  simp only [PoolNode.step]
  rw [if_pos ⟨by rw [h.held, hburst], Nat.zero_le _, by rw [h.held, h.params]; exact hfq⟩]
  simp only [portRxBurst, hcheck, Nat.not_lt_zero, if_false, fillAddrs]
  refine ⟨_, rfl, ?_, h.params, h.nSlabs, ?_, ?_⟩
  · simp only [shift_zero, List.append_nil, update_eq_self]
    exact h.held
  · simp only
    omega
  · intro q hq
    have hne : q ≠ ⟨j, hj⟩ := by
      rintro rfl
      exact absurd hq (Nat.not_succ_le_self j)
    simp only [update_of_ne hne]
    exact h.cons q (by omega)

theorem Polled.reach {s₀ : PoolNode P Q} (h : Polled s₀ s₀ 0)
    (hburst : ∀ p, s₀.held (.port .burst p) = [])
    (hfq : ∀ p, (s₀.held (.port .umemFq p)).length ≤ s₀.bp.params.fillSize)
    (hle : s₀.bp.nSlabsAvailable ≤ s₀.bp.nSlabs) (txSize : ℕ) {j : ℕ} (hP : j ≤ P)
    (hj : j ≤ s₀.bp.nSlabsAvailable) :
    ∃ t, Reaches (sound (PoolNode.step txSize)) s₀ t ∧ Polled s₀ t j := by
  induction j with
  | zero => exact ⟨s₀, .refl s₀, h⟩
  | succ j ih =>
    obtain ⟨t, hreach, ht⟩ := ih (by omega) (by omega)
    obtain ⟨u, hu, hnext⟩ := ht.step hP (hburst _) (hfq _) hle hj txSize
    exact ⟨u, hreach.tail (sound_eq_some.2 hu), hnext⟩

/-- The shipped 32 slabs of 4096 frames with `MAX_PORTS` ports: once eight of the twelve idle ports
have polled, the pool is empty and port 11 is refused. -/
theorem default_pool_wedges : ∃ bp bp' ports, ∃ s : PoolNode 12 1,
    bpoolInit bpoolParamsDefault true = .ok (some bp) ∧
    initPorts bp (fun _ => true) 12 = .ok (bp', some ports) ∧
    Reaches (sound (PoolNode.step 2048)) (PoolNode.start 1 bp' ports) s ∧ s.Idle ∧
    bcacheConsCheck s.bp (s.bc 11) maxBurstRx = .ok (0, s.bp, s.bc 11) := by
  obtain ⟨bp, hbp, hparams, hslabs, havail⟩ := bpoolInit_default
  obtain ⟨hfresh, -, -⟩ := bpoolInit_fresh hbp
  have hF : bp.params.fillSize ≤ bp.params.nBuffersPerSlab := by rw [hparams]; decide
  have h2P : 2 * 12 ≤ bp.nSlabs := by omega
  obtain ⟨bp', ports, hports⟩ := initPorts_ok (n := 12) (by omega) (by omega) hfresh.perSlab_pos hF
  have hstart := start_bp hfresh h2P hF hports
  have hport := start_port hfresh h2P hF hports
  have hpolled :
      Polled (PoolNode.start 1 bp' ports : PoolNode 12 1) (PoolNode.start 1 bp' ports) 0 :=
    { held := rfl
      params := rfl
      nSlabs := rfl
      avail := rfl
      cons := fun q _ => by
        simp only [PoolNode.start, hport, hparams]
        rfl }
  obtain ⟨s, hreach, hs⟩ := hpolled.reach (j := 8) (fun _ => rfl)
    (fun p => by simp [PoolNode.start, hport, hstart])
    (by simp [PoolNode.start, hstart]) 2048 (by decide)
    (by simp [PoolNode.start, hstart, hslabs])
  refine ⟨bp, bp', ports, s, hbp, hports, hreach, fun b hb => ?_, ?_⟩
  · rw [hs.held]
    exact start_idle bp' ports b hb
  · have hempty : s.bp.nSlabsAvailable = 0 := by
      have := hs.avail
      simp only [PoolNode.start, hstart, hslabs] at this
      omega
    rw [bcacheConsCheck, hs.cons 11 (by decide), if_neg (not_not.2 rfl), if_pos hempty]

end RotorXdp
