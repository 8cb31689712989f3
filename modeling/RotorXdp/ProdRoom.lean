import RotorXdp.PoolRun

/-!
# The empty slab that `bcache_prod` counts on

`bcache_prod` gives a full producer slab to the pool and takes `slabs[n_slabs_available]` for it,
on the grounds that the pool then has an empty slab. With `N = n_slabs - 2 * P` slabs left in the
pool after the set-up this is one of its own slabs as long as `n_slabs_available < N`; from `N` on
the entries are those of slabs that the caches hold.

* `ProdCall`: the calls of `bcache_prod` in a run;
* `PoolNode.TakesEmpty`: what the call counts on;
* `PoolStep`: what an action does, whichever it is;
* `Stalled`: with an empty fill ring no frame ever leaves the pool;
* `prod_takes_empty`: a surplus of one slab in all consumer slabs is the most that is safe.
-/

namespace RotorXdp

open Function Runs Racks

variable {P Q N : ℕ} {s u : PoolNode P Q} {params : BpoolParams}

/-- The entry that a full producer slab is traded for is inside the array, none of the full slabs
of the pool, and no cache's slab. -/
structure PoolNode.TakesEmpty (s : PoolNode P Q) : Prop where
  inside : s.bp.nSlabsAvailable < s.bp.nSlabs
  empty : ∀ i < s.bp.nSlabsAvailable, s.bp.slabs i ≠ s.bp.slabs s.bp.nSlabsAvailable
  not_cons : ∀ q, (s.bc q).slabCons ≠ s.bp.slabs s.bp.nSlabsAvailable
  not_prod : ∀ q, (s.bc q).slabProd ≠ s.bp.slabs s.bp.nSlabsAvailable

/-- The calls of `bcache_prod` in an action: the list they go through, the cache, their number. -/
def PoolAct.prodCalls : PoolAct P Q → Option (Box P Q × Fin P × ℕ)
  | .drop p _ => some (.port .burst p, p, 1)
  | .drain p k => some (.port .umemCq p, p, k)
  | _ => none

/-- In state `s` the action `a` calls `bcache_prod` on the cache of `p`, the earlier calls of the
same action having led to `u`. -/
def ProdCall (txSize : ℕ) (s : PoolNode P Q) (a : PoolAct P Q) (p : Fin P) (u : PoolNode P Q) :
    Prop :=
  ∃ x k j, a.prodCalls = some (x, p, k) ∧ s.step txSize a ≠ .ok none ∧ j < k ∧
    s.recycle x p j = .ok (some u)

theorem ProdCall.of_step {txSize : ℕ} {a : PoolAct P Q} {v : PoolNode P Q} {x : Box P Q} {p : Fin P}
    {k j : ℕ} (hcalls : a.prodCalls = some (x, p, k)) (hstep : s.step txSize a = .ok (some v))
    (hjk : j < k) (hrec : s.recycle x p j = .ok (some u)) : ProdCall txSize s a p u :=
  ⟨x, k, j, hcalls, by rw [hstep]; simp, hjk, hrec⟩

/-- The list that an action gives back lies outside the receive sides and is long enough. -/
theorem prodCalls_spec {txSize : ℕ} {a : PoolAct P Q} {x : Box P Q} {p : Fin P} {k : ℕ}
    (hcalls : a.prodCalls = some (x, p, k)) (ha : s.step txSize a ≠ .ok none) :
    x.rxSide = false ∧ k ≤ (s.held x).length := by
  cases a with
  | drop p q =>
    obtain ⟨rfl, -, rfl⟩ : _ ∧ _ ∧ _ := by simpa [PoolAct.prodCalls] using hcalls
    refine ⟨rfl, ?_⟩
    by_contra hlen
    refine ha (if_neg fun hg => hlen ?_)
    exact List.length_pos_iff.2 hg.1
  | drain p n =>
    obtain ⟨rfl, -, rfl⟩ : _ ∧ _ ∧ _ := by simpa [PoolAct.prodCalls] using hcalls
    refine ⟨rfl, ?_⟩
    by_contra hlen
    exact ha (if_neg fun hg => hlen hg.1)
  | rxBurst p k | push p q | pull q p | submit p | kernelFill p | kernelRx p addr | kernelTx p
  | kernelComplete p => exact absurd hcalls (by simp [PoolAct.prodCalls])

theorem recycle_held {x : Box P Q} {p : Fin P} {j : ℕ} (h : s.recycle x p j = .ok (some u)) :
    u.held x = (s.held x).drop j := by
  unfold PoolNode.recycle at h
  split at h
  · exact absurd h (by simp)
  · cases h
    exact update_self ..

/-- The pool's own slabs below `N` are no cache's slabs, and the free ones are not full. -/
theorem PoolOk.takesEmpty (h : PoolOk params N u.bp u.bc) (hlt : u.bp.nSlabsAvailable < N) :
    u.TakesEmpty where
  inside := Nat.lt_of_lt_of_le hlt h.slabs_le
  empty i hi heq := by
    have hplace : PoolPlace.slab (P := P) (⟨i, by omega⟩ : Fin N) = .slab ⟨_, hlt⟩ := h.proper heq
    simp only [PoolPlace.slab.injEq, Fin.mk.injEq] at hplace
    omega
  not_cons q heq := by
    have hplace : PoolPlace.cons q = .slab (⟨_, hlt⟩ : Fin N) := h.proper heq
    exact absurd hplace (by simp)
  not_prod q heq := by
    have hplace : PoolPlace.prod q = .slab (⟨_, hlt⟩ : Fin N) := h.proper heq
    exact absurd hplace (by simp)

/-! ### What an action does -/

/-- The effect of an action that is enabled and does not fault. -/
inductive PoolStep (s : PoolNode P Q) : PoolNode P Q → Prop
  | rxBurst {p : Fin P} {k : ℕ} {fresh : List ℕ} {bp' : Bpool} {b' : Bcache} :
      k ≤ (s.held (.port .rxq p)).length →
      portRxBurst s.bp (s.bc p) k = .ok (some (fresh, bp', b')) →
      PoolStep s ⟨bp', update s.bc p b',
        update (shift s.held (.port .rxq p) (.port .burst p) k) (.port .umemFq p)
          (shift s.held (.port .rxq p) (.port .burst p) k (.port .umemFq p) ++ fresh)⟩
  | move {x y : Box P Q} (k : ℕ) : x ≠ y → x.rxSide = false → y.rxSide = false →
      PoolStep s (s.move x y k)
  | recycle {x : Box P Q} {p : Fin P} {k : ℕ} {u : PoolNode P Q} : x.rxSide = false →
      k ≤ (s.held x).length → s.recycle x p k = .ok (some u) → PoolStep s u
  | kernelFill (p : Fin P) : PoolStep s (s.move (.port .umemFq p) (.port .kernelRx p) 1)
  | kernelRx {p : Fin P} {a : ℕ} {rest : List ℕ} (addr : ℕ) :
      s.held (.port .kernelRx p) = a :: rest →
      PoolStep s { s with
        held := update (update s.held (.port .kernelRx p) rest) (.port .rxq p)
          (s.held (.port .rxq p) ++ [addr]) }

theorem PoolStep.of_step {txSize : ℕ} {a : PoolAct P Q} (hu : s.step txSize a = .ok (some u)) :
    PoolStep s u := by
  cases a with
  | rxBurst p k =>
    simp only [PoolNode.step] at hu
    split at hu
    · rename_i hg
      split at hu
      · cases hu
      · cases hu
      · rename_i fresh bp' b' hburst
        cases hu
        exact .rxBurst hg.2.1 hburst
    · exact absurd hu (by simp)
  | push p q =>
    simp only [PoolNode.step] at hu
    split at hu
    · cases hu
      exact .move 1 (by simp) rfl rfl
    · exact absurd hu (by simp)
  | drop p q =>
    simp only [PoolNode.step] at hu
    split at hu
    · rename_i hg
      exact .recycle rfl (List.length_pos_iff.2 hg.1) hu
    · exact absurd hu (by simp)
  | pull q p =>
    simp only [PoolNode.step] at hu
    split at hu
    · cases hu
      exact .move 1 (by simp) rfl rfl
    · exact absurd hu (by simp)
  | drain p k =>
    simp only [PoolNode.step] at hu
    split at hu
    · rename_i hg
      exact .recycle rfl hg.1 hu
    · exact absurd hu (by simp)
  | submit p =>
    simp only [PoolNode.step] at hu
    split at hu
    · cases hu
      exact .move _ (by simp) rfl rfl
    · exact absurd hu (by simp)
  | kernelFill p =>
    cases hu
    exact .kernelFill p
  | kernelRx p addr =>
    simp only [PoolNode.step] at hu
    split at hu
    · exact absurd hu (by simp)
    · rename_i a rest ha
      split at hu
      · cases hu
        rw [update_of_ne (by simp)]
        exact .kernelRx addr ha
      · exact absurd hu (by simp)
  | kernelTx p =>
    simp only [PoolNode.step] at hu
    split at hu
    · cases hu
      exact .move 1 (by simp) rfl rfl
    · exact absurd hu (by simp)
  | kernelComplete p =>
    cases hu
    exact .move 1 (by simp) rfl rfl

/-! ### An empty fill ring -/

/-- No frame is outside the pool. -/
def Stalled (held : Box P Q → List ℕ) : Prop := ∀ b, held b = []

theorem Stalled.update {held : Box P Q → List ℕ} (h : Stalled held) {x : Box P Q} {l : List ℕ}
    (hl : l = []) : Stalled (Function.update held x l) := by
  intro b
  by_cases hb : b = x
  · subst hb; rw [update_self, hl]
  · rw [update_of_ne hb, h b]

theorem Stalled.shift {held : Box P Q → List ℕ} (h : Stalled held) (x y : Box P Q) (k : ℕ) :
    Stalled (Racks.shift held x y k) := by
  have hx : (held x).drop k = [] := by rw [h x]; exact List.drop_nil
  have hy : held y ++ (held x).take k = [] := by rw [h x, h y]; exact List.take_nil
  exact (h.update hx).update hy

theorem Stalled.recycle (h : Stalled s.held) {x : Box P Q} {p : Fin P} {k : ℕ}
    (hu : s.recycle x p k = .ok (some u)) : Stalled u.held := by
  unfold PoolNode.recycle at hu
  split at hu
  · exact absurd hu (by simp)
  · cases hu
    exact h.update (by rw [h x]; exact List.drop_nil)

/-- With nothing in the RX ring a burst takes nothing out of the cache. -/
theorem portRxBurst_zero {bp bp' : Bpool} {bc b' : Bcache} {fresh : List ℕ}
    (h : portRxBurst bp bc 0 = .ok (some (fresh, bp', b'))) :
    fresh = [] ∧ ∃ n, bcacheConsCheck bp bc maxBurstRx = .ok (n, bp', b') := by
  unfold portRxBurst at h
  split at h
  · cases h
  · rename_i n bp₁ b₁ hcheck
    simp only [Nat.not_lt_zero, if_false, fillAddrs, Except.ok.injEq, Option.some.injEq,
      Prod.mk.injEq] at h
    obtain ⟨rfl, rfl, rfl⟩ := h
    exact ⟨rfl, n, hcheck⟩

/-- A node without frames outside the pool stays so. -/
theorem Stalled.step (h : Stalled s.held) {txSize : ℕ} {a : PoolAct P Q}
    (hu : s.step txSize a = .ok (some u)) : Stalled u.held := by
  cases PoolStep.of_step hu with
  | @rxBurst p k fresh bp' b' hk hburst =>
    -- the RX ring is empty
    rw [h, List.length_nil, Nat.le_zero] at hk
    subst hk
    obtain ⟨rfl, -⟩ := portRxBurst_zero hburst
    have hs := h.shift (.port .rxq p) (.port .burst p) 0
    exact hs.update (by rw [hs (.port .umemFq p), List.append_nil])
  | move k => exact h.shift _ _ k
  | recycle hx hk hrec => exact h.recycle hrec
  | kernelFill p => exact h.shift _ _ 1
  | kernelRx addr ha =>
    rw [h] at ha
    cases ha

/-- An empty fill ring leaves nothing outside the pool from the start. -/
theorem start_stalled {bp bp' : Bpool} {ports : ℕ → PortInit} {sockOk : ℕ → Bool}
    (hfresh : bp.Fresh) (h2P : 2 * P ≤ bp.nSlabs)
    (hF : bp.params.fillSize ≤ bp.params.nBuffersPerSlab)
    (hinit : initPorts bp sockOk P = .ok (bp', some ports)) (h0 : bp.params.fillSize = 0) :
    Stalled (PoolNode.start Q bp' ports : PoolNode P Q).held := by
  intro b
  rcases start_held bp' ports b with ⟨p, -, hfill⟩ | hnil
  · rw [hfill, start_port hfresh h2P hF hinit, h0]
    rfl
  · exact hnil

/-- **`bcache_prod` finds an empty slab**, in every run of a pool whose consumer slabs keep at most
one slab's worth of frames in all after the fill rings are filled. -/
theorem prod_takes_empty {sysOk : Bool} {sockOk : ℕ → Bool} {bp bp' : Bpool}
    {ports : ℕ → PortInit} (hF : params.fillSize ≤ params.nBuffersPerSlab)
    (hsurplus : params.fillSize = 0 ∨
      P * (params.nBuffersPerSlab - params.fillSize) ≤ params.nBuffersPerSlab)
    (hbp : bpoolInit params sysOk = .ok (some bp))
    (hports : initPorts bp sockOk P = .ok (bp', some ports)) {txSize : ℕ}
    {as : List (PoolAct P Q)}
    (hrun : run (sound (PoolNode.step txSize)) (PoolNode.start Q bp' ports) as = some s)
    {a : PoolAct P Q} {p : Fin P} (hcall : ProdCall txSize s a p u)
    (hfull : ¬ (u.bc p).nBuffersProd < u.bp.params.nBuffersPerSlab) : u.TakesEmpty := by
  obtain ⟨hfresh, hper, hfill⟩ := bpoolInit_fresh hbp
  rw [← hper, ← hfill] at hF
  rw [← hper, ← hfill] at hsurplus
  have hB := hfresh.perSlab_pos
  have h2P : 2 * P ≤ bp.nSlabs := by
    rw [← hfresh.avail_eq]
    exact two_mul_le_of_initPorts hfresh.avail_eq.le hB hF hports
  obtain ⟨x, k, j, hcalls, hstep, hjk, hrec⟩ := hcall
  obtain ⟨hx, hk⟩ := prodCalls_spec hcalls hstep
  have hne : (s.held x).drop j ≠ [] := by
    rw [ne_eq, List.drop_eq_nil_iff]
    omega
  rcases hsurplus with hzero | hsurplus
  · -- nothing is ever outside the pool, so there is no call
    have hs : Stalled s.held :=
      run_invariant (fun t => Stalled t.held) (fun t b v ht hv => ht.step (sound_eq_some.1 hv))
        (start_stalled hfresh h2P hF hports hzero) hrun
    rw [hs x, List.drop_nil] at hne
    exact absurd rfl hne
  · have hM : Multiset.card
        ((PoolNode.start Q bp' ports : PoolNode P Q).circulating (bp.nSlabs - 2 * P)) ≤
          (bp.nSlabs - 2 * P) * bp.params.nBuffersPerSlab + P * bp.params.fillSize +
            bp.params.nBuffersPerSlab := by
      rw [card_start hfresh h2P hF hports Q]
      omega
    have hs := (start_inv hfresh h2P hF hports Q).run hB hF hM hrun
    obtain ⟨t, ht, hinv⟩ := hs.recycle hB hM hx p (k := j) (by omega)
    rw [hrec] at ht
    cases ht
    have hfull' : (u.bc p).nBuffersProd = bp.params.nBuffersPerSlab := by
      have hle := hinv.pool.prod_le p
      rw [hinv.pool.params_eq] at hfull
      omega
    -- a frame is still to be stored, so not all of them are in full slabs
    exact hinv.pool.takesEmpty (hinv.room hM hx (by rwa [recycle_held hrec]) hfull')

/-- A frame at address `addr` comes in at port `p` and goes out at port 0, up to the completion
ring. -/
def passThrough (p : Fin (P + 1)) (addr : ℕ) : List (PoolAct (P + 1) 1) :=
  [.kernelFill p, .kernelRx p addr, .rxBurst p 1, .push p ⟨0, Nat.one_pos⟩,
    .pull ⟨0, Nat.one_pos⟩ 0, .submit 0, .kernelTx 0, .kernelComplete 0]

/-- Four slabs of one frame each and one port: the second frame to be given back finds the
producer slab full. -/
theorem prod_takes_empty_second : ∃ bp bp' ports, ∃ s u : PoolNode 1 1,
    bpoolInit ⟨4, 4096, 1, 1, 4⟩ true = .ok (some bp) ∧
    initPorts bp (fun _ => true) 1 = .ok (bp', some ports) ∧
    run (sound (PoolNode.step 8)) (PoolNode.start 1 bp' ports)
      (passThrough 0 (3 * 4096) ++ .drain 0 1 :: passThrough 0 4096) = some s ∧
    ProdCall 8 s (.drain 0 1) 0 u ∧ ¬ (u.bc 0).nBuffersProd < u.bp.params.nBuffersPerSlab ∧
    u.TakesEmpty := by
  refine ⟨_, _, _, _, _, rfl, rfl, rfl, .of_step rfl rfl Nat.one_pos rfl, by decide, ?_⟩
  exact prod_takes_empty (a := .drain 0 1) (p := 0) (by decide) (.inr (by decide))
    (rfl : bpoolInit ⟨4, 4096, 1, 1, 4⟩ true = _) (rfl : initPorts _ (fun _ => true) 1 = _)
    (rfl : run (sound (PoolNode.step 8)) _
      (passThrough 0 (3 * 4096) ++ .drain 0 1 :: passThrough 0 4096) = _)
    (.of_step rfl rfl Nat.one_pos rfl) (by decide)

/-- Six slabs of two frames and three ports whose fill rings take one frame each: the third frame
given back to the cache of port 0 is stored in the producer slab of port 2. -/
theorem surplus_takes_slab_in_use : ∃ bp bp' ports, ∃ s u : PoolNode 3 1,
    bpoolInit ⟨12, 4096, 2, 1, 4⟩ true = .ok (some bp) ∧ 2 * 3 ≤ bp.nSlabs ∧
    initPorts bp (fun _ => true) 3 = .ok (bp', some ports) ∧
    run (sound (PoolNode.step 8)) (PoolNode.start 1 bp' ports)
      (passThrough 0 (11 * 4096) ++ passThrough 1 (7 * 4096) ++ passThrough 2 (3 * 4096)) = some s ∧
    ProdCall 8 s (.drain 0 3) 0 u ∧ ¬ (u.bc 0).nBuffersProd < u.bp.params.nBuffersPerSlab ∧
    u.bp.slabs u.bp.nSlabsAvailable = (u.bc 2).slabProd ∧ ¬ u.TakesEmpty := by
  refine ⟨_, _, _, _, _, rfl, by decide, rfl, rfl, .of_step rfl rfl (by decide : 2 < 3) rfl,
    by decide, by decide, fun h => ?_⟩
  exact h.not_prod 2 (by decide)

end RotorXdp
