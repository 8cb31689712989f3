import RotorXdp.PoolRun

/-!
# What the set-up does with the frames

`bcache_init` takes two full slabs of the pool. The consumer slab keeps its frames, since
`n_buffers_cons` says that it is full; the producer slab is entered as empty, and its frames are
recorded nowhere from then on.

* `PoolNode.addrsAt`: the addresses at a place;
* `mem_start_iff`: the frames that are somewhere after the set-up;
* `kept_iff`: a frame is kept exactly when its slab is no producer slab.
-/

namespace RotorXdp

open Function Racks

variable {P Q : ℕ}

/-- The frame addresses at a place. -/
def PoolNode.addrsAt (s : PoolNode P Q) : Place P Q → List ℕ
  | .slab i =>
    if i < s.bp.nSlabsAvailable then
      (List.range s.bp.params.nBuffersPerSlab).map fun e => s.bp.buffers (s.bp.slabs i) e
    else []
  | .slabCons p => (List.range (s.bc p).nBuffersCons).map fun e => s.bp.buffers (s.bc p).slabCons e
  | .slabProd p => (List.range (s.bc p).nBuffersProd).map fun e => s.bp.buffers (s.bc p).slabProd e
  | .box b => s.held b

/-- The address is at one place, once. -/
def PoolNode.Kept (s : PoolNode P Q) (a : ℕ) : Prop :=
  ∃ x, (s.addrsAt x).count a = 1 ∧ ∀ y, a ∈ s.addrsAt y → y = x

theorem PoolNode.framesAt_eq (s : PoolNode P Q) (x : Place P Q) :
    s.framesAt x = (s.addrsAt x).map s.bp.frame := by
  cases x with
  | slab i =>
    rw [framesAt, addrsAt]
    split
    · rw [List.map_map]; rfl
    · rfl
  | slabCons p => rw [framesAt, addrsAt, List.map_map]; rfl
  | slabProd p => rw [framesAt, addrsAt, List.map_map]; rfl
  | box b => rfl

section Start

variable {bp bp' : Bpool} {ports : ℕ → PortInit} {sockOk : ℕ → Bool} (hfresh : bp.Fresh)
  (h2P : 2 * P ≤ bp.nSlabs) (hF : bp.params.fillSize ≤ bp.params.nBuffersPerSlab)
  (hinit : initPorts bp sockOk P = .ok (bp', some ports))

include hfresh h2P hF hinit

/-- Right after the set-up every address is the first one of its frame. -/
theorem start_addrsAt (x : Place P Q) :
    (PoolNode.start Q bp' ports : PoolNode P Q).addrsAt x =
      ((PoolNode.start Q bp' ports : PoolNode P Q).framesAt x).map (· * bp.params.bufferSize) := by
  have hbp := start_bp hfresh h2P hF hinit
  have hframe : bp'.frame = bp.frame := Bpool.frame_congr (by rw [hbp])
  have hbuf : ∀ s e, bp.frame (bp.buffers s e) * bp.params.bufferSize = bp.buffers s e := by
    intro s e
    rw [hfresh.frame_buffers, hfresh.buffers_eq]
  have hrange : ∀ s k, (List.range k).map (fun e => bp.buffers s e) =
      (((List.range k).map fun e => bp.buffers s e).map bp.frame).map
        (· * bp.params.bufferSize) := by
    intro s k
    rw [List.map_map, List.map_map]
    exact List.map_congr_left fun e _ => (hbuf s e).symm
  rw [PoolNode.framesAt_eq]
  show _ = List.map _ (List.map bp'.frame _)
  rw [hframe]
  cases x with
  | slab i =>
    rw [PoolNode.addrsAt]
    split
    · simp only [PoolNode.start, hbp]
      exact hrange _ _
    · rfl
  | slabCons p =>
    simp only [PoolNode.addrsAt, PoolNode.start, hbp]
    exact hrange _ _
  | slabProd p =>
    simp only [PoolNode.addrsAt, PoolNode.start, hbp]
    exact hrange _ _
  | box b =>
    rw [PoolNode.addrsAt]
    rcases start_held bp' ports b with ⟨p, -, hfill⟩ | hnil
    · rw [hfill, start_port hfresh h2P hF hinit, List.map_map, List.map_map]
      exact List.map_congr_left fun e _ => (hbuf _ _).symm
    · rw [hnil]
      rfl

theorem start_kept_iff (f : ℕ) :
    (PoolNode.start Q bp' ports : PoolNode P Q).Kept (f * bp.params.bufferSize) ↔
      ∃ y, f ∈ (PoolNode.start Q bp' ports : PoolNode P Q).framesAt y := by
  have hinj : Injective (· * bp.params.bufferSize) :=
    fun a b h => Nat.eq_of_mul_eq_mul_right hfresh.size_pos h
  have hinv := start_inv hfresh h2P hF hinit Q
  simp only [PoolNode.Kept, start_addrsAt hfresh h2P hF hinit,
    List.count_map_of_injective _ _ hinj, List.mem_map_of_injective hinj]
  constructor
  · rintro ⟨x, hone, -⟩
    exact ⟨x, List.count_pos_iff.1 (by omega)⟩
  · intro h
    exact hinv.one_place (nodup_start hfresh h2P hF hinit Q)
      ((mem_circulating hinv.pool.avail_le).2 h)

/-- The frames that the set-up keeps: those of the slabs left in the pool and of the consumer
slabs. -/
theorem mem_start_iff {f : ℕ} (hf : f < bp.nSlabs * bp.params.nBuffersPerSlab) :
    (∃ y, f ∈ (PoolNode.start Q bp' ports : PoolNode P Q).framesAt y) ↔
      ∀ p < P, f / bp.params.nBuffersPerSlab ≠ bp.nSlabs - 2 * p - 2 := by
  have hbp := start_bp hfresh h2P hF hinit
  have hport := start_port hfresh h2P hF hinit
  have hB := hfresh.perSlab_pos
  have hframe : bp'.frame = bp.frame := Bpool.frame_congr (by rw [hbp])
  have hslab : f / bp.params.nBuffersPerSlab < bp.nSlabs :=
    Nat.div_lt_of_lt_mul (by rwa [Nat.mul_comm])
  have hmod : f % bp.params.nBuffersPerSlab < bp.params.nBuffersPerSlab := Nat.mod_lt f hB
  have hsplit : f / bp.params.nBuffersPerSlab * bp.params.nBuffersPerSlab +
      f % bp.params.nBuffersPerSlab = f := by rw [Nat.mul_comm]; exact Nat.div_add_mod f _
  constructor
  · rintro ⟨y, hy⟩ p hp
    obtain ⟨z, rfl⟩ := exists_toPlace (N := bp.nSlabs - 2 * P) (by simp [PoolNode.start, hbp]) hy
    rw [← Multiset.mem_coe, ← family_eq_framesAt] at hy
    rcases z with x | b
    · obtain ⟨hdiv, hlt⟩ := mem_start_contents hfresh h2P hF hinit hy
      cases x with
      | slab i =>
        simp only [rackOf, hbp, hfresh.slabs_eq] at hdiv
        omega
      | cons q =>
        simp only [rackOf, hport] at hdiv
        omega
      | prod q =>
        -- a producer slab starts empty
        simp only [rackOf, hport] at hlt
        omega
    · rcases start_held bp' ports b with ⟨q, rfl, hfill⟩ | hnil
      · have hdiv := (mem_start_fill hfresh h2P hF hinit (p := q) (by rwa [← hframe])).1
        omega
      · change f ∈ ((PoolNode.start Q bp' ports).held b).map _ at hy
        rw [hnil] at hy
        cases hy
  · intro h
    by_cases hpool : f / bp.params.nBuffersPerSlab < bp.nSlabs - 2 * P
    · refine ⟨.slab (f / bp.params.nBuffersPerSlab), ?_⟩
      simp only [PoolNode.framesAt, PoolNode.start, hbp, hpool, if_true]
      refine List.mem_map.2 ⟨f % bp.params.nBuffersPerSlab, List.mem_range.2 hmod, ?_⟩
      show bp.frame _ = f
      rw [hfresh.slabs_eq, hfresh.frame_buffers, hsplit]
    · -- counted from the end, consumer and producer slabs alternate
      obtain ⟨p, hp | hp⟩ := Nat.even_or_odd' (bp.nSlabs - 1 - f / bp.params.nBuffersPerSlab)
      · have hcons : bp.nSlabs - 2 * p - 1 = f / bp.params.nBuffersPerSlab := by omega
        by_cases hlow : f % bp.params.nBuffersPerSlab <
            bp.params.nBuffersPerSlab - bp.params.fillSize
        · refine ⟨.slabCons ⟨p, by omega⟩, ?_⟩
          simp only [PoolNode.framesAt, PoolNode.start, hbp, hport]
          refine List.mem_map.2 ⟨f % bp.params.nBuffersPerSlab, List.mem_range.2 hlow, ?_⟩
          show bp.frame _ = f
          rw [hfresh.frame_buffers, hcons, hsplit]
        · refine ⟨.box (.port .umemFq ⟨p, by omega⟩), ?_⟩
          simp only [PoolNode.framesAt, PoolNode.start, hframe, hport, List.map_map]
          refine List.mem_map.2 ⟨bp.params.nBuffersPerSlab - 1 - f % bp.params.nBuffersPerSlab,
            List.mem_range.2 (by omega), ?_⟩
          rw [comp_apply, hfresh.frame_buffers, hcons]
          omega
      · exact absurd (by omega) (h p (by omega))

end Start

/-- **Which frames the set-up keeps**: all of them only if there is no port; in general those
outside the producer slabs. -/
theorem kept_iff {params : BpoolParams} {sysOk : Bool} {sockOk : ℕ → Bool}
    {bp bp' : Bpool} {ports : ℕ → PortInit}
    (hF : params.fillSize ≤ params.nBuffersPerSlab)
    (hbp : bpoolInit params sysOk = .ok (some bp))
    (hports : initPorts bp sockOk P = .ok (bp', some ports)) :
    ((∀ i < bp.params.nBuffers, (PoolNode.start Q bp' ports : PoolNode P Q).Kept
        (i * bp.params.bufferSize)) ↔ P = 0) ∧
    ∀ i < bp.params.nBuffers,
      ((PoolNode.start Q bp' ports : PoolNode P Q).Kept (i * bp.params.bufferSize) ↔
        ∀ p < P, i / bp.params.nBuffersPerSlab ≠ bp.nSlabs - 2 * p - 2) := by
  obtain ⟨hfresh, hper, hfill⟩ := bpoolInit_fresh hbp
  rw [← hper, ← hfill] at hF
  have hB := hfresh.perSlab_pos
  have h2P : 2 * P ≤ bp.nSlabs := by
    rw [← hfresh.avail_eq]
    exact two_mul_le_of_initPorts hfresh.avail_eq.le hB hF hports
  have hn : bp.params.nBuffers = bp.nSlabs * bp.params.nBuffersPerSlab := bpoolInit_nBuffers hbp
  have hone : ∀ i < bp.params.nBuffers,
      ((PoolNode.start Q bp' ports : PoolNode P Q).Kept (i * bp.params.bufferSize) ↔
        ∀ p < P, i / bp.params.nBuffersPerSlab ≠ bp.nSlabs - 2 * p - 2) := by
    intro i hi
    rw [start_kept_iff hfresh h2P hF hports, mem_start_iff hfresh h2P hF hports (by rwa [← hn])]
  refine ⟨⟨fun h => ?_, ?_⟩, hone⟩
  · -- the first frame of the first producer slab
    by_contra hP
    have hlt : (bp.nSlabs - 2) * bp.params.nBuffersPerSlab < bp.params.nBuffers := by
      rw [hn]
      exact Nat.mul_lt_mul_of_pos_right (by omega) hB
    refine (hone _ hlt).1 (h _ hlt) 0 (Nat.pos_of_ne_zero hP) ?_
    rw [Nat.mul_div_cancel _ hB]
    rfl
  · rintro rfl i hi
    exact (hone i hi).2 fun p hp => absurd hp (Nat.not_lt_zero p)

/-- Five slabs of twenty frames and one port. -/
theorem kept_iff_one_port : ∃ bp bp' ports,
    bpoolInit ⟨100, 4096, 20, 20, 20⟩ true = .ok (some bp) ∧
    initPorts bp (fun _ => true) 1 = .ok (bp', some ports) ∧
    ((∀ i < bp.params.nBuffers, (PoolNode.start 1 bp' ports : PoolNode 1 1).Kept
        (i * bp.params.bufferSize)) ↔ 1 = 0) ∧
    ∀ i < bp.params.nBuffers,
      ((PoolNode.start 1 bp' ports : PoolNode 1 1).Kept (i * bp.params.bufferSize) ↔
        ∀ p < 1, i / bp.params.nBuffersPerSlab ≠ bp.nSlabs - 2 * p - 2) := by
  refine ⟨_, _, _, rfl, rfl, ?_⟩
  exact kept_iff (by decide) (rfl : bpoolInit ⟨100, 4096, 20, 20, 20⟩ true = _)
    (rfl : initPorts _ (fun _ => true) 1 = _)

/-- With the shipped sizes, the frame at address `30 * 4096 * 4096`, the first one of the producer
slab of the first port, is nowhere after the set-up. -/
theorem default_pool_leaks : ∃ bp bp' ports,
    bpoolInit bpoolParamsDefault true = .ok (some bp) ∧
    initPorts bp (fun _ => true) 1 = .ok (bp', some ports) ∧
    30 * 4096 < bp.params.nBuffers ∧
    ∀ x, 30 * 4096 * bp.params.bufferSize ∉
      (PoolNode.start 1 bp' ports : PoolNode 1 1).addrsAt x := by
  obtain ⟨bp, hbp, hparams, hslabs, havail⟩ := bpoolInit_default
  obtain ⟨hfresh, -, -⟩ := bpoolInit_fresh hbp
  have hB : bp.params.nBuffersPerSlab = 4096 := by rw [hparams]; rfl
  have hF : bp.params.fillSize ≤ bp.params.nBuffersPerSlab := by rw [hparams]; decide
  have h2P : 2 * 1 ≤ bp.nSlabs := by omega
  obtain ⟨bp', ports, hports⟩ := initPorts_ok (n := 1) (by omega) (by omega) (by omega) hF
  refine ⟨bp, bp', ports, hbp, hports, by rw [hparams]; decide, fun x hx => ?_⟩
  rw [start_addrsAt hfresh h2P hF hports] at hx
  have hmem : 30 * 4096 ∈ (PoolNode.start 1 bp' ports : PoolNode 1 1).framesAt x := by
    obtain ⟨f, hf, heq⟩ := List.mem_map.1 hx
    rwa [← Nat.eq_of_mul_eq_mul_right hfresh.size_pos heq]
  have hnot := (mem_start_iff hfresh h2P hF hports (by rw [hslabs, hB]; decide)).1 ⟨x, hmem⟩
  refine hnot 0 Nat.one_pos ?_
  rw [hB, hslabs]

end RotorXdp
