import RotorXdp.PoolSetup

/-!
# What a failed `port_init` leaves of the pool

`port_init` takes two slabs before it knows whether it will succeed, and `bcache_free` gives them
back by raising the counter of the pool: the entries above the counter still point to them.

* `Bpool.Ready`: the pools that `port_init` may be handed;
* `portInit_cases`: what it does with them, with the ways in which it fails;
* `AllOrNothing`: a failure changes nothing, a success takes two slabs;
* `allOrNothing_iff`: the levels of the pool at which that holds.
-/

namespace RotorXdp

/-- A pool of `bpool_init`, at any level and with any slab contents. -/
structure Bpool.Ready (bp : Bpool) : Prop where
  /-- `bpool_init` divides by the size of a slab -/
  perSlab_pos : 0 < bp.params.nBuffersPerSlab
  avail_le : bp.nSlabsAvailable ≤ bp.nSlabs
  slabs_inj : ∀ i < bp.nSlabsAvailable, ∀ j < bp.nSlabsAvailable, bp.slabs i = bp.slabs j → i = j

/-- The slabs that the pool has left. -/
def Bpool.available (bp : Bpool) : List ℕ := (List.range bp.nSlabsAvailable).map bp.slabs

/-- `port_init` changes nothing in the pool when it returns `NULL`, and moves two slabs of the pool
to the new cache when it does not. -/
structure AllOrNothing (bp : Bpool) (sockOk : Bool) : Prop where
  returns : ∃ r, portInit bp sockOk = .ok r
  failure : ∀ bp', portInit bp sockOk = .ok (bp', none) →
    bp'.nSlabsAvailable = bp.nSlabsAvailable ∧ ∀ i < bp.nSlabsAvailable, bp'.slabs i = bp.slabs i
  success : ∀ bp' p, portInit bp sockOk = .ok (bp', some p) →
    bp'.nSlabsAvailable + 2 = bp.nSlabsAvailable ∧ p.bc.slabCons ≠ p.bc.slabProd ∧
      bp.available.Perm (p.bc.slabCons :: p.bc.slabProd :: bp'.available)

variable {bp bp' : Bpool} {sockOk : Bool}

/-- What `port_init` does, by the check at which it stops. -/
theorem Bpool.Ready.portInit_cases (h : bp.Ready) (sockOk : Bool) :
    (bp.nSlabsAvailable = 0 ∧ portInit bp sockOk = .ok (bp, none)) ∨
    (bp.nSlabsAvailable = 1 ∧ portInit bp sockOk = .error .outOfBounds) ∨
    (2 ≤ bp.nSlabsAvailable ∧ bp.params.nBuffersPerSlab < bp.params.fillSize ∧
      portInit bp sockOk = .ok (bp, none)) ∨
    (2 ≤ bp.nSlabsAvailable ∧ sockOk = false ∧ portInit bp sockOk = .ok (bp, none)) ∨
    (2 ≤ bp.nSlabsAvailable ∧ portInit bp sockOk =
      .ok ({ bp with nSlabsAvailable := bp.nSlabsAvailable - 2 }, some (portAt bp 0))) := by
  have hle := h.avail_le
  by_cases h0 : bp.nSlabsAvailable = 0
  · left
    refine ⟨h0, ?_⟩
    rw [portInit, bcacheInit, if_pos h0]
  by_cases h1 : bp.nSlabsAvailable = 1
  · right; left
    refine ⟨h1, ?_⟩
    rw [portInit, bcacheInit, if_neg h0, if_pos (.inl h1)]
  have h2 : 2 ≤ bp.nSlabsAvailable := by omega
  by_cases hF : bp.params.nBuffersPerSlab < bp.params.fillSize
  · right; right; left
    refine ⟨h2, hF, ?_⟩
    rw [portInit, bcacheInit, if_neg h0, if_neg (by omega)]
    simp only [if_pos hF, bcacheFree, Nat.sub_add_cancel h2]
  · have heq := portInit_eq bp h2 hle h.perSlab_pos (Nat.le_of_not_lt hF) sockOk
    cases sockOk with
    | false => exact .inr (.inr (.inr (.inl ⟨h2, rfl, heq⟩)))
    | true => exact .inr (.inr (.inr (.inr ⟨h2, heq⟩)))

/-- The slabs above the new level. -/
theorem Bpool.available_eq (h2 : 2 ≤ bp.nSlabsAvailable) :
    bp.available = Bpool.available { bp with nSlabsAvailable := bp.nSlabsAvailable - 2 } ++
      [bp.slabs (bp.nSlabsAvailable - 2), bp.slabs (bp.nSlabsAvailable - 1)] := by
  obtain ⟨k, hk⟩ := Nat.exists_eq_add_of_le h2
  have hsub : bp.nSlabsAvailable - 2 = k := by omega
  have hlast : bp.nSlabsAvailable - 1 = k + 1 := by omega
  have hk' : bp.nSlabsAvailable = k + 2 := by omega
  simp only [available, hsub, hlast]
  rw [hk', List.range_succ, List.range_succ]
  simp

/-- `bcache_free` has undone what `bcache_init` did. -/
theorem AllOrNothing.of_failure (heq : portInit bp sockOk = .ok (bp, none)) :
    AllOrNothing bp sockOk := by
  refine ⟨⟨_, heq⟩, fun bp' h => ?_, fun bp' p h => ?_⟩
  · rw [heq] at h
    cases h
    exact ⟨rfl, fun i _ => rfl⟩
  · rw [heq] at h
    cases h

theorem Bpool.Ready.of_success (h : bp.Ready) (h2 : 2 ≤ bp.nSlabsAvailable)
    (heq : portInit bp sockOk =
      .ok ({ bp with nSlabsAvailable := bp.nSlabsAvailable - 2 }, some (portAt bp 0))) :
    AllOrNothing bp sockOk := by
  refine ⟨⟨_, heq⟩, fun bp' hp => ?_, fun bp' p hp => ?_⟩
  · rw [heq] at hp
    cases hp
  · rw [heq] at hp
    cases hp
    refine ⟨Nat.sub_add_cancel h2, fun hsame => ?_, ?_⟩
    · have hidx := h.slabs_inj _ (by omega) _ (by omega) hsame
      omega
    · rw [bp.available_eq h2]
      refine List.perm_append_comm.trans ?_
      exact List.Perm.swap _ _ _

/-- **`port_init` is all or nothing except on a pool with a single slab**, where the check for an
empty pool lets it through and it reads the entry before the first one. -/
theorem allOrNothing_iff (h : bp.Ready) (sockOk : Bool) :
    AllOrNothing bp sockOk ↔ bp.nSlabsAvailable ≠ 1 := by
  rcases h.portInit_cases sockOk with ⟨h0, heq⟩ | ⟨h1, heq⟩ | ⟨h2, -, heq⟩ | ⟨h2, -, heq⟩ |
    ⟨h2, heq⟩
  · exact iff_of_true (.of_failure heq) (by omega)
  · refine iff_of_false (fun hall => ?_) (not_not.2 h1)
    obtain ⟨r, hr⟩ := hall.returns
    rw [heq] at hr
    cases hr
  · exact iff_of_true (.of_failure heq) (by omega)
  · exact iff_of_true (.of_failure heq) (by omega)
  · exact iff_of_true (h.of_success h2 heq) (by omega)

/-- The pools that the set-up makes. -/
theorem Bpool.Fresh.ready (h : bp.Fresh) : bp.Ready where
  perSlab_pos := h.perSlab_pos
  avail_le := h.avail_eq.le
  slabs_inj i _ j _ hij := by rwa [h.slabs_eq, h.slabs_eq] at hij

/-- Five slabs, the socket of the first port not created. -/
theorem allOrNothing_five : ∃ bp, bpoolInit ⟨100, 4096, 20, 20, 20⟩ true = .ok (some bp) ∧
    (AllOrNothing bp false ↔ bp.nSlabsAvailable ≠ 1) := by
  refine ⟨_, rfl, ?_⟩
  exact allOrNothing_iff
    (bpoolInit_fresh (rfl : bpoolInit ⟨100, 4096, 20, 20, 20⟩ true = .ok (some _))).1.ready false

/-- Three slabs, one port set up: the next call reads outside the array. -/
theorem second_port_outside : ∃ bp bp' ports,
    bpoolInit ⟨60, 4096, 20, 20, 20⟩ true = .ok (some bp) ∧
    initPorts bp (fun _ => true) 1 = .ok (bp', some ports) ∧ bp'.nSlabsAvailable = 1 ∧
    portInit bp' true = .error .outOfBounds ∧ ¬ AllOrNothing bp' true := by
  refine ⟨_, _, _, rfl, rfl, rfl, rfl, fun h => ?_⟩
  obtain ⟨r, hr⟩ := h.returns
  cases hr

end RotorXdp
