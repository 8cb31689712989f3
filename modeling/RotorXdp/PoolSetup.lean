import RotorXdp.Mempool
import Mathlib.Data.List.Basic
import Mathlib.Data.List.Range

/-!
# The set-up of the pool

What `bpool_init` and the calls of `port_init` leave, in closed form.

* `portAt`, `portInit_eq`, `initPorts_eq`: the ports, two slabs each;
* `initPorts_ok`, `two_mul_le_of_initPorts`: the loop succeeds with two slabs for each port only;
* `Bpool.Fresh`, `bpoolInit_fresh`: the pool before the first port.
-/

namespace RotorXdp

open Function

theorem fillAddrs_eq (bp : Bpool) (b : Bcache) {k : ℕ} (hk : k ≤ b.nBuffersCons) :
    fillAddrs bp k b = .ok ((List.range k).map fun e => bp.buffers b.slabCons
      (b.nBuffersCons - 1 - e), { b with nBuffersCons := b.nBuffersCons - k }) := by
  induction k generalizing b with
  | zero => rfl
  | succ k ih =>
    rw [fillAddrs, bcacheCons, if_neg (by omega)]
    have hidx : ∀ e, b.nBuffersCons - 1 - 1 - e = b.nBuffersCons - 1 - (e + 1) := by omega
    have hlast : b.nBuffersCons - 1 - k = b.nBuffersCons - (k + 1) := by omega
    simp only
    rw [ih _ (by simp only; omega), List.range_succ_eq_map]
    simp only [List.map_cons, List.map_map, Nat.sub_zero, comp_def, Nat.succ_eq_add_one, hidx,
      hlast]

/-- The port that the `i`-th call of `port_init` sets up. -/
def portAt (bp : Bpool) (i : ℕ) : PortInit where
  bc :=
    { slabCons := bp.slabs (bp.nSlabsAvailable - 2 * i - 1)
      slabProd := bp.slabs (bp.nSlabsAvailable - 2 * i - 2)
      nBuffersCons := bp.params.nBuffersPerSlab - bp.params.fillSize
      nBuffersProd := 0 }
  umemFq := (List.range bp.params.fillSize).map fun e =>
    bp.buffers (bp.slabs (bp.nSlabsAvailable - 2 * i - 1)) (bp.params.nBuffersPerSlab - 1 - e)

/-- `port_init` with at least two slabs left succeeds exactly when the socket is created. -/
theorem portInit_eq (bp : Bpool) (h2 : 2 ≤ bp.nSlabsAvailable) (hs : bp.nSlabsAvailable ≤ bp.nSlabs)
    (hB : 0 < bp.params.nBuffersPerSlab) (hF : bp.params.fillSize ≤ bp.params.nBuffersPerSlab)
    (sockOk : Bool) :
    portInit bp sockOk = .ok (if sockOk then
      ({ bp with nSlabsAvailable := bp.nSlabsAvailable - 2 }, some (portAt bp 0))
      else (bp, none)) := by
  have hcheck : ∀ b : Bcache, b.nBuffersCons = bp.params.nBuffersPerSlab →
      bcacheConsCheck { bp with nSlabsAvailable := bp.nSlabsAvailable - 2 } b bp.params.fillSize
        = .ok (bp.params.fillSize, { bp with nSlabsAvailable := bp.nSlabsAvailable - 2 }, b) := by
    intro b hb
    rw [bcacheConsCheck, if_pos (by omega), if_neg (by omega)]
  have hback : bcacheFree { bp with nSlabsAvailable := bp.nSlabsAvailable - 2 }
      (some (portAt bp 0).bc) = bp := by
    simp only [bcacheFree]; congr 1; omega
  rw [portInit, bcacheInit, if_neg (by omega), if_neg (by omega)]
  simp only
  rw [if_neg (by omega), hcheck _ rfl]
  simp only [lt_irrefl, if_false]
  cases sockOk with
  | false =>
    simp only [if_true, Bool.false_eq_true, if_false]
    rw [← hback]; rfl
  | true =>
    rw [if_neg (by simp), fillAddrs_eq _ _ hF]
    rfl

/-- The loop over the ports, when it succeeds. -/
theorem initPorts_eq {bp bp' : Bpool} {ports : ℕ → PortInit} {sockOk : ℕ → Bool} {n : ℕ}
    (h2 : 2 * n ≤ bp.nSlabsAvailable) (hs : bp.nSlabsAvailable ≤ bp.nSlabs)
    (hB : 0 < bp.params.nBuffersPerSlab) (hF : bp.params.fillSize ≤ bp.params.nBuffersPerSlab)
    (h : initPorts bp sockOk n = .ok (bp', some ports)) :
    bp' = { bp with nSlabsAvailable := bp.nSlabsAvailable - 2 * n } ∧
      ∀ i < n, ports i = portAt bp i := by
  induction n generalizing bp' ports with
  | zero =>
    rw [initPorts] at h
    cases h
    exact ⟨rfl, by omega⟩
  | succ n ih =>
    rw [initPorts] at h
    split at h
    · cases h
    · cases h
    · rename_i bp₁ ports₁ hrec
      obtain ⟨rfl, hports⟩ := ih (by omega) hrec
      rw [portInit_eq { bp with nSlabsAvailable := bp.nSlabsAvailable - 2 * n }
        (by simp only; omega) (by simp only; omega) hB hF] at h
      cases hok : sockOk n with
      | false => simp [hok] at h
      | true =>
        simp only [hok, if_true, Except.ok.injEq, Prod.mk.injEq, Option.some.injEq] at h
        obtain ⟨rfl, rfl⟩ := h
        refine ⟨by congr 1, fun i hi => ?_⟩
        rcases Nat.lt_succ_iff_lt_or_eq.1 hi with hlt | rfl
        · rw [update_of_ne (by omega), hports i hlt]
        · rw [update_self]
          rfl

theorem two_le_of_portInit {bp bp' : Bpool} {ok : Bool} {p : PortInit}
    (h : portInit bp ok = .ok (bp', some p)) : 2 ≤ bp.nSlabsAvailable := by
  by_cases h0 : bp.nSlabsAvailable = 0
  · rw [portInit, bcacheInit, if_pos h0] at h
    exact absurd h (by simp)
  · by_cases h1 : bp.nSlabsAvailable = 1
    · rw [portInit, bcacheInit, if_neg h0, if_pos (.inl h1)] at h
      exact absurd h (by simp)
    · omega

theorem two_mul_le_of_initPorts {bp bp' : Bpool} {ports : ℕ → PortInit} {sockOk : ℕ → Bool} {n : ℕ}
    (hs : bp.nSlabsAvailable ≤ bp.nSlabs) (hB : 0 < bp.params.nBuffersPerSlab)
    (hF : bp.params.fillSize ≤ bp.params.nBuffersPerSlab)
    (h : initPorts bp sockOk n = .ok (bp', some ports)) : 2 * n ≤ bp.nSlabsAvailable := by
  induction n generalizing bp' ports with
  | zero => exact Nat.zero_le _
  | succ n ih =>
    rw [initPorts] at h
    split at h
    · cases h
    · cases h
    · rename_i bp₁ ports₁ hrec
      have hle := ih hrec
      obtain ⟨rfl, -⟩ := initPorts_eq hle hs hB hF hrec
      split at h
      · cases h
      · cases h
      · rename_i bp₂ p hport
        have h2 := two_le_of_portInit hport
        simp only at h2
        omega

theorem fillSize_le_of_portInit {bp bp' : Bpool} {ok : Bool} {p : PortInit}
    (h : portInit bp ok = .ok (bp', some p)) : bp.params.fillSize ≤ bp.params.nBuffersPerSlab := by
  have h2 := two_le_of_portInit h
  by_cases hs : bp.nSlabs < bp.nSlabsAvailable
  · rw [portInit, bcacheInit, if_neg (by omega), if_pos (.inr hs)] at h
    exact absurd h (by simp)
  · by_contra hF
    rw [portInit, bcacheInit, if_neg (by omega), if_neg (by omega)] at h
    simp only at h
    rw [if_pos (by omega)] at h
    exact absurd h (by simp)

/-- The loop has gone through every shorter loop. -/
theorem initPorts_one {bp bp' : Bpool} {ports : ℕ → PortInit} {sockOk : ℕ → Bool} {n : ℕ}
    (h : initPorts bp sockOk (n + 1) = .ok (bp', some ports)) :
    ∃ bp₁ p, portInit bp (sockOk 0) = .ok (bp₁, some p) := by
  induction n generalizing bp' ports with
  | zero =>
    simp only [initPorts] at h
    split at h
    · cases h
    · cases h
    · rename_i bp₁ p hport
      exact ⟨bp₁, p, hport⟩
  | succ n ih =>
    rw [initPorts] at h
    split at h
    · cases h
    · cases h
    · rename_i bp₁ ports₁ hrec
      exact ih hrec

theorem fillSize_le_of_initPorts {bp bp' : Bpool} {ports : ℕ → PortInit} {sockOk : ℕ → Bool}
    {n : ℕ} (hn : 0 < n) (h : initPorts bp sockOk n = .ok (bp', some ports)) :
    bp.params.fillSize ≤ bp.params.nBuffersPerSlab := by
  obtain ⟨m, rfl⟩ := Nat.exists_eq_succ_of_ne_zero hn.ne'
  obtain ⟨bp₁, p, hport⟩ := initPorts_one h
  exact fillSize_le_of_portInit hport

/-- With two slabs for each port and all sockets created, the loop succeeds. -/
theorem initPorts_ok {bp : Bpool} {n : ℕ} (h2 : 2 * n ≤ bp.nSlabsAvailable)
    (hs : bp.nSlabsAvailable ≤ bp.nSlabs) (hB : 0 < bp.params.nBuffersPerSlab)
    (hF : bp.params.fillSize ≤ bp.params.nBuffersPerSlab) :
    ∃ bp' ports, initPorts bp (fun _ => true) n = .ok (bp', some ports) := by
  induction n with
  | zero => exact ⟨_, _, rfl⟩
  | succ n ih =>
    obtain ⟨bp₁, ports₁, hrec⟩ := ih (by omega)
    obtain ⟨rfl, -⟩ := initPorts_eq (by omega) hs hB hF hrec
    have hport := portInit_eq { bp with nSlabsAvailable := bp.nSlabsAvailable - 2 * n }
      (by simp only; omega) (by simp only; omega) hB hF true
    rw [if_pos rfl] at hport
    simp only [initPorts, hrec, hport]
    exact ⟨_, _, rfl⟩

/-- A pool as `bpool_init` leaves it. -/
structure Bpool.Fresh (bp : Bpool) : Prop where
  slabs_eq : ∀ i, bp.slabs i = i
  buffers_eq : ∀ s e, bp.buffers s e = (s * bp.params.nBuffersPerSlab + e) * bp.params.bufferSize
  avail_eq : bp.nSlabsAvailable = bp.nSlabs
  perSlab_pos : 0 < bp.params.nBuffersPerSlab
  size_pos : 0 < bp.params.bufferSize

theorem bpoolInit_fresh {params : BpoolParams} {sysOk : Bool} {bp : Bpool}
    (h : bpoolInit params sysOk = .ok (some bp)) :
    bp.Fresh ∧ bp.params.nBuffersPerSlab = params.nBuffersPerSlab ∧
      bp.params.fillSize = params.fillSize := by
  unfold bpoolInit at h
  by_cases hB : params.nBuffersPerSlab = 0
  · simp [hB] at h
  · rw [if_neg hB] at h
    simp only at h
    split at h
    · simp at h
    · rename_i hok
      simp only [not_or, Nat.mul_eq_zero] at hok
      simp only [Except.ok.injEq, Option.some.injEq] at h
      subst h
      exact ⟨⟨fun _ => rfl, fun _ _ => rfl, rfl, by simp only; omega, by simp only; omega⟩,
        rfl, rfl⟩

theorem bpoolInit_nBuffers {params : BpoolParams} {sysOk : Bool} {bp : Bpool}
    (h : bpoolInit params sysOk = .ok (some bp)) :
    bp.params.nBuffers = bp.nSlabs * bp.params.nBuffersPerSlab := by
  unfold bpoolInit at h
  split at h
  · exact absurd h (by simp)
  · simp only at h
    split at h
    · exact absurd h (by simp)
    · simp only [Except.ok.injEq, Option.some.injEq] at h
      subst h
      rfl

theorem bpoolInit_default : ∃ bp, bpoolInit bpoolParamsDefault true = .ok (some bp) ∧
    bp.params = bpoolParamsDefault ∧ bp.nSlabs = 32 ∧ bp.nSlabsAvailable = 32 := by
  unfold bpoolInit
  rw [if_neg (by decide)]
  simp only
  rw [if_neg (by decide)]
  exact ⟨_, rfl, rfl, rfl, rfl⟩

end RotorXdp
