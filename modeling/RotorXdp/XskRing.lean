import Mathlib.Algebra.Ring.Nat

/-!
# AF_XDP rings

`lib/xdp-tools/headers/xdp/xsk.h`: the user side of the four rings. Producer and consumer are
free-running 32-bit counters shared with the kernel, of which the user keeps cached copies; on a
producer ring `cached_cons` is kept `size` above the consumer. The ring entries themselves play no
part in the counting.

* `xskRingProdReserve`, `xskRingProdSubmit`, `xskRingConsPeek`, `xskRingConsRelease`;
* `ProdOk`, `ConsOk`: what the counters say about the number of entries in use, for as long as the
  ring lives and however often they wrap.
-/

namespace RotorXdp

/-- `struct xsk_ring_prod` and `struct xsk_ring_cons` with the shared counters they point to. -/
structure XskRing where
  cachedProd : BitVec 32
  cachedCons : BitVec 32
  size : BitVec 32
  producer : BitVec 32
  consumer : BitVec 32

/-- A producer ring after `xsk_socket__create_shared`. -/
def XskRing.initProd (size : BitVec 32) : XskRing := ⟨0, size, size, 0, 0⟩

/-- A consumer ring after `xsk_socket__create_shared`. -/
def XskRing.initCons (size : BitVec 32) : XskRing := ⟨0, 0, size, 0, 0⟩

/-- `xsk_prod_nb_free`: the cached copy is refreshed only when it does not grant `nb` entries. -/
def xskProdNbFree (r : XskRing) (nb : BitVec 32) : BitVec 32 × XskRing :=
  let freeEntries := r.cachedCons - r.cachedProd
  if nb ≤ freeEntries then (freeEntries, r)
  else
    let cachedCons := r.consumer + r.size
    (cachedCons - r.cachedProd, { r with cachedCons := cachedCons })

/-- `xsk_ring_prod__reserve`: the number of entries reserved, all or none. -/
def xskRingProdReserve (r : XskRing) (nb : BitVec 32) : BitVec 32 × XskRing :=
  let (free, r) := xskProdNbFree r nb
  if free < nb then (0#32, r) else (nb, { r with cachedProd := r.cachedProd + nb })

/-- `xsk_ring_prod__submit`. -/
def xskRingProdSubmit (r : XskRing) (nb : BitVec 32) : XskRing :=
  { r with producer := r.producer + nb }

/-- `xsk_cons_nb_avail`. -/
def xskConsNbAvail (r : XskRing) (nb : BitVec 32) : BitVec 32 × XskRing :=
  let entries := r.cachedProd - r.cachedCons
  let (entries, r) :=
    if entries = 0#32 then (r.producer - r.cachedCons, { r with cachedProd := r.producer })
    else (entries, r)
  (if nb < entries then nb else entries, r)

/-- `xsk_ring_cons__peek`. -/
def xskRingConsPeek (r : XskRing) (nb : BitVec 32) : BitVec 32 × XskRing :=
  let (entries, r) := xskConsNbAvail r nb
  (entries, { r with cachedCons := r.cachedCons + entries })

/-- `xsk_ring_cons__release`. -/
def xskRingConsRelease (r : XskRing) (nb : BitVec 32) : XskRing :=
  { r with consumer := r.consumer + nb }

/-- The kernel's view: entries between the two shared counters. -/
def XskRing.pending (r : XskRing) : ℕ := (r.producer - r.consumer).toNat

/-- The kernel consumes an entry of a producer ring. -/
def XskRing.kernelConsume (r : XskRing) : XskRing := { r with consumer := r.consumer + 1#32 }

/-- The kernel publishes an entry on a consumer ring. -/
def XskRing.kernelProduce (r : XskRing) : XskRing := { r with producer := r.producer + 1#32 }

/-- Differences of wrapping counters are the differences before wrapping. -/
theorem toNat_ofNat_add_sub {a b : ℕ} {s : BitVec 32} (hab : a ≤ b) (hb : b ≤ a + s.toNat) :
    (BitVec.ofNat 32 a + s - BitVec.ofNat 32 b).toNat = a + s.toNat - b := by
  have hs := s.isLt
  simp only [BitVec.toNat_sub, BitVec.toNat_add, BitVec.toNat_ofNat]
  omega

theorem toNat_ofNat_sub {a b : ℕ} (hab : b ≤ a) (hlt : a - b < 2 ^ 32) :
    (BitVec.ofNat 32 a - BitVec.ofNat 32 b).toNat = a - b := by
  simp only [BitVec.toNat_sub, BitVec.toNat_ofNat]
  omega

/-! ### Producer rings -/

/-- Between calls, `used` entries of a producer ring hold descriptors the kernel has not taken.
`cons` and `old` are the consumer counter and its cached copy before wrapping. -/
def ProdOk (size : BitVec 32) (r : XskRing) (used : ℕ) : Prop :=
  r.size = size ∧ ∃ old cons : ℕ, old ≤ cons ∧ cons + used ≤ old + size.toNat ∧
    r.producer = BitVec.ofNat 32 (cons + used) ∧ r.cachedProd = BitVec.ofNat 32 (cons + used) ∧
    r.consumer = BitVec.ofNat 32 cons ∧ r.cachedCons = BitVec.ofNat 32 old + size

variable {size : BitVec 32} {r : XskRing} {used unread : ℕ}

theorem ProdOk.init (size : BitVec 32) : ProdOk size (XskRing.initProd size) 0 :=
  ⟨rfl, 0, 0, Nat.le_refl _, by simp, rfl, rfl, rfl, by simp [XskRing.initProd]⟩

theorem ProdOk.le_size (h : ProdOk size r used) : used ≤ size.toNat := by
  obtain ⟨-, old, cons, hle, hsize, -⟩ := h
  omega

theorem ProdOk.pending_eq (h : ProdOk size r used) : r.pending = used := by
  have hle := h.le_size
  have hs := size.isLt
  obtain ⟨-, old, cons, -, -, hp, -, hc, -⟩ := h
  rw [XskRing.pending, hp, hc, toNat_ofNat_sub (by omega) (by omega)]
  omega

theorem ProdOk.kernelConsume (h : ProdOk size r (used + 1)) : ProdOk size r.kernelConsume used := by
  obtain ⟨hsz, old, cons, hle, hsize, hp, hcp, hc, hcc⟩ := h
  have hone : BitVec.ofNat 32 cons + 1#32 = BitVec.ofNat 32 (cons + 1) := by
    rw [BitVec.ofNat_add]
  refine ⟨hsz, old, cons + 1, by omega, by omega, ?_, ?_, ?_, hcc⟩
  · rw [XskRing.kernelConsume, hp]; congr 1; omega
  · rw [XskRing.kernelConsume, hcp]; congr 1; omega
  · rw [XskRing.kernelConsume, hc, hone]

/-- `xsk_ring_prod__reserve` followed by `xsk_ring_prod__submit` succeeds exactly when there is
room. -/
theorem ProdOk.reserve (h : ProdOk size r used) {n : ℕ} (hn : n < 2 ^ 32) :
    if used + n ≤ size.toNat then
      (xskRingProdReserve r (BitVec.ofNat 32 n)).1 = BitVec.ofNat 32 n ∧
        ProdOk size (xskRingProdSubmit (xskRingProdReserve r (BitVec.ofNat 32 n)).2
          (BitVec.ofNat 32 n)) (used + n)
    else
      (xskRingProdReserve r (BitVec.ofNat 32 n)).1 ≠ BitVec.ofNat 32 n ∧
        ProdOk size (xskRingProdReserve r (BitVec.ofNat 32 n)).2 used := by
  have hle := h.le_size
  have hs := size.isLt
  obtain ⟨hsz, old, cons, hold, hsize, hp, hcp, hc, hcc⟩ := h
  have hnat : (BitVec.ofNat 32 n).toNat = n := by simp; omega
  have hcached : (r.cachedCons - r.cachedProd).toNat = old + size.toNat - (cons + used) := by
    rw [hcc, hcp, toNat_ofNat_add_sub (by omega) hsize]
  have hfresh : (r.consumer + r.size - r.cachedProd).toNat = size.toNat - used := by
    rw [hsz, hc, hcp, toNat_ofNat_add_sub (by omega) (by omega)]; omega
  have hsum : BitVec.ofNat 32 (cons + used) + BitVec.ofNat 32 n
      = BitVec.ofNat 32 (cons + (used + n)) := by
    rw [← BitVec.ofNat_add, Nat.add_assoc]
  by_cases hfast : n ≤ old + size.toNat - (cons + used)
  · -- the cached copy grants the entries
    have hres : xskRingProdReserve r (BitVec.ofNat 32 n)
        = (BitVec.ofNat 32 n, { r with cachedProd := r.cachedProd + BitVec.ofNat 32 n }) := by
      have h1 : BitVec.ofNat 32 n ≤ r.cachedCons - r.cachedProd := by
        rw [BitVec.le_def, hnat, hcached]; exact hfast
      simp only [xskRingProdReserve, xskProdNbFree, if_pos h1]
      rw [if_neg (by rw [BitVec.lt_def, hnat, hcached]; omega)]
    rw [if_pos (by omega), hres]
    refine ⟨rfl, hsz, old, cons, hold, by omega, ?_, ?_, hc, hcc⟩
    · simp only [xskRingProdSubmit, hp, hsum]
    · simp only [xskRingProdSubmit, hcp, hsum]
  · have hslow : ¬ BitVec.ofNat 32 n ≤ r.cachedCons - r.cachedProd := by
      rw [BitVec.le_def, hnat, hcached]; exact hfast
    by_cases hroom : used + n ≤ size.toNat
    · have hres : xskRingProdReserve r (BitVec.ofNat 32 n) = (BitVec.ofNat 32 n,
          { r with
            cachedCons := r.consumer + r.size
            cachedProd := r.cachedProd + BitVec.ofNat 32 n }) := by
        simp only [xskRingProdReserve, xskProdNbFree, if_neg hslow]
        rw [if_neg (by rw [BitVec.lt_def, hnat, hfresh]; omega)]
      rw [if_pos hroom, hres]
      refine ⟨rfl, hsz, cons, cons, Nat.le_refl _, by omega, ?_, ?_, hc, ?_⟩
      · simp only [xskRingProdSubmit, hp, hsum]
      · simp only [xskRingProdSubmit, hcp, hsum]
      · simp only [xskRingProdSubmit, hc, hsz]
    · have hres : xskRingProdReserve r (BitVec.ofNat 32 n)
          = (0#32, { r with cachedCons := r.consumer + r.size }) := by
        simp only [xskRingProdReserve, xskProdNbFree, if_neg hslow]
        rw [if_pos (by rw [BitVec.lt_def, hnat, hfresh]; omega)]
      rw [if_neg hroom, hres]
      refine ⟨fun h0 => ?_, hsz, cons, cons, Nat.le_refl _, by omega, hp, hcp, hc, by rw [hc, hsz]⟩
      have := congrArg BitVec.toNat h0
      rw [hnat] at this
      simp only [BitVec.toNat_zero] at this
      omega

/-! ### Consumer rings -/

/-- Between calls, `unread` entries of a consumer ring are published and not yet read, and the
user has read all it has seen. -/
def ConsOk (size : BitVec 32) (r : XskRing) (unread : ℕ) : Prop :=
  r.size = size ∧ ∃ cons : ℕ, unread ≤ size.toNat ∧ r.producer = BitVec.ofNat 32 (cons + unread) ∧
    r.consumer = BitVec.ofNat 32 cons ∧ r.cachedCons = BitVec.ofNat 32 cons ∧
    r.cachedProd = BitVec.ofNat 32 cons

theorem ConsOk.init (size : BitVec 32) : ConsOk size (XskRing.initCons size) 0 :=
  ⟨rfl, 0, Nat.zero_le _, rfl, rfl, rfl, rfl⟩

theorem ConsOk.le_size (h : ConsOk size r unread) : unread ≤ size.toNat := by
  obtain ⟨-, cons, hle, -⟩ := h
  exact hle

theorem ConsOk.pending_eq (h : ConsOk size r unread) : r.pending = unread := by
  have hs := size.isLt
  obtain ⟨-, cons, hle, hp, hc, -, -⟩ := h
  rw [XskRing.pending, hp, hc, toNat_ofNat_sub (by omega) (by omega)]
  omega

theorem ConsOk.kernelProduce (h : ConsOk size r unread) (hroom : unread < size.toNat) :
    ConsOk size r.kernelProduce (unread + 1) := by
  obtain ⟨hsz, cons, hle, hp, hc, hcc, hcp⟩ := h
  have hone : BitVec.ofNat 32 (cons + unread) + 1#32 = BitVec.ofNat 32 (cons + (unread + 1)) := by
    rw [← Nat.add_assoc, ← BitVec.ofNat_add]
  refine ⟨hsz, cons, hroom, ?_, hc, hcc, hcp⟩
  rw [XskRing.kernelProduce, hp, hone]

/-- A peek at the whole ring followed by the release reads every published entry. -/
theorem ConsOk.drain (h : ConsOk size r unread) :
    (xskRingConsPeek r size).1 = BitVec.ofNat 32 unread ∧
      ConsOk size (xskRingConsRelease (xskRingConsPeek r size).2 (xskRingConsPeek r size).1) 0 := by
  have hs := size.isLt
  obtain ⟨hsz, cons, hle, hp, hc, hcc, hcp⟩ := h
  have hzero : r.cachedProd - r.cachedCons = 0#32 := by rw [hcc, hcp, BitVec.sub_self]
  have hdiff : r.producer - r.cachedCons = BitVec.ofNat 32 unread := by
    apply BitVec.eq_of_toNat_eq
    rw [hp, hcc, toNat_ofNat_sub (by omega) (by omega)]
    simp only [BitVec.toNat_ofNat]
    omega
  have hmin : ¬ size < BitVec.ofNat 32 unread := by
    rw [BitVec.lt_def]; simp only [BitVec.toNat_ofNat]; omega
  have hpeek : xskRingConsPeek r size = (BitVec.ofNat 32 unread,
      { r with
        cachedProd := r.producer
        cachedCons := r.cachedCons + BitVec.ofNat 32 unread }) := by
    simp only [xskRingConsPeek, xskConsNbAvail, hzero, if_true, hdiff, if_neg hmin]
  rw [hpeek]
  refine ⟨rfl, hsz, cons + unread, Nat.zero_le _, hp, ?_, ?_, hp⟩
  · simp only [xskRingConsRelease, hc, BitVec.ofNat_add]
  · simp only [xskRingConsRelease, hcc, BitVec.ofNat_add]

end RotorXdp
