import RotorXdp.Node
import RotorXdp.Lib.Slots

/-!
# The topology slot as a function of the clock

`read_time` for any setting of `slot_time_ns` and `cycle_time_ns`. The nodes have synchronised
clocks, so two of them read times that are close together.

* `readTimeAt`: the slot that `read_time` stores;
* `readTimeAt_eq_slotNumber`: it is the number of the slot in the cycle;
* `topo_agree`: clocks that differ by less than a slot agree up to one slot.
-/

namespace RotorXdp

open Slots

/-- `get_nsec`, in 64 bits. -/
def getNsec (sec nsec : ℤ) : ℕ := ((sec * 1000000000 + nsec) % 18446744073709551616).toNat

/-- `read_time`: the slot number, stored in 8 bits. -/
def readTimeAt (slotTimeNs cycleTimeNs : ℕ) (sec nsec : ℤ) : ℕ :=
  let timeIntoCycleNs := getNsec sec nsec % cycleTimeNs
  (timeIntoCycleNs / slotTimeNs + 1) % 256

/-- The shipped setting. -/
theorem readTime_eq (sec nsec : ℤ) : readTime sec nsec = readTimeAt 200000 6400000 sec nsec := rfl

/-- What `clock_gettime` returns, in the range of `get_nsec`. -/
structure ClockReading where
  sec : ℤ
  nsec : ℤ
  sec_nonneg : 0 ≤ sec
  nsec_nonneg : 0 ≤ nsec
  nsec_lt : nsec < 1000000000
  no_wrap : sec * 1000000000 + nsec < 18446744073709551616

/-- The reading in nanoseconds. -/
def ClockReading.ns (r : ClockReading) : ℕ := getNsec r.sec r.nsec

theorem ClockReading.ns_eq (r : ClockReading) : (r.ns : ℤ) = r.sec * 1000000000 + r.nsec := by
  have hsec := r.sec_nonneg
  have hnsec := r.nsec_nonneg
  have hlt := r.no_wrap
  rw [ns, getNsec, Int.emod_eq_of_lt (by omega) hlt, Int.toNat_of_nonneg (by omega)]

/-- With at most 255 slots in a cycle, 8 bits hold the number of the slot. -/
theorem readTimeAt_eq_slotNumber {slotTimeNs K : ℕ} (hK : 0 < K) (hK' : K ≤ 255) (sec nsec : ℤ) :
    readTimeAt slotTimeNs (K * slotTimeNs) sec nsec =
      slotNumber slotTimeNs K (getNsec sec nsec) := by
  have hrange := slotNumber_range (s := slotTimeNs) (t := getNsec sec nsec) hK
  simp only [readTimeAt]
  rw [slotNumber_of_cycle, Nat.mod_eq_of_lt (by omega)]

/-- **Nodes whose clocks differ by less than a slot agree on the topology up to one slot**, and
agree exactly when no slot begins between the two times. -/
theorem topo_agree {slotTimeNs cycleTimeNs K : ℕ} (hK : 2 ≤ K)
    (hK' : K ≤ 255) (hcycle : cycleTimeNs = K * slotTimeNs) (r₁ r₂ : ClockReading)
    (hle : r₁.ns ≤ r₂.ns) (hlt : r₂.ns - r₁.ns < slotTimeNs) :
    let topo₁ := readTimeAt slotTimeNs cycleTimeNs r₁.sec r₁.nsec
    let topo₂ := readTimeAt slotTimeNs cycleTimeNs r₂.sec r₂.nsec
    (1 ≤ topo₁ ∧ topo₁ ≤ K) ∧ (1 ≤ topo₂ ∧ topo₂ ≤ K) ∧
      (topo₂ = topo₁ ∨ topo₂ = cyclicSucc K topo₁) ∧
      (topo₂ = topo₁ ↔ ¬ ∃ k, r₁.ns < k * slotTimeNs ∧ k * slotTimeNs ≤ r₂.ns) := by
  have hpos : 0 < K := by omega
  simp only [hcycle, readTimeAt_eq_slotNumber hpos hK']
  refine ⟨slotNumber_range hpos, slotNumber_range hpos, ?_, ?_⟩
  · exact slotNumber_close hpos hle hlt
  · exact slotNumber_eq_iff hK hle hlt

/-- The last slot of the first cycle and the first slot of the next, with the shipped setting. -/
theorem topo_agree_shipped :
    let r₁ : ClockReading := ⟨0, 6399999, by decide, by decide, by decide, by decide⟩
    let r₂ : ClockReading := ⟨0, 6400000, by decide, by decide, by decide, by decide⟩
    let topo₁ := readTimeAt 200000 6400000 r₁.sec r₁.nsec
    let topo₂ := readTimeAt 200000 6400000 r₂.sec r₂.nsec
    topo₁ = 32 ∧ topo₂ = 1 ∧ (1 ≤ topo₁ ∧ topo₁ ≤ 32) ∧ (1 ≤ topo₂ ∧ topo₂ ≤ 32) ∧
      (topo₂ = topo₁ ∨ topo₂ = cyclicSucc 32 topo₁) ∧
      (topo₂ = topo₁ ↔ ¬ ∃ k, r₁.ns < k * 200000 ∧ k * 200000 ≤ r₂.ns) :=
  ⟨by decide, by decide, topo_agree (by decide) (by decide) (by decide) _ _ (by decide)
    (by decide)⟩

end RotorXdp
