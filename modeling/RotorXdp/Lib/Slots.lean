import Mathlib.Algebra.Ring.Nat
import Mathlib.Tactic.Ring

/-!
# Time slots in a cycle

Time is divided into slots of length `s`, which are numbered round a cycle of `K` from 1 to `K`.

* `slotNumber`: the number of the slot at a time;
* `cyclicSucc`: the number of the next slot;
* `slotNumber_close`: less than a slot later it is the same slot or the next;
* `slotNumber_eq_iff`: it is the same exactly when no slot has begun in between.
-/

namespace Slots

/-- The number of the slot at time `t`. -/
def slotNumber (s K t : ℕ) : ℕ := t / s % K + 1

/-- The number after `i`, with 1 after `K`. -/
def cyclicSucc (K i : ℕ) : ℕ := if i = K then 1 else i + 1

variable {s K t u : ℕ}

theorem slotNumber_range (hK : 0 < K) : 1 ≤ slotNumber s K t ∧ slotNumber s K t ≤ K := by
  have hlt : t / s % K < K := Nat.mod_lt _ hK
  unfold slotNumber
  omega

/-- The slot within the cycle is the slot of the time into the cycle. -/
theorem slotNumber_of_cycle (s K t : ℕ) : t % (K * s) / s + 1 = slotNumber s K t := by
  rw [slotNumber, Nat.mul_comm, Nat.mod_mul_right_div_self]

/-- Less than a slot later, at most one slot has begun. -/
theorem div_close (h : t ≤ u) (hlt : u - t < s) : u / s = t / s ∨ u / s = t / s + 1 := by
  have hpos : 0 < s := by omega
  have hlow : t / s ≤ u / s := Nat.div_le_div_right h
  have hhigh : u / s ≤ t / s + 1 := by
    calc u / s ≤ (t + s) / s := Nat.div_le_div_right (by omega)
      _ = t / s + 1 := Nat.add_div_right t hpos
  omega

/-- No multiple of `s` has been passed exactly when the quotient is the same. -/
theorem div_eq_iff (hs : 0 < s) (h : t ≤ u) :
    u / s = t / s ↔ ¬ ∃ k, t < k * s ∧ k * s ≤ u := by
  constructor
  · rintro heq ⟨k, htk, hku⟩
    have hle : k ≤ u / s := (Nat.le_div_iff_mul_le hs).2 hku
    have hlt : t / s < k := (Nat.div_lt_iff_lt_mul hs).2 htk
    omega
  · intro hnone
    by_contra hne
    have hlow : t / s ≤ u / s := Nat.div_le_div_right h
    refine hnone ⟨u / s, ?_, Nat.div_mul_le_self u s⟩
    exact (Nat.div_lt_iff_lt_mul hs).1 (by omega)

theorem mod_succ (hK : 0 < K) (n : ℕ) : (n + 1) % K + 1 = cyclicSucc K (n % K + 1) := by
  have hlt : n % K < K := Nat.mod_lt n hK
  unfold cyclicSucc
  rw [← Nat.mod_add_mod]
  by_cases hlast : n % K + 1 = K
  · rw [if_pos hlast, hlast, Nat.mod_self]
  · rw [if_neg hlast, Nat.mod_eq_of_lt (by omega)]

/-- In a cycle of two slots or more the next slot is another one. -/
theorem cyclicSucc_ne (hK : 2 ≤ K) (i : ℕ) : cyclicSucc K i ≠ i := by
  unfold cyclicSucc
  split <;> omega

theorem slotNumber_close (hK : 0 < K) (h : t ≤ u) (hlt : u - t < s) :
    slotNumber s K u = slotNumber s K t ∨ slotNumber s K u = cyclicSucc K (slotNumber s K t) := by
  unfold slotNumber
  rcases div_close h hlt with heq | heq
  · left
    rw [heq]
  · right
    rw [heq, mod_succ hK]

theorem slotNumber_eq_iff (hK : 2 ≤ K) (h : t ≤ u) (hlt : u - t < s) :
    slotNumber s K u = slotNumber s K t ↔ ¬ ∃ k, t < k * s ∧ k * s ≤ u := by
  rw [← div_eq_iff (by omega) h]
  constructor
  · intro heq
    rcases div_close h hlt with hsame | hnext
    · exact hsame
    · unfold slotNumber at heq
      rw [hnext, mod_succ (by omega)] at heq
      exact absurd heq (cyclicSucc_ne hK _)
  · intro heq
    rw [slotNumber, slotNumber, heq]

end Slots
