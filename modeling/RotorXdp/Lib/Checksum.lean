import RotorXdp.Lib.Bytes
import Mathlib.Data.Nat.ModEq

/-!
# The Internet checksum

The ones' complement of the ones' complement sum of 16-bit words, as hosts with little-endian
words compute it.

* `sumWords`: the sum of the words of a block, an odd last byte padded with zero;
* `fold`: the end-around carry, repeated until the sum has 16 bits;
* `fold_eq_iff`: two nonzero sums fold to the same value iff they agree modulo 65535;
* `sumWordsBe`: the sum as a host with big-endian words computes it, `sumWordsBe_modEq`;
* `sumWords_setLe16`, `sumWordsBe_set`: the sum after a word or a byte has been written.
-/

namespace Checksum

open Bytes

/-- The sum of the words of the `count` bytes at `a`. -/
def sumWords (m : Mem) : ℕ → ℕ → ℕ
  | _, 0 => 0
  | a, 1 => (m a).toNat
  | a, count + 2 => le16 m a + sumWords m (a + 2) count

/-- `while (sum >> 16) sum = (sum & 0xffff) + (sum >> 16)`. -/
def fold (sum : ℕ) : ℕ :=
  if h : sum / 65536 = 0 then sum else fold (sum % 65536 + sum / 65536)
termination_by sum
decreasing_by omega

theorem fold_of_lt {s : ℕ} (h : s < 65536) : fold s = s := by
  rw [fold, dif_pos (by omega)]

theorem fold_of_ge {s : ℕ} (h : 65536 ≤ s) : fold s = fold (s % 65536 + s / 65536) := by
  rw [fold, dif_neg (by omega)]

theorem fold_lt (s : ℕ) : fold s < 65536 := by
  induction s using fold.induct with
  | case1 s h => rw [fold_of_lt (by omega)]; omega
  | case2 s h ih => rw [fold_of_ge (by omega)]; exact ih

theorem fold_pos {s : ℕ} (hs : 0 < s) : 0 < fold s := by
  induction s using fold.induct with
  | case1 s h => rw [fold_of_lt (by omega)]; exact hs
  | case2 s h ih => rw [fold_of_ge (by omega)]; exact ih (by omega)

/-- A carry moved to the other end does not change the sum modulo 65535. -/
theorem fold_modEq (s : ℕ) : fold s ≡ s [MOD 65535] := by
  induction s using fold.induct with
  | case1 s h => rw [fold_of_lt (by omega)]
  | case2 s h ih =>
    rw [fold_of_ge (by omega)]
    refine ih.trans ?_
    unfold Nat.ModEq
    omega

theorem fold_eq_iff {s t : ℕ} (hs : 0 < s) (ht : 0 < t) :
    fold s = fold t ↔ s ≡ t [MOD 65535] := by
  constructor
  · intro h
    have hst := fold_modEq s
    rw [h] at hst
    exact hst.symm.trans (fold_modEq t)
  · intro h
    have hst := (fold_modEq s).trans (h.trans (fold_modEq t).symm)
    -- 1 .. 65535 holds one representative of each class
    have := fold_lt s; have := fold_lt t
    have := fold_pos hs; have := fold_pos ht
    unfold Nat.ModEq at hst
    omega

/-- A nonzero sum that is a multiple of 65535 folds to all ones. -/
theorem fold_eq_max_iff {s : ℕ} (hs : 0 < s) : fold s = 65535 ↔ s ≡ 0 [MOD 65535] := by
  have hlt := fold_lt s
  have hpos := fold_pos hs
  have hmod := fold_modEq s
  unfold Nat.ModEq at hmod ⊢
  omega

/-- The complement brings the sum to a multiple of 65535. -/
theorem add_complement (s : ℕ) : s + (65535 - fold s) ≡ 0 [MOD 65535] := by
  have hlt := fold_lt s
  have hmod := fold_modEq s
  unfold Nat.ModEq at hmod ⊢
  omega

/-! ### Sums in both byte orders -/

/-- The sum of the big-endian words of the `count` bytes at `a`. -/
def sumWordsBe (m : Mem) : ℕ → ℕ → ℕ
  | _, 0 => 0
  | a, 1 => 256 * (m a).toNat
  | a, count + 2 => be16 m a + sumWordsBe m (a + 2) count

/-- `htons` of a 16-bit value. -/
def htons (v : ℕ) : ℕ := v % 256 * 256 + v / 256

theorem htons_be16 (m : Mem) (a : ℕ) : htons (be16 m a) = le16 m a := by
  have h0 := toNat_lt (m a)
  have h1 := toNat_lt (m (a + 1))
  unfold htons be16 le16
  omega

theorem htons_modEq (v : ℕ) : 256 * htons v ≡ v [MOD 65535] := by
  unfold htons Nat.ModEq
  omega

theorem be16_modEq (m : Mem) (a : ℕ) : be16 m a ≡ 256 * le16 m a [MOD 65535] := by
  rw [← htons_be16]
  exact (htons_modEq _).symm

/-- Swapping the bytes of all words swaps the bytes of the sum. -/
theorem sumWordsBe_modEq (m : Mem) (a count : ℕ) :
    sumWordsBe m a count ≡ 256 * sumWords m a count [MOD 65535] := by
  induction a, count using sumWords.induct with
  | case1 a => exact Nat.ModEq.refl _
  | case2 a => exact Nat.ModEq.refl _
  | case3 a count ih =>
    rw [sumWordsBe, sumWords, Nat.mul_add]
    exact (be16_modEq m a).add ih

/-- A sum is zero in both byte orders or in none. -/
theorem sumWords_eq_zero {m : Mem} {a count : ℕ} (h : sumWordsBe m a count = 0) :
    sumWords m a count = 0 := by
  induction a, count using sumWords.induct with
  | case1 a => rfl
  | case2 a =>
    rw [sumWordsBe] at h
    rw [sumWords]
    omega
  | case3 a count ih =>
    rw [sumWordsBe, be16] at h
    rw [sumWords, le16, ih (by omega)]
    omega

theorem sumWords_congr {m m' : Mem} {a count : ℕ} (h : ∀ i < count, m (a + i) = m' (a + i)) :
    sumWords m a count = sumWords m' a count := by
  induction a, count using sumWords.induct with
  | case1 a => rfl
  | case2 a => exact congrArg UInt8.toNat (h 0 Nat.one_pos)
  | case3 a count ih =>
    rw [sumWords, sumWords, le16_congr fun i hi => h i (by omega),
      ih fun i hi => by rw [Nat.add_assoc]; exact h _ (by omega)]

theorem sumWords_add (m : Mem) (a k count : ℕ) :
    sumWords m a (2 * k + count) = sumWords m a (2 * k) + sumWords m (a + 2 * k) count := by
  induction k generalizing a with
  | zero => simp [sumWords]
  | succ k ih =>
    rw [show 2 * (k + 1) + count = 2 * k + count + 2 by omega,
      show 2 * (k + 1) = 2 * k + 2 by omega, sumWords, sumWords, ih,
      show a + 2 + 2 * k = a + (2 * k + 2) by omega, Nat.add_assoc]

/-- A word that is written adds to the sum what it adds to a zero in its place. -/
theorem sumWords_setLe16 (m : Mem) {a k count v : ℕ} (hv : v < 65536) (hfit : 2 * k + 2 ≤ count) :
    sumWords (setLe16 m (a + 2 * k) v) a count =
      sumWords (setLe16 m (a + 2 * k) 0) a count + v := by
  obtain ⟨rest, rfl⟩ : ∃ rest, count = 2 * k + (rest + 2) := ⟨count - 2 * k - 2, by omega⟩
  have hbefore : sumWords (setLe16 m (a + 2 * k) v) a (2 * k) =
      sumWords (setLe16 m (a + 2 * k) 0) a (2 * k) := sumWords_congr fun i hi => by
    rw [setLe16_of_ne _ _ (by omega), setLe16_of_ne _ _ (by omega)]
  have hbehind : sumWords (setLe16 m (a + 2 * k) v) (a + 2 * k + 2) rest =
      sumWords (setLe16 m (a + 2 * k) 0) (a + 2 * k + 2) rest := sumWords_congr fun i hi => by
    rw [setLe16_of_ne _ _ (by omega), setLe16_of_ne _ _ (by omega)]
  rw [sumWords_add, sumWords_add, sumWords, sumWords, hbefore, hbehind, le16_setLe16,
    le16_setLe16, Nat.mod_eq_of_lt hv]
  omega

theorem sumWordsBe_set_of_lt (m : Mem) {a x count : ℕ} (b : UInt8) (h : x < a) :
    sumWordsBe (set m x b) a count = sumWordsBe m a count := by
  induction a, count using sumWordsBe.induct with
  | case1 a => rfl
  | case2 a => rw [sumWordsBe, sumWordsBe, set_of_ne _ _ (by omega)]
  | case3 a count ih => rw [sumWordsBe, sumWordsBe, be16_set_of_ne m b (.inr h), ih (by omega)]

/-- A byte that is written changes the sum by its difference, in the upper or the lower half. -/
theorem sumWordsBe_set (m : Mem) {a x count : ℕ} (b : UInt8) (hle : a ≤ x) (hlt : x < a + count) :
    ∃ w, (w = 1 ∨ w = 256) ∧ sumWordsBe (set m x b) a count + w * (m x).toNat =
      sumWordsBe m a count + w * b.toNat := by
  induction a, count using sumWordsBe.induct with
  | case1 a => omega
  | case2 a =>
    obtain rfl : x = a := by omega
    exact ⟨256, .inr rfl, by rw [sumWordsBe, sumWordsBe, set_self, Nat.add_comm]⟩
  | case3 a count ih =>
    rw [sumWordsBe, sumWordsBe]
    have hplace : x = a ∨ x = a + 1 ∨ a + 2 ≤ x := by omega
    rcases hplace with rfl | rfl | hbehind
    · refine ⟨256, .inr rfl, ?_⟩
      rw [sumWordsBe_set_of_lt _ _ (by omega), be16, be16, set_self, set_of_ne _ _ (by omega)]
      omega
    · refine ⟨1, .inl rfl, ?_⟩
      rw [sumWordsBe_set_of_lt _ _ (by omega), be16, be16, set_self, set_of_ne _ _ (by omega)]
      omega
    · obtain ⟨w, hw, hsum⟩ := ih hbehind (by omega)
      refine ⟨w, hw, ?_⟩
      rw [be16_set_of_ne m b (.inl hbehind)]
      omega

end Checksum
