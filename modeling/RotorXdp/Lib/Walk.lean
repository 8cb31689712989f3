import Mathlib.Logic.Function.Iterate
import Mathlib.Data.Nat.Find

/-!
# Walks

The walk of a function `f` from `x` is `x, f x, f (f x), …`. It need not come to its target `y`,
and when it does it may go on from there; `FirstHit` says when it comes there first.

* `firstHit_zero`, `firstHit_succ`: the first hit by recursion on the walk;
* `FirstHit.unique`, `exists_firstHit_iff`: there is one exactly when the walk meets the target.
-/

open Function

namespace Walks

variable {α : Type*} {f : α → α} {x y : α} {m n : ℕ}

/-- The walk from `x` is at `y` after `n` steps and not before. -/
structure FirstHit (f : α → α) (y x : α) (n : ℕ) : Prop where
  hit : f^[n] x = y
  first : ∀ k < n, f^[k] x ≠ y

theorem firstHit_zero : FirstHit f y x 0 ↔ x = y := by
  constructor
  · intro h
    exact h.hit
  · rintro rfl
    exact ⟨rfl, fun k hk => absurd hk (Nat.not_lt_zero k)⟩

theorem firstHit_succ : FirstHit f y x (n + 1) ↔ x ≠ y ∧ FirstHit f y (f x) n := by
  constructor
  · intro h
    refine ⟨h.first 0 (Nat.succ_pos n), ?_, fun k hk => ?_⟩
    · rw [← iterate_succ_apply]
      exact h.hit
    · rw [← iterate_succ_apply]
      exact h.first (k + 1) (Nat.succ_lt_succ hk)
  · rintro ⟨hne, h⟩
    refine ⟨?_, fun k hk => ?_⟩
    · rw [iterate_succ_apply]
      exact h.hit
    · cases k with
      | zero => exact hne
      | succ k =>
        rw [iterate_succ_apply]
        exact h.first k (Nat.lt_of_succ_lt_succ hk)

theorem FirstHit.unique (h : FirstHit f y x n) (h' : FirstHit f y x m) : n = m := by
  rcases Nat.lt_trichotomy n m with hlt | heq | hlt
  · exact absurd h.hit (h'.first n hlt)
  · exact heq
  · exact absurd h'.hit (h.first m hlt)

theorem exists_firstHit_iff : (∃ n, FirstHit f y x n) ↔ ∃ n, f^[n] x = y := by
  classical
  constructor
  · rintro ⟨n, h⟩
    exact ⟨n, h.hit⟩
  · intro h
    exact ⟨Nat.find h, Nat.find_spec h, fun k hk => Nat.find_min h hk⟩

end Walks
