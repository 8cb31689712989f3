import Mathlib.Data.Nat.Find
import Mathlib.Data.Fintype.Basic
import Mathlib.Data.Finset.Lattice.Fold
import Mathlib.Data.Fintype.EquivFin
import Mathlib.Order.WellFounded

/-!
# Walks under a changing step

At time `n` the walk takes the step `f (τ n)`: what comes next depends on a choice that may be made
anew each time. Whether such a walk comes to its target for every sequence of choices can be seen
from the steps alone.

* `timedWalk`, `TimedHit`: the walk, and when it comes to its target first;
* `TimedHit.le_rank`: a rank that every step lowers bounds the time;
* `always_hits_iff_rank`: every walk comes to the target exactly when there is such a rank.
-/

open Function

namespace Walks

variable {ι α : Type*} {f : ι → α → α} {τ : ℕ → ι} {x y : α} {n : ℕ}

/-- The walk from `x`, where step `n` is made with choice `τ n`. -/
def timedWalk (f : ι → α → α) (τ : ℕ → ι) (x : α) : ℕ → α
  | 0 => x
  | n + 1 => f (τ n) (timedWalk f τ x n)

/-- The walk is at `y` at time `n` and not before. -/
structure TimedHit (f : ι → α → α) (τ : ℕ → ι) (y x : α) (n : ℕ) : Prop where
  hit : timedWalk f τ x n = y
  first : ∀ k < n, timedWalk f τ x k ≠ y

theorem exists_timedHit (h : timedWalk f τ x n = y) : ∃ k ≤ n, TimedHit f τ y x k := by
  classical
  have hex : ∃ n, timedWalk f τ x n = y := ⟨n, h⟩
  exact ⟨Nat.find hex, Nat.find_min' hex h, Nat.find_spec hex, fun k hk => Nat.find_min hex hk⟩

section Rank

variable {S : Set α} {r : α → ℕ}

/-- The step lowers the rank until the target is reached. -/
def Lowers (f : ι → α → α) (S : Set α) (y : α) (r : α → ℕ) : Prop :=
  ∀ x ∈ S, x ≠ y → ∀ i, r (f i x) < r x

theorem timedWalk_mem (hS : ∀ i, ∀ x ∈ S, f i x ∈ S) (hx : x ∈ S) (τ : ℕ → ι) (n : ℕ) :
    timedWalk f τ x n ∈ S := by
  induction n with
  | zero => exact hx
  | succ n ih => exact hS _ _ ih

/-- Up to the target the rank falls with every step. -/
theorem rank_add_le (hS : ∀ i, ∀ x ∈ S, f i x ∈ S) (hr : Lowers f S y r) (hx : x ∈ S)
    (hfirst : ∀ k < n, timedWalk f τ x k ≠ y) : r (timedWalk f τ x n) + n ≤ r x := by
  induction n with
  | zero => exact Nat.le_refl _
  | succ n ih =>
    have hlow := hr _ (timedWalk_mem hS hx τ n) (hfirst n (Nat.lt_succ_self n)) (τ n)
    have hle := ih fun k hk => hfirst k (Nat.lt_succ_of_lt hk)
    rw [timedWalk]
    omega

theorem TimedHit.le_rank (hS : ∀ i, ∀ x ∈ S, f i x ∈ S) (hr : Lowers f S y r) (hx : x ∈ S)
    (h : TimedHit f τ y x n) : n ≤ r x :=
  Nat.le_trans (Nat.le_add_left _ _) (rank_add_le hS hr hx h.first)

/-- A rank brings every walk to the target. -/
theorem exists_hit_of_rank (hS : ∀ i, ∀ x ∈ S, f i x ∈ S) (hr : Lowers f S y r) (hx : x ∈ S)
    (τ : ℕ → ι) : ∃ n, TimedHit f τ y x n := by
  by_contra hnone
  have hfirst : ∀ k < r x + 1, timedWalk f τ x k ≠ y := by
    intro k _ hk
    obtain ⟨j, -, hj⟩ := exists_timedHit hk
    exact hnone ⟨j, hj⟩
  have := rank_add_le hS hr hx hfirst
  omega

/-- `b` is a step behind `a`, before the target. -/
def Behind (f : ι → α → α) (S : Set α) (y : α) (b a : α) : Prop :=
  a ∈ S ∧ a ≠ y ∧ ∃ i, b = f i a

/-- If every walk comes to the target there is no endless way around it. -/
theorem behind_wellFounded (h : ∀ x ∈ S, ∀ τ : ℕ → ι, ∃ n, timedWalk f τ x n = y) :
    WellFounded (Behind f S y) := by
  rw [wellFounded_iff_isEmpty_descending_chain]
  refine ⟨fun ⟨way, hway⟩ => ?_⟩
  choose τ hτ using fun n => (hway n).2.2
  have hwalk : ∀ n, timedWalk f τ (way 0) n = way n := by
    intro n
    induction n with
    | zero => rfl
    | succ n ih => rw [timedWalk, ih, hτ n]
  obtain ⟨n, hn⟩ := h (way 0) (hway 0).1 τ
  exact (hway n).2.1 ((hwalk n).symm.trans hn)

/-- **Every walk comes to the target, whatever the choices, exactly when there is a rank that every
step lowers.** -/
theorem always_hits_iff_rank [Finite ι] (hS : ∀ i, ∀ x ∈ S, f i x ∈ S) :
    (∀ x ∈ S, ∀ τ : ℕ → ι, ∃ n, TimedHit f τ y x n) ↔ ∃ r, Lowers f S y r := by
  classical
  constructor
  · intro h
    have hwf : WellFounded (Behind f S y) :=
      behind_wellFounded fun x hx τ => (h x hx τ).imp fun n hn => hn.hit
    have := Fintype.ofFinite ι
    -- the rank is the length of the longest way around the target
    let r : α → ℕ := hwf.fix fun x ih =>
      if hx : x ∈ S ∧ x ≠ y then Finset.univ.sup fun i => ih (f i x) ⟨hx.1, hx.2, i, rfl⟩ + 1
      else 0
    refine ⟨r, fun x hx hne i => ?_⟩
    have hr : r x = Finset.univ.sup fun i => r (f i x) + 1 := by
      show hwf.fix _ x = _
      rw [hwf.fix_eq, dif_pos ⟨hx, hne⟩]
    rw [hr]
    exact Finset.le_sup (f := fun i => r (f i x) + 1) (Finset.mem_univ i)
  · rintro ⟨r, hr⟩ x hx τ
    exact exists_hit_of_rank hS hr hx τ

end Rank

end Walks
