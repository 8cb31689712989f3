import Mathlib.Data.Nat.Notation
import Mathlib.Logic.Function.Basic

/-!
# Counting loops

`forLoop n body s` is `for (i = 0; i < n; i++)` on the state `s`.

* `forLoop_invariant`: the rule for a loop invariant indexed by the number of rounds done;
* `filled`: an array after a loop that writes entry `i` in round `i`, with a running counter;
* `forLoopM`, `forLoopM_invariant`: the same for a loop whose rounds may fail.
-/

open Function

namespace Loops

variable {σ α : Type*}

/-- `n` rounds of `body`, numbered from 0. -/
def forLoop : ℕ → (ℕ → σ → σ) → σ → σ
  | 0, _, s => s
  | n + 1, body, s => body n (forLoop n body s)

@[simp] theorem forLoop_zero (body : ℕ → σ → σ) (s : σ) : forLoop 0 body s = s := rfl

theorem forLoop_invariant (I : ℕ → σ → Prop) {n : ℕ} {body : ℕ → σ → σ} {s : σ} (h0 : I 0 s)
    (hstep : ∀ i t, i < n → I i t → I (i + 1) (body i t)) : I n (forLoop n body s) := by
  induction n with
  | zero => exact h0
  | succ n ih =>
    exact hstep n _ (Nat.lt_succ_self n) (ih fun i t hi => hstep i t (Nat.lt_succ_of_lt hi))

/-- An array after `a[i] = f(c + i)` for the first `n` entries. -/
def filled (a : ℕ → α) (f : ℕ → α) (c n : ℕ) : ℕ → α := fun i => if i < n then f (c + i) else a i

@[simp] theorem filled_zero (a f : ℕ → α) (c : ℕ) : filled a f c 0 = a := rfl

theorem update_filled (a f : ℕ → α) (c n : ℕ) :
    update (filled a f c n) n (f (c + n)) = filled a f c (n + 1) := by
  funext i
  by_cases hi : i = n
  · subst hi; simp [filled]
  · have : i < n + 1 ↔ i < n := by omega
    rw [update_of_ne hi, filled, filled, if_congr this rfl rfl]

/-! ### Rounds that may fail -/

variable {ε : Type*}

/-- `n` rounds of `body`, up to the first that fails. -/
def forLoopM : ℕ → (ℕ → σ → Except ε σ) → σ → Except ε σ
  | 0, _, s => .ok s
  | n + 1, body, s =>
    match forLoopM n body s with
    | .error e => .error e
    | .ok t => body n t

/-- What every round keeps holds in the end. -/
theorem forLoopM_invariant (I : ℕ → σ → Prop) {n : ℕ} {body : ℕ → σ → Except ε σ} {s t : σ}
    (h : forLoopM n body s = .ok t) (h0 : I 0 s)
    (hstep : ∀ i s t, i < n → I i s → body i s = .ok t → I (i + 1) t) : I n t := by
  induction n generalizing t with
  | zero =>
    cases h
    exact h0
  | succ n ih =>
    rw [forLoopM] at h
    split at h
    · cases h
    · rename_i u hu
      exact hstep n u t (Nat.lt_succ_self n)
        (ih hu fun i s t hi => hstep i s t (Nat.lt_succ_of_lt hi)) h

end Loops
