import RotorXdp.Lib.Racks

/-!
# Threads that record under a shared index

Several threads write to arrays `arrays` at a shared index and then increment it, with no lock: each
statement of a round is a step of its own, every write reads the index again, and the increment is
a load and a store, so that increments can be lost.

* `Recorder.exec`: the steps of a thread, with the writes that each does;
* `Recorder.Bound`: the index lags behind the rounds entered by at least the rounds that are open;
* `Recorder.Bound.exec`, `Recorder.Bound.writes_lt`: every write is below the rounds entered.
-/

open Function

namespace Recorders

/-- Where a thread is in its round. -/
inductive Pc
  | idle
  /-- the first `m` arrays are written -/
  | writing (m : ℕ)
  /-- the index is read for the increment -/
  | loaded (old : ℕ)
  | counted
  deriving DecidableEq

/-- The round is entered and not yet counted. -/
def Pc.isOpen : Pc → Bool
  | .writing _ | .loaded _ => true
  | .idle | .counted => false

/-- The shared index and the threads. -/
structure Recorder (ι : Type*) where
  index : ℕ
  pc : ι → Pc

inductive Act (ι : Type*)
  | enter (i : ι)
  /-- the next statement of the round -/
  | next (i : ι)
  | leave (i : ι)

/-- A step that enters a round. -/
def Act.isEnter {ι : Type*} : Act ι → Bool
  | .enter _ => true
  | _ => false

variable {ι α : Type*}

/-- All threads idle. -/
def Recorder.init : Recorder ι := ⟨0, fun _ => .idle⟩

section Steps

variable [DecidableEq ι]

/-- Thread `i` goes to `pc`. -/
def Recorder.goto (r : Recorder ι) (i : ι) (pc : Pc) : Recorder ι :=
  { r with pc := update r.pc i pc }

@[simp] theorem Recorder.goto_pc_self (r : Recorder ι) (i : ι) (pc : Pc) :
    (r.goto i pc).pc i = pc := update_self ..

/-- One step: the array entries written, and the state after it. -/
def Recorder.exec (arrays : List α) (r : Recorder ι) :
    Act ι → Option (List (α × ℕ) × Recorder ι)
  | .enter i => if r.pc i = .idle then some ([], r.goto i (.writing 0)) else none
  | .next i =>
    match r.pc i with
    | .writing m =>
      match arrays[m]? with
      | some a => some ([(a, r.index)], r.goto i (.writing (m + 1)))
      | none => some ([], r.goto i (.loaded r.index))
    | .loaded old => some ([], { r.goto i .counted with index := old + 1 })
    | _ => none
  | .leave i => if r.pc i = .counted then some ([], r.goto i .idle) else none

end Steps

/-! ### How far the index can get -/

variable [Fintype ι]

/-- The number of open rounds. -/
def openRounds (pc : ι → Pc) : ℕ := ∑ i, if (pc i).isOpen then 1 else 0

theorem openRounds_pos {pc : ι → Pc} {i : ι} (h : (pc i).isOpen = true) : 1 ≤ openRounds pc := by
  have hle : (if (pc i).isOpen then 1 else 0) ≤ openRounds pc :=
    Finset.single_le_sum (f := fun i => if (pc i).isOpen then 1 else 0) (fun _ _ => Nat.zero_le _)
      (Finset.mem_univ i)
  rwa [if_pos h] at hle

/-- With `n` rounds entered so far, the index, and every copy of it that a thread is about to
increment, lags behind by the rounds that are open. -/
structure Recorder.Bound (r : Recorder ι) (n : ℕ) : Prop where
  index : r.index + openRounds r.pc ≤ n
  loaded : ∀ i old, r.pc i = .loaded old → old + openRounds r.pc ≤ n

variable {r r' : Recorder ι} {n : ℕ}

theorem Recorder.Bound.init : (Recorder.init : Recorder ι).Bound 0 where
  index := by simp [Recorder.init, openRounds, Pc.isOpen]
  loaded := by simp [Recorder.init]

theorem Recorder.Bound.index_le (h : r.Bound n) : r.index ≤ n :=
  Nat.le_trans (Nat.le_add_right _ _) h.index

variable [DecidableEq ι] {arrays : List α} {ws : List (α × ℕ)}

theorem openRounds_update (pc : ι → Pc) (i : ι) (q : Pc) :
    openRounds (update pc i q) + (if (pc i).isOpen then 1 else 0) =
      openRounds pc + if q.isOpen then 1 else 0 :=
  Racks.sum_update_add (fun q : Pc => if q.isOpen then 1 else 0) pc i q

/-- A thread moves on, the index being unchanged. -/
theorem Recorder.Bound.goto (h : r.Bound n) {i : ι} {q : Pc} {m : ℕ}
    (hcount : n + (if q.isOpen then 1 else 0) ≤ m + (if (r.pc i).isOpen then 1 else 0))
    (hq : ∀ old, q = .loaded old → old = r.index) : (r.goto i q).Bound m := by
  have hopen := openRounds_update r.pc i q
  have hindex := h.index
  refine ⟨?_, fun j old hj => ?_⟩
  · simp only [Recorder.goto]
    omega
  · simp only [Recorder.goto] at hj ⊢
    by_cases hji : j = i
    · subst hji
      rw [update_self] at hj
      have := hq old hj
      omega
    · rw [update_of_ne hji] at hj
      have := h.loaded j old hj
      omega

/-- Every step keeps the bound. -/
theorem Recorder.Bound.exec (h : r.Bound n) {a : Act ι} (hexec : r.exec arrays a = some (ws, r')) :
    r'.Bound (n + if a.isEnter then 1 else 0) := by
  cases a with
  | enter i =>
    simp only [Recorder.exec] at hexec
    split at hexec
    · rename_i hi
      cases hexec
      exact h.goto (by simp [Act.isEnter, Pc.isOpen, hi]) (by simp)
    · exact absurd hexec (by simp)
  | next i =>
    simp only [Recorder.exec] at hexec
    split at hexec
    · rename_i m hi
      split at hexec
      · cases hexec
        exact h.goto (by simp [Act.isEnter, Pc.isOpen, hi]) (by simp)
      · cases hexec
        exact h.goto (by simp [Act.isEnter, Pc.isOpen, hi]) (by simp)
    · -- the store: the round is no longer open
      rename_i old hi
      cases hexec
      have hold := h.loaded i old hi
      have hgoto : (r.goto i .counted).Bound n := h.goto (by simp [Pc.isOpen]) (by simp)
      have hopen := openRounds_update r.pc i .counted
      rw [hi] at hopen
      simp only [Pc.isOpen, if_true, Bool.false_eq_true, if_false, Nat.add_zero] at hopen
      refine ⟨?_, hgoto.loaded⟩
      show old + 1 + openRounds (update r.pc i .counted) ≤ n
      omega
    · exact absurd hexec (by simp)
  | leave i =>
    simp only [Recorder.exec] at hexec
    split at hexec
    · rename_i hi
      cases hexec
      exact h.goto (by simp [Act.isEnter, Pc.isOpen]) (by simp)
    · exact absurd hexec (by simp)

/-- Every write goes to an index below the number of rounds entered. -/
theorem Recorder.Bound.writes_lt (h : r.Bound n) {a : Act ι}
    (hexec : r.exec arrays a = some (ws, r')) {w : α × ℕ} (hw : w ∈ ws) :
    w.1 ∈ arrays ∧ w.2 < n := by
  cases a with
  | enter i =>
    simp only [Recorder.exec] at hexec
    split at hexec
    · cases hexec
      exact absurd hw (by simp)
    · exact absurd hexec (by simp)
  | next i =>
    simp only [Recorder.exec] at hexec
    split at hexec
    · rename_i m hi
      split at hexec
      · rename_i a ha
        cases hexec
        obtain rfl := List.mem_singleton.1 hw
        have hpos : 1 ≤ openRounds r.pc := openRounds_pos (i := i) (by rw [hi]; rfl)
        have hindex := h.index
        exact ⟨List.mem_of_getElem? ha, by simp only; omega⟩
      · cases hexec
        exact absurd hw (by simp)
    · cases hexec
      exact absurd hw (by simp)
    · exact absurd hexec (by simp)
  | leave i =>
    simp only [Recorder.exec] at hexec
    split at hexec
    · cases hexec
      exact absurd hw (by simp)
    · exact absurd hexec (by simp)

end Recorders
