import Mathlib.Algebra.Order.Ring.Int
import Mathlib.Data.List.Basic
import Mathlib.Tactic.Ring
import Mathlib.Tactic.Linarith

/-!
# Column-major tables

A table of `rows` by `cols` entries in one array, indexed from 1, whose setter and getter refuse
indices that are out of range with the status -2.

* `index_inj`: entries do not share a place;
* `Table.get_set`: a setter changes one entry;
* `lastSet`, `Table.get_setAll`: an entry after any number of calls of the setter.
-/

namespace ColumnMajor

/-- The place of (row, col) in the array. -/
def index (rows row col : ℤ) : ℕ := ((col - 1) * rows + (row - 1)).toNat

structure Table (α : Type*) where
  rows : ℤ
  cols : ℤ
  data : ℕ → α

variable {α : Type*}

/-- The indices that setter and getter refuse. -/
def Table.Outside (m : Table α) (row col : ℤ) : Prop :=
  row ≤ 0 ∨ row > m.rows ∨ col ≤ 0 ∨ col > m.cols

instance (m : Table α) (row col : ℤ) : Decidable (m.Outside row col) :=
  inferInstanceAs (Decidable (_ ∨ _ ∨ _ ∨ _))

/-- The status and the table. -/
def Table.set (m : Table α) (row col : ℤ) (val : α) : ℤ × Table α :=
  if m.Outside row col then (-2, m)
  else (0, { m with data := fun i => if i = index m.rows row col then val else m.data i })

/-- The status and the value, if any. -/
def Table.get (m : Table α) (row col : ℤ) : ℤ × Option α :=
  if m.Outside row col then (-2, none) else (0, some (m.data (index m.rows row col)))

/-- A call of the setter. -/
structure SetCall (α : Type*) where
  row : ℤ
  col : ℤ
  val : α

/-- The table after a list of calls of the setter. -/
def Table.setAll (m : Table α) (calls : List (SetCall α)) : Table α :=
  calls.foldl (fun m c => (m.set c.row c.col c.val).2) m

/-- The value of the last call for (row, col). -/
def lastSet (row col : ℤ) : List (SetCall α) → Option α
  | [] => none
  | c :: calls =>
    (lastSet row col calls).or (if c.row = row ∧ c.col = col then some c.val else none)

/-! ### Places -/

section Index

variable {rows cols row col row' col' : ℤ}

theorem index_cast (hrow : 1 ≤ row) (hrows : row ≤ rows) (hcol : 1 ≤ col) :
    (index rows row col : ℤ) = (col - 1) * rows + (row - 1) := by
  have hnonneg : 0 ≤ (col - 1) * rows := Int.mul_nonneg (by omega) (by omega)
  exact Int.toNat_of_nonneg (by omega)

/-- The column is the quotient and the row the remainder. -/
theorem index_inj (hrow : 1 ≤ row) (hrows : row ≤ rows) (hcol : 1 ≤ col) (hrow' : 1 ≤ row')
    (hrows' : row' ≤ rows) (hcol' : 1 ≤ col') (h : index rows row col = index rows row' col') :
    row = row' ∧ col = col' := by
  have hcast : (col - 1) * rows + (row - 1) = (col' - 1) * rows + (row' - 1) := by
    rw [← index_cast hrow hrows hcol, ← index_cast hrow' hrows' hcol', h]
  have hquot : ∀ c r : ℤ, 1 ≤ r → r ≤ rows → ((c - 1) * rows + (r - 1)) / rows = c - 1 := by
    intro c r h1 h2
    rw [Int.add_comm, Int.add_mul_ediv_right _ _ (by omega), Int.ediv_eq_zero_of_lt (by omega)
      (by omega), Int.zero_add]
  have hcols : col = col' := by
    have := congrArg (· / rows) hcast
    simp only [hquot _ _ hrow hrows, hquot _ _ hrow' hrows'] at this
    omega
  subst hcols
  exact ⟨by omega, rfl⟩

end Index

/-! ### One call -/

variable {m : Table α} {row col row' col' : ℤ} {val : α} {calls : List (SetCall α)}

@[simp] theorem Table.set_rows : (m.set row col val).2.rows = m.rows := by
  unfold Table.set
  split <;> rfl

@[simp] theorem Table.set_cols : (m.set row col val).2.cols = m.cols := by
  unfold Table.set
  split <;> rfl

theorem Table.outside_congr {m' : Table α} (hrows : m'.rows = m.rows) (hcols : m'.cols = m.cols) :
    m'.Outside row col ↔ m.Outside row col := by
  rw [Outside, Outside, hrows, hcols]

theorem Table.get_outside (h : m.Outside row col) : m.get row col = (-2, none) := if_pos h

theorem Table.get_inside (h : ¬ m.Outside row col) :
    m.get row col = (0, some (m.data (index m.rows row col))) := if_neg h

/-- What a call leaves at a place in range. -/
theorem Table.data_set (h : ¬ m.Outside row col) :
    (m.set row' col' val).2.data (index m.rows row col) =
      if row' = row ∧ col' = col then val else m.data (index m.rows row col) := by
  unfold Table.set
  by_cases hout : m.Outside row' col'
  · -- a refused call is for another place
    have hne : ¬ (row' = row ∧ col' = col) := by
      rintro ⟨rfl, rfl⟩
      exact h hout
    rw [if_pos hout, if_neg hne]
  · rw [if_neg hout]
    simp only [Outside, not_or, not_le, not_lt] at h hout
    by_cases hsame : row' = row ∧ col' = col
    · obtain ⟨rfl, rfl⟩ := hsame
      simp
    · have hne : index m.rows row col ≠ index m.rows row' col' := by
        intro heq
        obtain ⟨h1, h2⟩ := index_inj (by omega) (by omega) (by omega) (by omega) (by omega)
          (by omega) heq
        exact hsame ⟨h1.symm, h2.symm⟩
      rw [if_neg hsame]
      exact if_neg hne

/-- Setting one entry changes no other. -/
theorem Table.get_set_of_ne (hne : ¬ (row' = row ∧ col' = col)) :
    (m.set row' col' val).2.get row col = m.get row col := by
  by_cases h : m.Outside row col
  · rw [get_outside h, get_outside ((outside_congr set_rows set_cols).2 h)]
  · rw [get_inside h, get_inside (mt (outside_congr set_rows set_cols).1 h), set_rows, data_set h,
      if_neg hne]

/-! ### Any number of calls -/

theorem Table.setAll_size (m : Table α) (calls : List (SetCall α)) :
    (m.setAll calls).rows = m.rows ∧ (m.setAll calls).cols = m.cols := by
  induction calls generalizing m with
  | nil => exact ⟨rfl, rfl⟩
  | cons c calls ih =>
    obtain ⟨hrows, hcols⟩ := ih (m.set c.row c.col c.val).2
    exact ⟨hrows.trans set_rows, hcols.trans set_cols⟩

theorem Table.data_setAll (h : ¬ m.Outside row col) (calls : List (SetCall α)) :
    (m.setAll calls).data (index m.rows row col) =
      (lastSet row col calls).getD (m.data (index m.rows row col)) := by
  induction calls generalizing m with
  | nil => rfl
  | cons c calls ih =>
    have hin : ¬ (m.set c.row c.col c.val).2.Outside row col :=
      mt (outside_congr set_rows set_cols).1 h
    have hrest := ih hin
    rw [set_rows, data_set h] at hrest
    show ((m.set c.row c.col c.val).2.setAll calls).data _ = _
    rw [hrest, lastSet]
    cases lastSet row col calls with
    | some v => rfl
    | none =>
      by_cases hc : c.row = row ∧ c.col = col
      · rw [if_pos hc, if_pos hc]
        rfl
      · rw [if_neg hc, if_neg hc]
        rfl

theorem lastSet_append (row col : ℤ) (calls calls' : List (SetCall α)) :
    lastSet row col (calls ++ calls') = (lastSet row col calls').or (lastSet row col calls) := by
  induction calls with
  | nil => exact (Option.or_none).symm
  | cons c calls ih => rw [List.cons_append, lastSet, lastSet, ih, Option.or_assoc]

/-- The getter after any number of calls of the setter. -/
theorem Table.get_setAll (m : Table α) (calls : List (SetCall α)) (row col : ℤ) :
    (m.setAll calls).get row col =
      if m.Outside row col then (-2, none)
      else (0, some ((lastSet row col calls).getD (m.data (index m.rows row col)))) := by
  obtain ⟨hrows, hcols⟩ := m.setAll_size calls
  by_cases h : m.Outside row col
  · rw [if_pos h, get_outside ((outside_congr hrows hcols).2 h)]
  · rw [if_neg h, get_inside (mt (outside_congr hrows hcols).1 h), hrows, data_setAll h]

end ColumnMajor
