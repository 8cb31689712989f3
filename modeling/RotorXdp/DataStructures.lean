import Mathlib.Data.Nat.Notation
import Mathlib.Data.Int.Notation

/-!
# Route matrices

`data_structures.h`: a column-major array of `int` with 1-based rows (destinations) and columns
(topology slots).
-/

namespace RotorXdp

/-- `route_matrix`. -/
structure RouteMatrix where
  rows : ℤ
  cols : ℤ
  data : ℕ → ℤ

/-- `ELEM`: the index of (row, col) in the array. -/
def RouteMatrix.elem (m : RouteMatrix) (row col : ℤ) : ℕ := ((col - 1) * m.rows + (row - 1)).toNat

/-- `row <= 0 || row > mtx->rows || col <= 0 || col > mtx->cols`. -/
def RouteMatrix.outside (m : RouteMatrix) (row col : ℤ) : Prop :=
  row ≤ 0 ∨ row > m.rows ∨ col ≤ 0 ∨ col > m.cols

instance (m : RouteMatrix) (row col : ℤ) : Decidable (m.outside row col) :=
  inferInstanceAs (Decidable (_ ∨ _ ∨ _ ∨ _))

/-- `newRouteMatrix`. The array is what `malloc` returned: the loop that zeroes it is commented
out. -/
def newRouteMatrix (rows cols : ℤ) (heap : ℕ → ℤ) : Option RouteMatrix :=
  if rows ≤ 0 ∨ cols ≤ 0 then none else some ⟨rows, cols, heap⟩

/-- `setRouteElement`: the status and the matrix. -/
def setRouteElement (m : RouteMatrix) (row col val : ℤ) : ℤ × RouteMatrix :=
  if m.outside row col then (-2, m)
  else (0, { m with data := fun i => if i = m.elem row col then val else m.data i })

/-- `getRouteElement`: the status and the value stored through `val`, if any. -/
def getRouteElement (m : RouteMatrix) (row col : ℤ) : ℤ × Option ℤ :=
  if m.outside row col then (-2, none) else (0, some (m.data (m.elem row col)))

theorem getRouteElement_inside {m : RouteMatrix} {row col : ℤ} (h : ¬ m.outside row col) :
    getRouteElement m row col = (0, some (m.data (m.elem row col))) := by
  simp [getRouteElement, h]

theorem getRouteElement_outside {m : RouteMatrix} {row col : ℤ} (h : m.outside row col) :
    getRouteElement m row col = (-2, none) := by
  simp [getRouteElement, h]

end RotorXdp
