import RotorXdp.DataStructures
import RotorXdp.Lib.ColumnMajor

/-!
# Route and MAC matrices over any calls

`newRouteMatrix` and `newMacMatrix` announce a matrix with all values 0, and the loop that zeroes
the array is commented out in both.

* `MacMatrix` and its functions;
* `AsDocumented`: what the comments say of a matrix after any calls of its setter;
* `asDocumented_iff`: it is so exactly when `malloc` returned zeros for what no call has set.
-/

namespace RotorXdp

open ColumnMajor

/-- `struct mac_addr`, with one byte more than `ETH_ALEN`. -/
abbrev MacAddr := { addr : List UInt8 // addr.length = 7 }

def MacAddr.zero : MacAddr := ⟨List.replicate 7 0, rfl⟩

/-- `mac_matrix`. -/
abbrev MacMatrix := Table MacAddr

/-- `newMacMatrix`, with what `malloc` returned. -/
def newMacMatrix (rows cols : ℤ) (heap : ℕ → MacAddr) : Option MacMatrix :=
  if rows ≤ 0 ∨ cols ≤ 0 then none else some ⟨rows, cols, heap⟩

/-- `setMacElement`. -/
def setMacElement (m : MacMatrix) (row col : ℤ) (val : MacAddr) : ℤ × MacMatrix := m.set row col val

/-- `getMacElement`. -/
def getMacElement (m : MacMatrix) (row col : ℤ) : ℤ × Option MacAddr := m.get row col

/-! ### What the comments say -/

section Documented

variable {M α : Type*}

/-- A matrix after a list of calls of its setter. -/
def afterCalls (set : M → ℤ → ℤ → α → ℤ × M) (m : M) (calls : List (SetCall α)) : M :=
  calls.foldl (fun m c => (set m c.row c.col c.val).2) m

/-- The matrix made by `new` holds after `calls` what was set last, and zero where nothing was. -/
structure AsDocumented (new : Option M) (set : M → ℤ → ℤ → α → ℤ × M)
    (get : M → ℤ → ℤ → ℤ × Option α) (rows cols : ℤ) (zero : α) (calls : List (SetCall α)) :
    Prop where
  created : ∃ m, new = some m
  outside : ∀ m row col, new = some m → (row ≤ 0 ∨ row > rows ∨ col ≤ 0 ∨ col > cols) →
    get (afterCalls set m calls) row col = (-2, none)
  inside : ∀ m row col, new = some m → ¬ (row ≤ 0 ∨ row > rows ∨ col ≤ 0 ∨ col > cols) →
    get (afterCalls set m calls) row col = (0, some ((lastSet row col calls).getD zero))
  others : ∀ m row col row' col' val, new = some m → ¬ (row' = row ∧ col' = col) →
    get (set (afterCalls set m calls) row' col' val).2 row col =
      get (afterCalls set m calls) row col

/-- The memory is zero where no call has set an element. -/
def ZeroWhereUnset (rows cols : ℤ) (heap : ℕ → α) (zero : α) (calls : List (SetCall α)) : Prop :=
  ∀ row col, 1 ≤ row → row ≤ rows → 1 ≤ col → col ≤ cols → lastSet row col calls = none →
    heap (index rows row col) = zero

variable {new : Option M} {set : M → ℤ → ℤ → α → ℤ × M} {get : M → ℤ → ℤ → ℤ × Option α}
  {rows cols : ℤ} {heap : ℕ → α} {zero : α} {calls : List (SetCall α)}

theorem afterCalls_table (table : M → Table α)
    (hset : ∀ m row col val, table (set m row col val).2 = ((table m).set row col val).2) (m : M)
    (calls : List (SetCall α)) : table (afterCalls set m calls) = (table m).setAll calls := by
  induction calls generalizing m with
  | nil => rfl
  | cons c calls ih =>
    show table (afterCalls set (set m c.row c.col c.val).2 calls) = _
    rw [ih, hset]
    rfl

/-- A matrix whose functions are those of a column-major table. -/
theorem asDocumented_iff (table : M → Table α)
    (hnew : ∃ m, new = some m ∧ table m = ⟨rows, cols, heap⟩)
    (hset : ∀ m row col val, table (set m row col val).2 = ((table m).set row col val).2)
    (hget : ∀ m row col, get m row col = (table m).get row col) :
    AsDocumented new set get rows cols zero calls ↔ ZeroWhereUnset rows cols heap zero calls := by
  obtain ⟨m, hm, htable⟩ := hnew
  have hafter : ∀ row col, get (afterCalls set m calls) row col =
      if row ≤ 0 ∨ row > rows ∨ col ≤ 0 ∨ col > cols then (-2, none)
      else (0, some ((lastSet row col calls).getD (heap (index rows row col)))) := by
    intro row col
    rw [hget, afterCalls_table table hset, htable]
    exact Table.get_setAll _ calls row col
  constructor
  · intro h row col h1 h2 h3 h4 hunset
    have hin : ¬ (row ≤ 0 ∨ row > rows ∨ col ≤ 0 ∨ col > cols) := by omega
    have hentry := h.inside m row col hm hin
    rw [hafter, if_neg hin, hunset] at hentry
    simpa using hentry
  · intro h
    refine ⟨⟨m, hm⟩, ?_, ?_, ?_⟩
    · intro m' row col hm' hout
      rw [hm] at hm'
      cases hm'
      rw [hafter, if_pos hout]
    · intro m' row col hm' hin
      rw [hm] at hm'
      cases hm'
      rw [hafter, if_neg hin]
      -- only an element that was never set shows the memory
      cases hlast : lastSet row col calls with
      | some v => rfl
      | none =>
        have hzero := h row col (by omega) (by omega) (by omega) (by omega) hlast
        simp only [Option.getD_none, hzero]
    · intro m' row col row' col' val _ hne
      rw [hget, hset, hget]
      exact Table.get_set_of_ne hne

end Documented

/-- A route matrix as a column-major table. -/
def RouteMatrix.table (m : RouteMatrix) : Table ℤ := ⟨m.rows, m.cols, m.data⟩

theorem setRouteElement_table (m : RouteMatrix) (row col val : ℤ) :
    (setRouteElement m row col val).2.table = (m.table.set row col val).2 := by
  by_cases h : m.outside row col
  · have h' : m.table.Outside row col := h
    rw [setRouteElement, Table.set, if_pos h, if_pos h']
  · have h' : ¬ m.table.Outside row col := h
    rw [setRouteElement, Table.set, if_neg h, if_neg h']
    rfl

theorem getRouteElement_table (m : RouteMatrix) (row col : ℤ) :
    getRouteElement m row col = m.table.get row col := rfl

/-- **The matrices are as documented exactly when `malloc` returned zeros** for the elements that
no call has set. -/
theorem matrices_asDocumented_iff {rows cols : ℤ} (hrows : 0 < rows) (hcols : 0 < cols) :
    (∀ heap calls, AsDocumented (newRouteMatrix rows cols heap) setRouteElement getRouteElement
      rows cols 0 calls ↔ ZeroWhereUnset rows cols heap 0 calls) ∧
    ∀ heap calls, AsDocumented (newMacMatrix rows cols heap) setMacElement getMacElement
      rows cols MacAddr.zero calls ↔ ZeroWhereUnset rows cols heap MacAddr.zero calls := by
  have hsize : ¬ (rows ≤ 0 ∨ cols ≤ 0) := by omega
  constructor
  · intro heap calls
    refine asDocumented_iff RouteMatrix.table ⟨_, if_neg hsize, rfl⟩ ?_ ?_
    · exact setRouteElement_table
    · exact getRouteElement_table
  · intro heap calls
    refine asDocumented_iff id ⟨_, if_neg hsize, rfl⟩ ?_ ?_
    · exact fun _ _ _ _ => rfl
    · exact fun _ _ _ => rfl

/-- The 32 by 32 matrix of `main`. -/
theorem matrices_asDocumented_32 :
    (∀ heap calls, AsDocumented (newRouteMatrix 32 32 heap) setRouteElement getRouteElement
      32 32 0 calls ↔ ZeroWhereUnset 32 32 heap 0 calls) ∧
    ∀ heap calls, AsDocumented (newMacMatrix 32 32 heap) setMacElement getMacElement
      32 32 MacAddr.zero calls ↔ ZeroWhereUnset 32 32 heap MacAddr.zero calls :=
  matrices_asDocumented_iff (by decide) (by decide)

/-- One element set in memory that was used before: its neighbour is not 0. -/
theorem neighbour_not_zero :
    (∃ m, newRouteMatrix 32 32 (fun _ => 7) = some m ∧
      getRouteElement (afterCalls setRouteElement m [⟨1, 1, 5⟩]) 2 1 = (0, some 7)) ∧
    ¬ AsDocumented (newRouteMatrix 32 32 fun _ => 7) setRouteElement getRouteElement 32 32 0
      [⟨1, 1, 5⟩] := by
  refine ⟨⟨_, rfl, by decide⟩, fun h => ?_⟩
  have hentry := h.inside _ 2 1 rfl (by decide)
  exact absurd hentry (by decide)

end RotorXdp
