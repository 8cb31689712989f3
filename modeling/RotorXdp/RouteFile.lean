import RotorXdp.Loaders
import RotorXdp.Matrices
import RotorXdp.Lib.CText
import Mathlib.Data.List.Induction

/-!
# Reading the route file

The loop of `main` over the route file, on the characters of the file: a line is read into a buffer,
and 32 times `strtol` is called and its end pointer advanced by one character.

* `scanRow`, `loadRouteFile`: the loop;
* `RouteRow`, `printTable`: a table as a file;
* `loadRouteFile_printTable`: a file that was printed calls the setter for the values of the table;
* `loadRouteFile_eq_loadRoutes`: which is what `loadRoutes` does with them;
* `route_file_round_trip`: the matrix holds the table.
-/

namespace RotorXdp

open CText ColumnMajor Loops

def bufsiz : ℕ := 8192

theorem two_le_bufsiz : 2 ≤ bufsiz := by decide

/-- `(int)` of a `long`. -/
def toInt (v : ℤ) : ℤ := toInt32 (v % 4294967296).toNat

/-- `int row = i + 1`, with an `i` that is a `size_t`. -/
def rowNumber (i : ℕ) : ℤ := toInt32 ((i + 1) % 4294967296)

/-- The `n` rounds of the inner loop that are left, from `ptr` on: the positions at which `strtol`
is called, and the values, `none` when a call leaves the buffer. -/
def scanRow (buffer : List Char) : ℕ → ℕ → List ℕ × Option (List ℤ)
  | 0, _ => ([], some [])
  | n + 1, ptr =>
    match strtol buffer ptr with
    | none => ([ptr], none)
    | some (val, endptr) =>
      let r := scanRow buffer n (endptr + 1)
      (ptr :: r.1, r.2.map (toInt val :: ·))

/-- The calls of `setRouteElement` for the values of a line, from column `j + 1` on. -/
def rowCalls (row : ℤ) : ℕ → List ℤ → List (SetCall ℤ)
  | _, [] => []
  | j, val :: vals => ⟨row, j + 1, val⟩ :: rowCalls row (j + 1) vals

/-- The loop over the lines, from line `i` on. A value is stored as soon as it is converted, and no
conversion depends on the matrix. -/
def loadRouteLines : ℕ → List (List Char) → List Char → RouteMatrix → Option RouteMatrix
  | _, [], _, m => some m
  | i, line :: lines, buffer, m =>
    let buffer := fill buffer line
    (scanRow buffer 32 0).2.bind fun vals =>
      loadRouteLines (i + 1) lines buffer
        (afterCalls setRouteElement m (rowCalls (rowNumber i) 0 vals))

/-- The matrix after the route file, with what the buffer held before. -/
def loadRouteFile (file buffer : List Char) (m : RouteMatrix) : Option RouteMatrix :=
  loadRouteLines 0 (readLines bufsiz two_le_bufsiz file) buffer m

/-! ### A table as a file -/

/-- The values of a line. -/
structure RouteRow where
  vals : List ℤ
  length_eq : vals.length = 32
  int : ∀ v ∈ vals, -2147483648 ≤ v ∧ v ≤ 2147483647

/-- Values in decimal with commas between them and a newline at the end. -/
def printRow : List ℤ → List Char
  | [] => []
  | v :: vs => decimal v ++ (if vs = [] then '\n' else ',') :: printRow vs

/-- A line for each row. -/
def printTable (rows : List RouteRow) : List Char := (rows.map fun r => printRow r.vals).flatten

/-- The calls of `setRouteElement` for a table, from line `i` on. -/
def tableCalls : ℕ → List RouteRow → List (SetCall ℤ)
  | _, [] => []
  | i, r :: rows => rowCalls (rowNumber i) 0 r.vals ++ tableCalls (i + 1) rows

section Printing

variable {vs : List ℤ} {buffer rest : List Char} {ptr i : ℕ} {rows : List RouteRow}

theorem toInt_eq {v : ℤ} (h1 : -2147483648 ≤ v) (h2 : v ≤ 2147483647) : toInt v = v := by
  unfold toInt toInt32
  split <;> omega

theorem separator_not_digit (vs : List ℤ) :
    (if vs = [] then '\n' else ',').isDigit = false := by
  split <;> decide

/-- Scanning a printed line finds its values. -/
theorem scanRow_printRow (hint : ∀ v ∈ vs, -2147483648 ≤ v ∧ v ≤ 2147483647)
    (hbuffer : buffer.drop ptr = printRow vs ++ rest) :
    (scanRow buffer vs.length ptr).2 = some vs := by
  induction vs generalizing ptr with
  | nil => rfl
  | cons v vs ih =>
    obtain ⟨h1, h2⟩ := hint v List.mem_cons_self
    rw [printRow, List.append_assoc, List.cons_append] at hbuffer
    have hcall := strtol_decimal (by omega) (by omega) (separator_not_digit vs) hbuffer
    -- the end pointer is at the separator
    have hnext : buffer.drop (ptr + (decimal v).length + 1) = printRow vs ++ rest := by
      rw [Nat.add_assoc, ← List.drop_drop, hbuffer, List.append_cons]
      exact List.drop_left' (by rw [List.length_append, List.length_singleton])
    have hrest := ih (fun w hw => hint w (List.mem_cons_of_mem v hw)) hnext
    rw [List.length_cons, scanRow, hcall]
    simp only [hrest, Option.map_some, toInt_eq h1 h2]

/-- A number has no newline. -/
theorem newline_not_mem_decimal (v : ℤ) : '\n' ∉ decimal v := by
  have hdigits : '\n' ∉ Nat.toDigits 10 v.natAbs := not_mem_toDigits (by decide) v.natAbs
  unfold decimal
  split
  · intro h
    rcases List.mem_cons.1 h with h | h
    · exact absurd h (by decide)
    · exact hdigits h
  · exact hdigits

/-- A printed row is one line. -/
theorem printRow_eq_line (hvs : vs ≠ []) : ∃ l, '\n' ∉ l ∧ printRow vs = l ++ ['\n'] := by
  induction vs with
  | nil => exact absurd rfl hvs
  | cons v vs ih =>
    by_cases hnil : vs = []
    · subst hnil
      exact ⟨decimal v, newline_not_mem_decimal v, rfl⟩
    · obtain ⟨l, hl, hprint⟩ := ih hnil
      refine ⟨decimal v ++ ',' :: l, fun h => ?_, ?_⟩
      · rcases List.mem_append.1 h with h | h
        · exact newline_not_mem_decimal v h
        · rcases List.mem_cons.1 h with h | h
          · exact absurd h (by decide)
          · exact hl h
      · rw [printRow, if_neg hnil, hprint, List.append_assoc, List.cons_append]

theorem length_printRow_le (hint : ∀ v ∈ vs, -2147483648 ≤ v ∧ v ≤ 2147483647) :
    (printRow vs).length ≤ 12 * vs.length := by
  induction vs with
  | nil => exact Nat.le_refl _
  | cons v vs ih =>
    have hv := hint v List.mem_cons_self
    have hdecimal := length_decimal_le (v := v) (k := 10) (by decide) (by omega)
    have hrest := ih fun w hw => hint w (List.mem_cons_of_mem v hw)
    rw [printRow, List.length_append, List.length_cons, List.length_cons]
    omega

theorem RouteRow.vals_ne_nil (r : RouteRow) : r.vals ≠ [] := by
  intro h
  have := r.length_eq
  rw [h] at this
  cases this

/-- `fgets` returns the printed rows one by one. -/
theorem readLines_printTable (rows : List RouteRow) :
    readLines bufsiz two_le_bufsiz (printTable rows) = rows.map fun r => printRow r.vals := by
  apply readLines_flatten
  · induction rows with
    | nil => exact .nil
    | cons r rows ih =>
      obtain ⟨l, hl, hprint⟩ := printRow_eq_line r.vals_ne_nil
      rw [List.map_cons, hprint]
      exact .cons l _ hl ih
  · intro l hl
    obtain ⟨r, -, rfl⟩ := List.mem_map.1 hl
    have hle := length_printRow_le r.int
    rw [r.length_eq] at hle
    exact Nat.lt_of_le_of_lt hle (by decide)

theorem afterCalls_append (m : RouteMatrix) (calls calls' : List (SetCall ℤ)) :
    afterCalls setRouteElement m (calls ++ calls') =
      afterCalls setRouteElement (afterCalls setRouteElement m calls) calls' := List.foldl_append

theorem loadRouteLines_print (rows : List RouteRow) (i : ℕ) (buffer : List Char) (m : RouteMatrix) :
    loadRouteLines i (rows.map fun r => printRow r.vals) buffer m =
      some (afterCalls setRouteElement m (tableCalls i rows)) := by
  induction rows generalizing i buffer m with
  | nil => rfl
  | cons r rows ih =>
    have hscan : (scanRow (fill buffer (printRow r.vals)) 32 0).2 = some r.vals := by
      rw [← r.length_eq]
      exact scanRow_printRow r.int rfl
    rw [List.map_cons, loadRouteLines, hscan, Option.bind_some, ih, tableCalls, afterCalls_append]

/-- A printed table is stored by one call of the setter for each value. -/
theorem loadRouteFile_printTable (rows : List RouteRow) (buffer : List Char) (m : RouteMatrix) :
    loadRouteFile (printTable rows) buffer m =
      some (afterCalls setRouteElement m (tableCalls 0 rows)) := by
  rw [loadRouteFile, readLines_printTable, loadRouteLines_print]

/-! ### The loops of `loadRoutes` -/

theorem rowCalls_append (row : ℤ) (j : ℕ) (vals vals' : List ℤ) :
    rowCalls row j (vals ++ vals') =
      rowCalls row j vals ++ rowCalls row (j + vals.length) vals' := by
  induction vals generalizing j with
  | nil => rfl
  | cons v vals ih =>
    rw [List.cons_append, rowCalls, rowCalls, ih, List.cons_append, List.length_cons,
      Nat.add_assoc, Nat.add_comm 1]

theorem tableCalls_append (i : ℕ) (rows rows' : List RouteRow) :
    tableCalls i (rows ++ rows') = tableCalls i rows ++ tableCalls (i + rows.length) rows' := by
  induction rows generalizing i with
  | nil => rfl
  | cons r rows ih =>
    rw [List.cons_append, tableCalls, tableCalls, ih, List.append_assoc, List.length_cons,
      Nat.add_assoc, Nat.add_comm 1]

theorem rowNumber_of_lt (h : i < 2147483647) : rowNumber i = i + 1 := by
  unfold rowNumber toInt32
  split <;> omega

/-- The calls for a line are the inner loop. -/
theorem afterCalls_rowCalls (m : RouteMatrix) (row : ℤ) (f : ℕ → ℤ) (vals : List ℤ)
    (hf : ∀ j (h : j < vals.length), f j = vals[j]) :
    afterCalls setRouteElement m (rowCalls row 0 vals) =
      forLoop vals.length (fun j m => (setRouteElement m row (j + 1) (f j)).2) m := by
  induction vals using List.reverseRecOn with
  | nil => rfl
  | append_singleton vals v ih =>
    have hlast : f vals.length = v := by
      rw [hf vals.length (by simp)]
      exact List.getElem_concat_length rfl _
    have hbefore := ih fun j hj => by
      rw [hf j (by simp; omega), List.getElem_append_left hj]
    rw [rowCalls_append, afterCalls_append, hbefore, List.length_append, List.length_singleton,
      Nat.zero_add, forLoop, hlast]
    rfl

/-- The calls for a table are the outer loop, as long as the line numbers fit an `int`. -/
theorem afterCalls_tableCalls (c : Config) (m : RouteMatrix) (rows : List RouteRow)
    (hcount : rows.length < 2147483648)
    (hroute : ∀ i (hi : i < rows.length) j (hj : j < rows[i].vals.length),
      c.route i j = rows[i].vals[j]) :
    afterCalls setRouteElement m (tableCalls 0 rows) = forLoop rows.length (fun i m =>
      forLoop 32 (fun j m => (setRouteElement m (i + 1) (j + 1) (c.route i j)).2) m) m := by
  induction rows using List.reverseRecOn with
  | nil => rfl
  | append_singleton rows r ih =>
    rw [List.length_append, List.length_singleton] at hcount
    have hbefore := ih (by omega) fun i hi j hj => by
      have hi' : i < (rows ++ [r]).length := by rw [List.length_append]; omega
      have hget : (rows ++ [r])[i] = rows[i] := List.getElem_append_left hi
      have := hroute i hi' j (by rw [hget]; exact hj)
      simpa only [hget] using this
    have hlast : rows.length < (rows ++ [r]).length := by simp
    have hget : (rows ++ [r])[rows.length] = r := List.getElem_concat_length rfl _
    have hrow := afterCalls_rowCalls (afterCalls setRouteElement m (tableCalls 0 rows))
      (rowNumber rows.length) (c.route rows.length) r.vals fun j hj => by
        have := hroute rows.length hlast j (by rw [hget]; exact hj)
        simpa only [hget] using this
    rw [tableCalls_append, afterCalls_append, Nat.zero_add, List.length_append,
      List.length_singleton, forLoop, ← hbefore]
    rw [r.length_eq, rowNumber_of_lt (by omega)] at hrow
    rw [tableCalls, tableCalls, List.append_nil, rowNumber_of_lt (by omega)]
    exact hrow

/-- Loading a printed table is what `loadRoutes` does with its numbers. -/
theorem loadRouteFile_eq_loadRoutes (c : Config) (m : RouteMatrix) (rows : List RouteRow)
    (hlines : c.routeLines = rows.length) (hcount : rows.length < 2147483648)
    (hroute : ∀ i (hi : i < rows.length) j (hj : j < rows[i].vals.length),
      c.route i j = rows[i].vals[j]) (buffer : List Char) :
    loadRouteFile (printTable rows) buffer m = some (loadRoutes c m) := by
  rw [loadRouteFile_printTable, afterCalls_tableCalls c m rows hcount hroute, loadRoutes, hlines]

end Printing

/-! ### The matrix -/

section Entries

variable {row col : ℤ} {i j k : ℕ} {vals : List ℤ} {rows : List RouteRow} {m : RouteMatrix}

theorem lastSet_rowCalls_of_le (hcol : col ≤ j) (row' : ℤ) (vals : List ℤ) :
    lastSet row' col (rowCalls row j vals) = none := by
  induction vals generalizing j with
  | nil => rfl
  | cons v vals ih =>
    have hne : ¬ (row = row' ∧ (j : ℤ) + 1 = col) := by omega
    rw [rowCalls, lastSet, ih (by omega), if_neg hne]
    rfl

theorem lastSet_rowCalls_of_ne {row' : ℤ} (h : row ≠ row') (col : ℤ) (j : ℕ) (vals : List ℤ) :
    lastSet row' col (rowCalls row j vals) = none := by
  induction vals generalizing j with
  | nil => rfl
  | cons v vals ih =>
    rw [rowCalls, lastSet, ih, if_neg fun hc => h hc.1]
    rfl

/-- A line sets each of its columns once. -/
theorem lastSet_rowCalls (row : ℤ) (j k : ℕ) (vals : List ℤ) :
    lastSet row (j + k + 1 : ℕ) (rowCalls row j vals) = vals[k]? := by
  induction vals generalizing j k with
  | nil => rfl
  | cons v vals ih =>
    rw [rowCalls, lastSet]
    cases k with
    | zero =>
      have heq : row = row ∧ (j : ℤ) + 1 = (j + 0 + 1 : ℕ) := ⟨rfl, by omega⟩
      rw [lastSet_rowCalls_of_le (by omega), if_pos heq]
      rfl
    | succ k =>
      have hrest := ih (j + 1) k
      rw [show j + 1 + k + 1 = j + (k + 1) + 1 by omega] at hrest
      have hne : ¬ (row = row ∧ (j : ℤ) + 1 = (j + (k + 1) + 1 : ℕ)) := by omega
      rw [hrest, if_neg hne, Option.or_none, List.getElem?_cons_succ]

theorem rowNumber_eq_iff (hi : i < 4294967296) (hk : k < 32) : rowNumber i = k + 1 ↔ i = k := by
  unfold rowNumber toInt32
  split <;> omega

/-- Of a table with at most 2^32 lines, a row of the matrix is set by its own line only. -/
theorem lastSet_tableCalls (hcount : i + rows.length ≤ 4294967296) (hk : k < 32) (j : ℕ) :
    lastSet (k + 1) (j + 1 : ℕ) (tableCalls i rows) =
      if i ≤ k then (rows[k - i]?).bind fun r => r.vals[j]? else none := by
  induction rows generalizing i with
  | nil =>
    split <;> rfl
  | cons r rows ih =>
    rw [List.length_cons] at hcount
    rw [tableCalls, lastSet_append, ih (by omega)]
    rcases Nat.lt_trichotomy i k with hlt | rfl | hgt
    · have hne : rowNumber i ≠ k + 1 := mt (rowNumber_eq_iff (by omega) hk).1 (by omega)
      rw [if_pos (Nat.succ_le_of_lt hlt), if_pos hlt.le, lastSet_rowCalls_of_ne hne, Option.or_none,
        show k - i = k - (i + 1) + 1 by omega, List.getElem?_cons_succ]
    · have heq : rowNumber i = i + 1 := (rowNumber_eq_iff (by omega) hk).2 rfl
      have hrow := lastSet_rowCalls (i + 1) 0 j r.vals
      rw [Nat.zero_add] at hrow
      rw [if_neg (by omega), if_pos (Nat.le_refl i), heq, hrow, Nat.sub_self,
        List.getElem?_cons_zero]
      rfl
    · have hne : rowNumber i ≠ k + 1 := mt (rowNumber_eq_iff (by omega) hk).1 (by omega)
      rw [if_neg (by omega), if_neg (by omega), lastSet_rowCalls_of_ne hne]
      rfl

/-- Calls for rows that the matrix does not have change nothing. -/
theorem afterCalls_outside {calls : List (SetCall ℤ)}
    (h : ∀ c ∈ calls, m.outside c.row c.col) : afterCalls setRouteElement m calls = m := by
  induction calls with
  | nil => rfl
  | cons c calls ih =>
    have hout := h c List.mem_cons_self
    have hset : (setRouteElement m c.row c.col c.val).2 = m := by
      rw [setRouteElement, if_pos hout]
    show afterCalls setRouteElement (setRouteElement m c.row c.col c.val).2 calls = m
    rw [hset, ih fun c' hc' => h c' (List.mem_cons_of_mem c hc')]

theorem row_of_mem_rowCalls {c : SetCall ℤ} (h : c ∈ rowCalls row j vals) : c.row = row := by
  induction vals generalizing j with
  | nil => cases h
  | cons v vals ih =>
    rcases List.mem_cons.1 h with rfl | h
    · rfl
    · exact ih h

theorem row_of_mem_tableCalls {c : SetCall ℤ} (h : c ∈ tableCalls i rows) :
    ∃ k, i ≤ k ∧ k < i + rows.length ∧ c.row = rowNumber k := by
  induction rows generalizing i with
  | nil => cases h
  | cons r rows ih =>
    rw [List.length_cons]
    rcases List.mem_append.1 h with h | h
    · exact ⟨i, Nat.le_refl i, by omega, row_of_mem_rowCalls h⟩
    · obtain ⟨k, hik, hlt, hrow⟩ := ih h
      exact ⟨k, by omega, by omega, hrow⟩

theorem rowNumber_outside (h32 : 32 ≤ i) (hlt : i < 4294967296) :
    rowNumber i ≤ 0 ∨ 32 < rowNumber i := by
  unfold rowNumber toInt32
  split <;> omega

/-- Up to the line 2^32, the lines after the 32nd change nothing. -/
theorem afterCalls_extra (hm : m.rows = 32) (h32 : 32 ≤ i)
    (hcount : i + rows.length ≤ 4294967296) :
    afterCalls setRouteElement m (tableCalls i rows) = m := by
  apply afterCalls_outside
  intro c hc
  obtain ⟨k, hik, hlt, hrow⟩ := row_of_mem_tableCalls hc
  rw [RouteMatrix.outside, hrow, hm]
  rcases rowNumber_outside (by omega : 32 ≤ k) (by omega) with h | h
  · exact .inl h
  · exact .inr (.inl h)

/-- The matrix after any calls. -/
theorem getRouteElement_afterCalls (m : RouteMatrix) (calls : List (SetCall ℤ)) (row col : ℤ) :
    getRouteElement (afterCalls setRouteElement m calls) row col =
      if m.outside row col then (-2, none)
      else (0, some ((lastSet row col calls).getD (m.data (m.elem row col)))) := by
  rw [getRouteElement_table,
    afterCalls_table RouteMatrix.table (fun m row col val => setRouteElement_table m row col val)]
  exact Table.get_setAll m.table calls row col

theorem afterCalls_rows (m : RouteMatrix) (calls : List (SetCall ℤ)) :
    (afterCalls setRouteElement m calls).rows = m.rows := by
  have h := afterCalls_table RouteMatrix.table
    (fun m row col val => setRouteElement_table m row col val) m calls
  exact (congrArg Table.rows h).trans (m.table.setAll_size calls).1

end Entries

/-- **Loading undoes printing for route files of up to 2^32 lines**, and the lines after the 32nd
change nothing. -/
theorem route_file_round_trip (rows : List RouteRow) (hcount : rows.length ≤ 4294967296)
    (heap : ℕ → ℤ) (buffer : List Char) :
    ∃ m₀ m, newRouteMatrix 32 32 heap = some m₀ ∧
      loadRouteFile (printTable rows) buffer m₀ = some m ∧
      (∀ i (hi : i < rows.length) j (hj : j < rows[i].vals.length), i < 32 →
        getRouteElement m (i + 1) (j + 1) = (0, some rows[i].vals[j])) ∧
      loadRouteFile (printTable (rows.take 32)) buffer m₀ = some m := by
  let m₀ : RouteMatrix := ⟨32, 32, heap⟩
  refine ⟨m₀, afterCalls setRouteElement m₀ (tableCalls 0 rows), rfl,
    loadRouteFile_printTable rows buffer m₀, ?_, ?_⟩
  · intro i hi j hj h32
    have hlast := lastSet_tableCalls (by omega : 0 + rows.length ≤ 4294967296) h32 j
    rw [if_pos (Nat.zero_le i), Nat.sub_zero, List.getElem?_eq_getElem hi, Option.bind_some,
      List.getElem?_eq_getElem hj] at hlast
    have hcol : ((j + 1 : ℕ) : ℤ) = j + 1 := by omega
    rw [hcol] at hlast
    have hj32 : j < 32 := by rwa [rows[i].length_eq] at hj
    have hin : ¬ m₀.outside (i + 1) (j + 1) := by
      simp only [RouteMatrix.outside, m₀]
      omega
    rw [getRouteElement_afterCalls, if_neg hin, hlast]
    rfl
  · rw [loadRouteFile_printTable]
    by_cases hle : rows.length ≤ 32
    · rw [List.take_of_length_le hle]
    · -- the calls for the lines after the 32nd are refused
      have hlen : (rows.take 32).length = 32 := by
        rw [List.length_take]
        omega
      have hsplit := tableCalls_append 0 (rows.take 32) (rows.drop 32)
      rw [List.take_append_drop, hlen, Nat.zero_add] at hsplit
      rw [hsplit, afterCalls_append, afterCalls_extra (afterCalls_rows m₀ _) (Nat.le_refl 32)]
      rw [List.length_drop]
      omega

/-- Powers of ten of up to ten digits, of both signs; each row starts with another power. -/
def mixedRow (k : ℕ) : RouteRow where
  vals := (List.range 32).map fun j =>
    if j % 3 = 0 then -(10 ^ ((j + k) % 10) : ℕ) else (10 ^ ((j + k) % 10) : ℕ)
  length_eq := by rw [List.length_map, List.length_range]
  int v hv := by
    obtain ⟨j, -, rfl⟩ := List.mem_map.1 hv
    have hle : 10 ^ ((j + k) % 10) ≤ 10 ^ 9 := Nat.pow_le_pow_right (by decide) (by omega)
    generalize 10 ^ ((j + k) % 10) = p at hle ⊢
    split <;> omega

/-- Eight lines more than the matrix has rows. -/
def mixedTable : List RouteRow := (List.range 40).map mixedRow

theorem route_file_round_trip_forty : mixedTable.length = 40 ∧
    ∃ m₀ m, newRouteMatrix 32 32 (fun _ => 7) = some m₀ ∧
      loadRouteFile (printTable mixedTable) (List.replicate bufsiz nul) m₀ = some m ∧
      (∀ i (hi : i < mixedTable.length) j (hj : j < mixedTable[i].vals.length), i < 32 →
        getRouteElement m (i + 1) (j + 1) = (0, some mixedTable[i].vals[j])) ∧
      loadRouteFile (printTable (mixedTable.take 32)) (List.replicate bufsiz nul) m₀ = some m :=
  ⟨rfl, route_file_round_trip mixedTable (by decide) (fun _ => 7) (List.replicate bufsiz nul)⟩

/-- A row of equal values. -/
def constRow (v : ℤ) (h : -2147483648 ≤ v ∧ v ≤ 2147483647) : RouteRow where
  vals := List.replicate 32 v
  length_eq := List.length_replicate
  int w hw := by
    rw [List.eq_of_mem_replicate hw]
    exact h

def zeroRow : RouteRow := constRow 0 (by decide)
def oneRow : RouteRow := constRow 1 (by decide)

/-- 2^32 lines of zeros and one of ones: the last line number is 1 again, and the first row of the
matrix is overwritten. -/
theorem line_number_wraps :
    (∃ m m',
      (∀ buffer, loadRouteFile (printTable (List.replicate 4294967296 zeroRow ++ [oneRow])) buffer
        ⟨32, 32, fun _ => 0⟩ = some m) ∧
      (∀ buffer, loadRouteFile
        (printTable ((List.replicate 4294967296 zeroRow ++ [oneRow]).take 32)) buffer
        ⟨32, 32, fun _ => 0⟩ = some m') ∧
      getRouteElement m 1 1 = (0, some 1) ∧ getRouteElement m' 1 1 = (0, some 0)) ∧
    ¬ ∀ (rows : List RouteRow) (buffer : List Char) (heap : ℕ → ℤ),
      loadRouteFile (printTable rows) buffer ⟨32, 32, heap⟩ =
        loadRouteFile (printTable (rows.take 32)) buffer ⟨32, 32, heap⟩ := by
  have hin : ¬ RouteMatrix.outside ⟨32, 32, fun _ => 0⟩ 1 1 := by decide
  have hlen : (List.replicate 4294967296 zeroRow).length = 4294967296 := List.length_replicate
  have htake : (List.replicate 4294967296 zeroRow ++ [oneRow]).take 32 =
      List.replicate 32 zeroRow := by
    rw [List.take_append_of_le_length (by rw [hlen]; decide), List.take_replicate]
    rfl
  have hfirst : rowNumber 4294967296 = 1 := by decide
  have hrow := lastSet_rowCalls 1 0 0 oneRow.vals
  have hone : getRouteElement (afterCalls setRouteElement ⟨32, 32, fun _ => 0⟩
      (tableCalls 0 (List.replicate 4294967296 zeroRow ++ [oneRow]))) 1 1 = (0, some 1) := by
    rw [getRouteElement_afterCalls, if_neg hin, tableCalls_append, lastSet_append, hlen,
      Nat.zero_add, tableCalls, tableCalls, List.append_nil, hfirst]
    rw [show lastSet 1 1 (rowCalls 1 0 oneRow.vals) = some 1 from hrow]
    rfl
  have hzero : getRouteElement (afterCalls setRouteElement ⟨32, 32, fun _ => 0⟩
      (tableCalls 0 ((List.replicate 4294967296 zeroRow ++ [oneRow]).take 32))) 1 1 =
      (0, some 0) := by
    have hlast := lastSet_tableCalls (k := 0)
      (by decide : 0 + (List.replicate 32 zeroRow).length ≤ 4294967296) (by decide) 0
    rw [getRouteElement_afterCalls, if_neg hin, htake]
    rw [show lastSet 1 1 (tableCalls 0 (List.replicate 32 zeroRow)) = some 0 from hlast]
    rfl
  refine ⟨⟨_, _, fun buffer => loadRouteFile_printTable _ buffer _,
    fun buffer => loadRouteFile_printTable _ buffer _, hone, hzero⟩, fun h => ?_⟩
  have hsame := h (List.replicate 4294967296 zeroRow ++ [oneRow]) [] fun _ => 0
  rw [loadRouteFile_printTable, loadRouteFile_printTable] at hsame
  rw [Option.some.inj hsame, hzero] at hone
  exact absurd hone (by decide)

end RotorXdp
