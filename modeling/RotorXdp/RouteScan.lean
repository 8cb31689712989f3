import RotorXdp.RouteFile

/-!
# Short lines of the route file

The inner loop of the route file runs 32 times, whatever is on the line: `strtol` stops at the NUL
behind the line, but the pointer is then moved one character on, to what an earlier line has left in
the buffer.

* `ScannedInside`: no call starts behind the NUL, and the values are those of the line;
* `Separated`: enough of the numbers on the line have a character behind them;
* `scannedInside_iff`, `fileScannedInside_iff`: the lines and the files for which that holds.
-/

namespace RotorXdp

open CText

/-- A line is scanned up to its NUL only: no call of `strtol` starts behind it, and the values are
the same whatever the buffer held before. -/
structure ScannedInside (buffer line : List Char) : Prop where
  calls : ∀ p ∈ (scanRow (fill buffer line) 32 0).1, p ≤ line.length
  values : ∀ buffer', (scanRow (fill buffer' line) 32 0).2 = (scanRow (fill buffer line) 32 0).2

/-- Every line that the loop comes to is scanned up to its NUL only. -/
def FileScannedInside : List (List Char) → List Char → Prop
  | [], _ => True
  | line :: lines, buffer => ScannedInside buffer line ∧
      ((scanRow (fill buffer line) 32 0).2 ≠ none → FileScannedInside lines (fill buffer line))

/-- Behind each of the first `n` numbers there is another character. A number is what `strtol`
converts, or nothing where it converts nothing; the next one starts behind that character. -/
def Separated : ℕ → List Char → Prop
  | 0, _ => True
  | n + 1, s => numeralLength s < s.length ∧ Separated n (s.drop (numeralLength s + 1))

instance instDecidableSeparated : ∀ n s, Decidable (Separated n s)
  | 0, _ => .isTrue trivial
  | n + 1, s =>
    have := instDecidableSeparated n (s.drop (numeralLength s + 1))
    inferInstanceAs (Decidable (_ ∧ _))

/-- The first `n` numbers on a line. -/
def lineValues : ℕ → List Char → List ℤ
  | 0, _ => []
  | n + 1, s => toInt (numeralValue s) :: lineValues n (s.drop (numeralLength s + 1))

variable {buffer line : List Char} {n ptr : ℕ}

theorem drop_fill (buffer : List Char) (h : ptr ≤ line.length) :
    (fill buffer line).drop ptr = line.drop ptr ++ nul :: buffer.drop (line.length + 1) :=
  List.drop_append_of_le_length h

/-- One round that starts on the line. -/
theorem scanRow_fill (buffer : List Char) (n : ℕ) (h : ptr ≤ line.length) :
    scanRow (fill buffer line) (n + 1) ptr =
      let r := scanRow (fill buffer line) n (ptr + numeralLength (line.drop ptr) + 1)
      (ptr :: r.1, r.2.map (toInt (numeralValue (line.drop ptr)) :: ·)) := by
  rw [scanRow, strtol_nul (drop_fill buffer h)]

/-- The first call of a scan starts at the pointer. -/
theorem mem_scanRow (buffer : List Char) (n ptr : ℕ) : ptr ∈ (scanRow buffer (n + 1) ptr).1 := by
  rw [scanRow]
  split
  · exact List.mem_cons_self
  · exact List.mem_cons_self

theorem calls_iff (buffer : List Char) (h : ptr ≤ line.length) :
    (∀ p ∈ (scanRow (fill buffer line) (n + 1) ptr).1, p ≤ line.length) ↔
      Separated n (line.drop ptr) := by
  induction n generalizing ptr with
  | zero =>
    rw [scanRow_fill buffer 0 h]
    refine iff_of_true (fun p hp => ?_) trivial
    rw [List.mem_singleton.1 hp]
    exact h
  | succ n ih =>
    rw [scanRow_fill buffer (n + 1) h, Separated, List.drop_drop]
    simp only [List.forall_mem_cons, h, true_and]
    have hle := numeralLength_le (line.drop ptr)
    rw [List.length_drop] at hle ⊢
    by_cases hnext : numeralLength (line.drop ptr) < line.length - ptr
    · have hptr : ptr + numeralLength (line.drop ptr) + 1 ≤ line.length := by omega
      rw [ih hptr, Nat.add_assoc]
      exact (and_iff_right hnext).symm
    · -- the number ends at the NUL, and the next call is behind it
      refine iff_of_false (fun hall => ?_) fun hsep => hnext hsep.1
      have := hall _ (mem_scanRow _ n _)
      omega

theorem values_of_separated (buffer : List Char) (h : ptr ≤ line.length)
    (hsep : Separated n (line.drop ptr)) :
    (scanRow (fill buffer line) (n + 1) ptr).2 = some (lineValues (n + 1) (line.drop ptr)) := by
  induction n generalizing ptr with
  | zero =>
    rw [scanRow_fill buffer 0 h]
    rfl
  | succ n ih =>
    obtain ⟨hnext, hrest⟩ := hsep
    rw [List.length_drop] at hnext
    rw [List.drop_drop] at hrest
    have hvalues := ih (by omega : ptr + (numeralLength (line.drop ptr) + 1) ≤ line.length) hrest
    rw [scanRow_fill buffer (n + 1) h, lineValues, List.drop_drop, Nat.add_assoc]
    simp only [hvalues, Option.map_some]

theorem values_fill (buffer : List Char) (hsep : Separated n line) :
    (scanRow (fill buffer line) (n + 1) 0).2 = some (lineValues (n + 1) line) :=
  values_of_separated buffer (Nat.zero_le line.length) hsep

theorem scannedInside_iff (buffer line : List Char) :
    ScannedInside buffer line ↔ Separated 31 line := by
  have hcalls := calls_iff (n := 31) buffer (Nat.zero_le line.length)
  rw [List.drop_zero] at hcalls
  constructor
  · intro h
    exact hcalls.1 h.calls
  · intro h
    refine ⟨hcalls.2 h, fun buffer' => ?_⟩
    rw [values_fill buffer' h, values_fill buffer h]

/-- **The route scanner stays inside the lines exactly when every line has a character behind each
of its first 31 numbers**, whatever the buffer holds at first. -/
theorem fileScannedInside_iff (file buffer : List Char) :
    FileScannedInside (readLines bufsiz two_le_bufsiz file) buffer ↔
      ∀ line ∈ readLines bufsiz two_le_bufsiz file, Separated 31 line := by
  generalize readLines bufsiz two_le_bufsiz file = lines
  induction lines generalizing buffer with
  | nil => exact ⟨fun _ line hline => absurd hline List.not_mem_nil, fun _ => trivial⟩
  | cons line lines ih =>
    rw [FileScannedInside, List.forall_mem_cons, scannedInside_iff]
    refine and_congr_right fun hsep => ?_
    have hvalues := values_fill buffer hsep
    rw [ih]
    exact ⟨fun h => h (by rw [hvalues]; exact Option.some_ne_none _), fun h _ => h⟩

/-- A line with the numbers 1 to 32. -/
def fullLine : List Char := printRow ((List.range 32).map fun i : ℕ => (i : ℤ) + 1)

/-- What the buffer holds up to the second NUL when the line `9` has been read behind a full
line. -/
def leftovers : List Char := ['9', '\n', nul] ++ fullLine.drop 3

theorem fill_leftovers (buffer : List Char) :
    fill (fill buffer fullLine) ['9', '\n'] = fill buffer leftovers := by
  have hlen : leftovers.length = fullLine.length := by decide +kernel
  have hthree : 3 ≤ fullLine.length := by decide +kernel
  have hdrop : (fullLine ++ nul :: buffer.drop (fullLine.length + 1)).drop 3 =
      fullLine.drop 3 ++ nul :: buffer.drop (fullLine.length + 1) :=
    List.drop_append_of_le_length hthree
  unfold fill
  rw [hlen, leftovers]
  exact congrArg (fun s => '9' :: '\n' :: nul :: s) hdrop

/-- Behind a full line, the line `9` is scanned as 9, 0, 0 and then the full line from its 3 on,
whatever the buffer holds at first. -/
theorem leftovers_scanned :
    readLines bufsiz two_le_bufsiz (fullLine ++ ['9', '\n']) = [fullLine, ['9', '\n']] ∧
    ∀ buffer,
      ((scanRow (fill (fill buffer fullLine) ['9', '\n']) 32 0).2.map fun vals => vals.take 5) =
        some [9, 0, 0, 3, 4] ∧
      ¬ FileScannedInside [fullLine, ['9', '\n']] buffer := by
  have hfull : Separated 31 fullLine := by decide +kernel
  refine ⟨?_, fun buffer => ⟨?_, fun h => ?_⟩⟩
  · have hline : ∃ l, '\n' ∉ l ∧ fullLine = l ++ ['\n'] := printRow_eq_line (by decide)
    obtain ⟨l, hl, hprint⟩ := hline
    have hlines : TextLines [fullLine, ['9', '\n']] := by
      rw [hprint]
      exact .cons l _ hl (.cons ['9'] [] (by decide) .nil)
    exact readLines_flatten two_le_bufsiz hlines (by decide +kernel)
  · have hsep : Separated 31 leftovers := by decide +kernel
    rw [fill_leftovers, values_fill buffer hsep]
    decide +kernel
  · have hvalues := values_fill buffer hfull
    have hsecond := h.2 (by rw [hvalues]; exact Option.some_ne_none _)
    have hsep := (scannedInside_iff _ _).1 hsecond.1
    exact absurd hsep (by decide +kernel)

end RotorXdp
