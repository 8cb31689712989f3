import Mathlib.Data.Nat.Notation
import Mathlib.Data.Int.Notation
import Mathlib.Data.List.TakeWhile
import Mathlib.Algebra.Order.Ring.Int

/-!
# Text in C buffers

What the C library does with text in a buffer of characters: `fgets` reads a file line by line, the
string in a buffer ends at its first NUL, `strtok` cuts it at a separator, `strtol` converts the
decimal number at a position. Characters behind the NUL are left from before.

* `strtol`: a number is spaces, a sign and digits; the scan of a number that the end of the buffer
  does not stop leaves the buffer;
* `numeral_of_stop`: a character that is part of no number hides what is behind it;
* `numeral_decimal`: a number that was printed is read back;
* `fgets`, `readLines`, `readLines_flatten`: the lines of a file;
* `tokens_intercalate`: the fields of a line that was printed.
-/

namespace CText

def nul : Char := Char.ofNat 0

/-! ### Numbers -/

/-- `isspace` in the C locale. -/
def isSpace (c : Char) : Bool := c.toNat = 32 ∨ 9 ≤ c.toNat ∧ c.toNat ≤ 13

def isSign (c : Char) : Bool := c = '-' ∨ c = '+'

/-- The sign at the start of a text. -/
def signOf : List Char → List Char
  | c :: _ => if isSign c then [c] else []
  | [] => []

/-- What is behind the spaces and the sign. -/
def afterSign (s : List Char) : List Char :=
  (s.dropWhile isSpace).drop (signOf (s.dropWhile isSpace)).length

def digits (s : List Char) : List Char := (afterSign s).takeWhile Char.isDigit

/-- The number of characters that `strtol` scans before the one that stops it. -/
def scanned (s : List Char) : ℕ :=
  (s.takeWhile isSpace).length + (signOf (s.dropWhile isSpace)).length + (digits s).length

/-- The length of the number at the start of a text, 0 if there is none. -/
def numeralLength (s : List Char) : ℕ := if digits s = [] then 0 else scanned s

/-- `LONG_MIN` and `LONG_MAX` stand for what a `long` cannot hold. -/
def clampLong (v : ℤ) : ℤ := max (-9223372036854775808) (min v 9223372036854775807)

/-- The value of the number at the start of a text, 0 if there is none. -/
def numeralValue (s : List Char) : ℤ :=
  let v : ℤ := Nat.ofDigitChars 10 (digits s) 0
  clampLong (if signOf (s.dropWhile isSpace) = ['-'] then -v else v)

/-- `strtol` at a position of a buffer: the value and the end pointer, which is the position itself
when there is no number; `none` when the scan leaves the buffer. -/
def strtol (buffer : List Char) (ptr : ℕ) : Option (ℤ × ℕ) :=
  let s := buffer.drop ptr
  if scanned s < s.length then some (numeralValue s, ptr + numeralLength s) else none

/-- A number as `printf("%d")` writes it. -/
def decimal (v : ℤ) : List Char :=
  if v < 0 then '-' :: Nat.toDigits 10 v.natAbs else Nat.toDigits 10 v.natAbs

/-! ### Lines and fields -/

/-- A line of at most `n` characters, with its newline. -/
def lineOf : ℕ → List Char → List Char
  | 0, _ => []
  | _ + 1, [] => []
  | n + 1, c :: s => if c = '\n' then [c] else c :: lineOf n s

/-- `fgets` with a buffer of `size` characters: the line, and the rest of the file. -/
def fgets (size : ℕ) (file : List Char) : Option (List Char × List Char) :=
  if file = [] then none
  else some (lineOf (size - 1) file, file.drop (lineOf (size - 1) file).length)

/-- A buffer after `fgets`. -/
def fill (buffer line : List Char) : List Char := line ++ nul :: buffer.drop (line.length + 1)

/-- What `strtok` finds in the string of a buffer, one token after the other. -/
def tokens (sep : Char) (buffer : List Char) : List (List Char) :=
  ((buffer.takeWhile (· ≠ nul)).splitOn sep).filter (· ≠ [])

section Scan

variable {s t r : List Char} {c : Char} {p : Char → Bool}

theorem takeWhile_stop (t r : List Char) (h : p c = false) :
    (t ++ c :: r).takeWhile p = t.takeWhile p := by
  induction t with
  | nil => rw [List.nil_append, List.takeWhile_cons, h, List.takeWhile_nil]; rfl
  | cons a t ih => rw [List.cons_append, List.takeWhile_cons, List.takeWhile_cons, ih]

theorem dropWhile_stop (t r : List Char) (h : p c = false) :
    (t ++ c :: r).dropWhile p = t.dropWhile p ++ c :: r := by
  induction t with
  | nil => rw [List.nil_append, List.dropWhile_cons, h, List.dropWhile_nil]; rfl
  | cons a t ih =>
    rw [List.cons_append, List.dropWhile_cons, List.dropWhile_cons]
    by_cases ha : p a
    · rw [if_pos ha, if_pos ha, ih]
    · rw [if_neg ha, if_neg ha, List.cons_append]

theorem signOf_length_le (s : List Char) : (signOf s).length ≤ s.length := by
  cases s with
  | nil => exact Nat.le_refl _
  | cons c s =>
    rw [signOf]
    split
    · exact Nat.succ_le_succ (Nat.zero_le _)
    · exact Nat.zero_le _

theorem scanned_le (s : List Char) : scanned s ≤ s.length := by
  have hspaces : (s.takeWhile isSpace).length + (s.dropWhile isSpace).length = s.length := by
    rw [← List.length_append, List.takeWhile_append_dropWhile]
  have hsign := signOf_length_le (s.dropWhile isSpace)
  have hafter : (afterSign s).length =
      (s.dropWhile isSpace).length - (signOf (s.dropWhile isSpace)).length := List.length_drop
  have hdigits : (digits s).length ≤ (afterSign s).length :=
    (List.takeWhile_sublist Char.isDigit).length_le
  unfold scanned
  omega

theorem numeralLength_le_scanned (s : List Char) : numeralLength s ≤ scanned s := by
  unfold numeralLength
  split
  · exact Nat.zero_le _
  · exact Nat.le_refl _

theorem numeralLength_le (s : List Char) : numeralLength s ≤ s.length :=
  (numeralLength_le_scanned s).trans (scanned_le s)

/-- A character that is part of no number. -/
structure Stops (c : Char) : Prop where
  space : isSpace c = false
  sign : isSign c = false
  digit : c.isDigit = false

theorem stops_nul : Stops nul := ⟨by decide, by decide, by decide⟩

theorem signOf_stop (t r : List Char) (h : isSign c = false) : signOf (t ++ c :: r) = signOf t := by
  cases t with
  | nil => rw [List.nil_append, signOf, h]; rfl
  | cons a t => rfl

theorem afterSign_stop (t r : List Char) (h : Stops c) :
    afterSign (t ++ c :: r) = afterSign t ++ c :: r := by
  unfold afterSign
  rw [dropWhile_stop t r h.space, signOf_stop _ r h.sign,
    List.drop_append_of_le_length (signOf_length_le _)]

theorem digits_stop (t r : List Char) (h : Stops c) : digits (t ++ c :: r) = digits t := by
  unfold digits
  rw [afterSign_stop t r h, takeWhile_stop _ r h.digit]

theorem scanned_stop (t r : List Char) (h : Stops c) : scanned (t ++ c :: r) = scanned t := by
  unfold scanned
  rw [digits_stop t r h, takeWhile_stop t r h.space, dropWhile_stop t r h.space,
    signOf_stop _ r h.sign]

/-- Behind a character that is part of no number nothing matters. -/
theorem numeral_of_stop (t r : List Char) (h : Stops c) :
    scanned (t ++ c :: r) < (t ++ c :: r).length ∧
      numeralLength (t ++ c :: r) = numeralLength t ∧
      numeralValue (t ++ c :: r) = numeralValue t := by
  refine ⟨?_, ?_, ?_⟩
  · have hle := scanned_le t
    rw [scanned_stop t r h, List.length_append, List.length_cons]
    omega
  · unfold numeralLength
    rw [digits_stop t r h, scanned_stop t r h]
  · unfold numeralValue
    rw [digits_stop t r h, dropWhile_stop t r h.space, signOf_stop _ r h.sign]

end Scan

/-! ### Printing and reading -/

section Decimal

variable {s r : List Char} {c : Char} {v : ℤ}

theorem toNat_of_isDigit (h : c.isDigit = true) : 48 ≤ c.toNat ∧ c.toNat ≤ 57 := by
  simp only [Char.isDigit, Bool.and_eq_true, decide_eq_true_eq, ge_iff_le, UInt32.le_iff_toNat_le]
    at h
  exact h

theorem not_isSpace_of_isDigit (h : c.isDigit = true) : isSpace c = false := by
  have := toNat_of_isDigit h
  simp only [isSpace, decide_eq_false_iff_not]
  omega

theorem not_isSign_of_isDigit (h : c.isDigit = true) : isSign c = false := by
  simp only [isSign, decide_eq_false_iff_not]
  rintro (rfl | rfl)
  · exact absurd h (by decide)
  · exact absurd h (by decide)

theorem takeWhile_digits {ds : List Char} (hds : ∀ d ∈ ds, d.isDigit = true)
    (hc : c.isDigit = false) (r : List Char) : (ds ++ c :: r).takeWhile Char.isDigit = ds := by
  rw [takeWhile_stop ds r hc]
  exact List.takeWhile_eq_self_iff.2 hds

/-- A text that starts with a sign or a digit has no spaces in front. -/
theorem spaces_cons (h : isSpace c = false) (s : List Char) :
    (c :: s).takeWhile isSpace = [] ∧ (c :: s).dropWhile isSpace = c :: s := by
  rw [List.takeWhile_cons, List.dropWhile_cons, h]
  exact ⟨rfl, rfl⟩

theorem digits_minus {ds : List Char} (hds : ∀ d ∈ ds, d.isDigit = true)
    (hc : c.isDigit = false) (r : List Char) :
    digits ('-' :: ds ++ c :: r) = ds ∧ scanned ('-' :: ds ++ c :: r) = ds.length + 1 ∧
      signOf (('-' :: ds ++ c :: r).dropWhile isSpace) = ['-'] := by
  obtain ⟨htake, hdrop⟩ := spaces_cons (c := '-') (by decide) (ds ++ c :: r)
  rw [List.cons_append]
  have hsign : signOf (('-' :: (ds ++ c :: r)).dropWhile isSpace) = ['-'] := by
    rw [hdrop]
    rfl
  have hdigits : digits ('-' :: (ds ++ c :: r)) = ds := by
    rw [digits, afterSign, hsign, hdrop]
    exact takeWhile_digits hds hc r
  refine ⟨hdigits, ?_, hsign⟩
  rw [scanned, htake, hsign, hdigits, List.length_nil, List.length_singleton]
  omega

theorem digits_plain {ds : List Char} (hne : ds ≠ []) (hds : ∀ d ∈ ds, d.isDigit = true)
    (hc : c.isDigit = false) (r : List Char) :
    digits (ds ++ c :: r) = ds ∧ scanned (ds ++ c :: r) = ds.length ∧
      signOf ((ds ++ c :: r).dropWhile isSpace) = [] := by
  obtain ⟨d, ds', rfl⟩ := List.exists_cons_of_ne_nil hne
  have hd := hds d List.mem_cons_self
  obtain ⟨htake, hdrop⟩ := spaces_cons (not_isSpace_of_isDigit hd) (ds' ++ c :: r)
  rw [List.cons_append]
  have hsign : signOf ((d :: (ds' ++ c :: r)).dropWhile isSpace) = [] := by
    rw [hdrop, signOf, not_isSign_of_isDigit hd]
    rfl
  have hdigits : digits (d :: (ds' ++ c :: r)) = d :: ds' := by
    rw [digits, afterSign, hsign, hdrop]
    exact takeWhile_digits hds hc r
  refine ⟨hdigits, ?_, hsign⟩
  rw [scanned, htake, hsign, hdigits, List.length_nil, Nat.zero_add]

theorem clampLong_eq (h1 : -9223372036854775808 ≤ v) (h2 : v ≤ 9223372036854775807) :
    clampLong v = v := by
  unfold clampLong
  omega

theorem not_mem_toDigits (hc : c.isDigit = false) (n : ℕ) : c ∉ Nat.toDigits 10 n := by
  intro h
  have hdigit := Nat.isDigit_of_mem_toDigits (by decide) (by decide) h
  rw [hc] at hdigit
  cases hdigit

/-- A number that was printed is read back, up to the first character that is no digit. -/
theorem numeral_decimal (h1 : -9223372036854775808 ≤ v) (h2 : v ≤ 9223372036854775807)
    (hc : c.isDigit = false) (r : List Char) :
    scanned (decimal v ++ c :: r) < (decimal v ++ c :: r).length ∧
      numeralLength (decimal v ++ c :: r) = (decimal v).length ∧
      numeralValue (decimal v ++ c :: r) = v := by
  have hds : ∀ d ∈ Nat.toDigits 10 v.natAbs, d.isDigit = true := fun d hd =>
    Nat.isDigit_of_mem_toDigits (by decide) (by decide) hd
  have hne : Nat.toDigits 10 v.natAbs ≠ [] := Nat.toDigits_ne_nil
  have hvalue : Nat.ofDigitChars 10 (Nat.toDigits 10 v.natAbs) 0 = v.natAbs :=
    Nat.ofDigitChars_ten_toDigits
  by_cases hneg : v < 0
  · obtain ⟨hdigits, hscanned, hsign⟩ := digits_minus hds hc r
    rw [decimal, if_pos hneg]
    refine ⟨?_, ?_, ?_⟩
    · rw [hscanned, List.length_append, List.length_cons, List.length_cons]
      omega
    · rw [numeralLength, hdigits, if_neg hne, hscanned, List.length_cons]
    · rw [numeralValue, hdigits, hsign, hvalue]
      simp only [if_true]
      rw [clampLong_eq (by omega) (by omega)]
      omega
  · obtain ⟨hdigits, hscanned, hsign⟩ := digits_plain hne hds hc r
    rw [decimal, if_neg hneg]
    refine ⟨?_, ?_, ?_⟩
    · rw [hscanned, List.length_append, List.length_cons]
      omega
    · rw [numeralLength, hdigits, if_neg hne, hscanned]
    · rw [numeralValue, hdigits, hsign, hvalue]
      simp only [reduceCtorEq, if_false]
      rw [clampLong_eq (by omega) (by omega)]
      omega

/-- `strtol` on a printed number. -/
theorem strtol_decimal {buffer : List Char} {ptr : ℕ} (h1 : -9223372036854775808 ≤ v)
    (h2 : v ≤ 9223372036854775807) (hc : c.isDigit = false)
    (hbuffer : buffer.drop ptr = decimal v ++ c :: r) :
    strtol buffer ptr = some (v, ptr + (decimal v).length) := by
  obtain ⟨hscan, hlength, hvalue⟩ := numeral_decimal h1 h2 hc r
  unfold strtol
  simp only [hbuffer]
  rw [if_pos hscan, hlength, hvalue]

/-- `strtol` on the text in front of a NUL. -/
theorem strtol_nul {buffer t : List Char} {ptr : ℕ} (hbuffer : buffer.drop ptr = t ++ nul :: r) :
    strtol buffer ptr = some (numeralValue t, ptr + numeralLength t) := by
  obtain ⟨hscan, hlength, hvalue⟩ := numeral_of_stop t r stops_nul
  unfold strtol
  simp only [hbuffer]
  rw [if_pos hscan, hlength, hvalue]

theorem length_decimal_le {k : ℕ} (hk : 0 < k) (h : v.natAbs < 10 ^ k) :
    (decimal v).length ≤ k + 1 := by
  have hdigits := (Nat.length_toDigits_le_iff (by decide : 1 < 10) hk).2 h
  unfold decimal
  split
  · rw [List.length_cons]
    omega
  · omega

end Decimal

/-! ### The lines of a file -/

section Lines

variable {size : ℕ} {l rest : List Char}

theorem lineOf_ne_nil {n : ℕ} (hn : 0 < n) {file : List Char} (h : file ≠ []) :
    lineOf n file ≠ [] := by
  obtain ⟨n, rfl⟩ := Nat.exists_eq_succ_of_ne_zero hn.ne'
  obtain ⟨c, s, rfl⟩ := List.exists_cons_of_ne_nil h
  unfold lineOf
  split <;> exact List.cons_ne_nil _ _

theorem fgets_shorter (hsize : 2 ≤ size) {file : List Char} {line rest : List Char}
    (h : fgets size file = some (line, rest)) : rest.length < file.length := by
  unfold fgets at h
  split at h
  · cases h
  · next hne =>
    cases h
    have hline := List.length_pos_iff.2 (lineOf_ne_nil (n := size - 1) (by omega) hne)
    have hfile := List.length_pos_iff.2 hne
    rw [List.length_drop]
    omega

/-- The lines that `fgets` returns until the end of the file. -/
def readLines (size : ℕ) (hsize : 2 ≤ size) (file : List Char) : List (List Char) :=
  match h : fgets size file with
  | none => []
  | some (line, rest) =>
    have := fgets_shorter hsize h
    line :: readLines size hsize rest
termination_by file.length

theorem readLines_nil (hsize : 2 ≤ size) : readLines size hsize [] = [] := by
  rw [readLines]
  rfl

theorem readLines_of_fgets (hsize : 2 ≤ size) {file line rest : List Char}
    (h : fgets size file = some (line, rest)) :
    readLines size hsize file = line :: readLines size hsize rest := by
  rw [readLines]
  split
  · next hnone =>
    rw [h] at hnone
    cases hnone
  · next hsome =>
    rw [h] at hsome
    cases hsome
    rfl

theorem lineOf_newline {n : ℕ} (hl : '\n' ∉ l) (hn : l.length < n) (rest : List Char) :
    lineOf n (l ++ '\n' :: rest) = l ++ ['\n'] := by
  induction l generalizing n with
  | nil =>
    obtain ⟨n, rfl⟩ := Nat.exists_eq_succ_of_ne_zero (Nat.ne_of_gt hn)
    rfl
  | cons c l ih =>
    obtain ⟨n, rfl⟩ := Nat.exists_eq_succ_of_ne_zero (Nat.ne_of_gt (Nat.zero_lt_of_lt hn))
    have hc : c ≠ '\n' := fun h => hl (h ▸ List.mem_cons_self)
    rw [List.length_cons] at hn
    rw [List.cons_append, List.cons_append, lineOf, if_neg hc,
      ih (fun h => hl (List.mem_cons_of_mem c h)) (by omega)]

theorem lineOf_last {n : ℕ} (hl : '\n' ∉ l) (hn : l.length ≤ n) : lineOf n l = l := by
  induction l generalizing n with
  | nil => cases n <;> rfl
  | cons c l ih =>
    rw [List.length_cons] at hn
    obtain ⟨n, rfl⟩ := Nat.exists_eq_succ_of_ne_zero (by omega : n ≠ 0)
    have hc : c ≠ '\n' := fun h => hl (h ▸ List.mem_cons_self)
    rw [lineOf, if_neg hc, ih (fun h => hl (List.mem_cons_of_mem c h)) (by omega)]

/-- The lines of a text, each with its newline; the last may be without. -/
inductive TextLines : List (List Char) → Prop
  | nil : TextLines []
  | last (l : List Char) : l ≠ [] → '\n' ∉ l → TextLines [l]
  | cons (l : List Char) (ls : List (List Char)) : '\n' ∉ l → TextLines ls →
      TextLines ((l ++ ['\n']) :: ls)

/-- Lines that fit in the buffer are read as they are. -/
theorem readLines_flatten (hsize : 2 ≤ size) {ls : List (List Char)} (h : TextLines ls)
    (hfit : ∀ l ∈ ls, l.length < size) : readLines size hsize ls.flatten = ls := by
  induction h with
  | nil => exact readLines_nil hsize
  | last l hne hl =>
    have hlen := hfit l List.mem_cons_self
    have hline : lineOf (size - 1) l = l := lineOf_last hl (by omega)
    have hget : fgets size l = some (l, []) := by
      rw [fgets, if_neg hne, hline, List.drop_length]
    rw [List.flatten_singleton, readLines_of_fgets hsize hget, readLines_nil]
  | cons l ls hl _ ih =>
    have hlen := hfit _ List.mem_cons_self
    rw [List.length_append, List.length_singleton] at hlen
    have hline : lineOf (size - 1) (l ++ '\n' :: ls.flatten) = l ++ ['\n'] :=
      lineOf_newline hl (by omega) _
    have hne : l ++ '\n' :: ls.flatten ≠ [] := by simp
    have hget : fgets size (l ++ '\n' :: ls.flatten) = some (l ++ ['\n'], ls.flatten) := by
      rw [fgets, if_neg hne, hline, List.append_cons l '\n' ls.flatten, List.drop_left]
    rw [List.flatten_cons, ← List.append_cons, readLines_of_fgets hsize hget,
      ih fun l' hl' => hfit l' (List.mem_cons_of_mem _ hl')]

end Lines

/-! ### The fields of a line -/

section Fields

variable {sep c : Char} {fields : List (List Char)}

theorem mem_intercalate (h : c ∈ [sep].intercalate fields) : c = sep ∨ ∃ f ∈ fields, c ∈ f := by
  induction fields with
  | nil => cases h
  | cons f fields ih =>
    by_cases hnil : fields = []
    · subst hnil
      rw [List.intercalate_singleton] at h
      exact .inr ⟨f, List.mem_cons_self, h⟩
    · rw [List.intercalate_cons_of_ne_nil hnil, List.append_assoc] at h
      rcases List.mem_append.1 h with h | h
      · exact .inr ⟨f, List.mem_cons_self, h⟩
      · rcases List.mem_cons.1 h with h | h
        · exact .inl h
        · obtain hsep | ⟨f', hf', hc⟩ := ih h
          · exact .inl hsep
          · exact .inr ⟨f', List.mem_cons_of_mem f hf', hc⟩

/-- What follows the last field belongs to it. -/
theorem intercalate_concat_append (sep : List Char) (fields : List (List Char)) (f t : List Char) :
    sep.intercalate (fields ++ [f]) ++ t = sep.intercalate (fields ++ [f ++ t]) := by
  induction fields with
  | nil => rw [List.nil_append, List.nil_append, List.intercalate_singleton,
      List.intercalate_singleton]
  | cons f' fields ih =>
    rw [List.cons_append, List.cons_append, List.intercalate_cons_of_ne_nil (by simp),
      List.intercalate_cons_of_ne_nil (by simp), List.append_assoc, ih]

/-- The tokens of a string do not depend on what is behind its NUL. -/
theorem tokens_fill (sep : Char) (buffer line : List Char) :
    tokens sep (fill buffer line) = tokens sep line := by
  unfold tokens fill
  rw [takeWhile_stop line _ (by decide)]

/-- Fields that are printed with separators between them are found again. -/
theorem tokens_intercalate (hsep : sep ≠ nul) (hne : fields ≠ [])
    (hfields : ∀ f ∈ fields, f ≠ [] ∧ sep ∉ f ∧ nul ∉ f) :
    tokens sep ([sep].intercalate fields) = fields := by
  have hnul : ∀ c ∈ [sep].intercalate fields, (decide (c ≠ nul)) = true := by
    intro c hc
    apply decide_eq_true
    rintro rfl
    obtain h | ⟨f, hf, h⟩ := mem_intercalate hc
    · exact hsep h.symm
    · exact (hfields f hf).2.2 h
  have hsplit := List.splitOn_intercalate sep (fun f hf => (hfields f hf).2.1) hne
  unfold tokens
  rw [List.takeWhile_eq_self_iff.2 hnul, hsplit]
  exact List.filter_eq_self.2 fun f hf => decide_eq_true (hfields f hf).1

end Fields

end CText
