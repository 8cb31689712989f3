import RotorXdp.LookupSafety
import RotorXdp.Lib.CText
import Mathlib.Order.Interval.Finset.Nat

/-!
# Reading the worker file

The loop of `main` over the worker file, on the characters of the file: a line is read into a buffer
of 1024 characters and `strtok` cuts it at the commas.

* `workerColumns`, `loadWorkerFile`: the lines, their columns, and the loops of `loadLines`;
* `loadWorkerFile_eq_loadWorkers`: which is `loadWorkers` on the columns of the file;
* `WorkerLine`: a line that fits in the buffer and has eight columns;
* `ipEntries_eq`, `macEntries_eq`: the entries of the tables are the numbered lines;
* `worker_file_loaded`: every line is found, and nothing else.
-/

namespace RotorXdp

open CText Bytes

theorem two_le_bufferSize : 2 ≤ 1024 := by decide

/-- What `strtok` finds on a line in the buffer; behind the NUL it does not look (`tokens_fill`). -/
def workerColumns (line : List Char) : List String :=
  (tokens ',' (fill [] line)).map String.ofList

/-- The lines of the worker file, each split at the commas. -/
def workerLines (file : List Char) : List (List String) :=
  (readLines 1024 two_le_bufferSize file).map workerColumns

/-- Both tables after the worker file, from its characters. -/
def loadWorkerFile (c : Config) (file : List Char) : Option (MgMap × MgMap) :=
  loadLines c 1 (workerLines file)
    ((mgMapInit .zero macAddrSize 32).2, (mgMapInit .zero intSize 32).2)

theorem loadWorkerFile_eq_loadWorkers (c : Config) {file : List Char}
    (h : c.workers = workerLines file) : loadWorkerFile c file = loadWorkers c := by
  rw [loadWorkerFile, loadWorkers, h]

/-- A line of the worker file that fits in the buffer and has eight columns or more. -/
structure WorkerLine where
  text : List Char
  short : text.length < 1024
  eight : 8 ≤ (workerColumns text).length

namespace WorkerLine

/-- The third and the eighth column. -/
def macColumn (w : WorkerLine) : String :=
  (workerColumns w.text).get ⟨2, Nat.lt_of_lt_of_le (by decide) w.eight⟩

def destColumn (w : WorkerLine) : String :=
  (workerColumns w.text).get ⟨7, Nat.lt_of_lt_of_le (by decide) w.eight⟩

/-- The MAC address and the IP address of a line. -/
def mac (c : Config) (w : WorkerLine) : List UInt8 := c.scanMac w.macColumn

def dest (c : Config) (w : WorkerLine) : ℕ := c.inetAddr w.destColumn

/-- What a line with its number leaves in the MAC table, and in the IP table. -/
def macNode (c : Config) (x : WorkerLine × ℕ) : ℕ × List UInt8 := (x.2, x.1.mac c ++ [0])

def ipNode (c : Config) (x : WorkerLine × ℕ) : ℕ × List UInt8 := (x.1.dest c, intBytes x.2)

end WorkerLine

/-! ### The entries of the tables -/

section Entries

variable {c : Config} {ws : List WorkerLine} {tables : MgMap × MgMap} {i k key : ℕ}

/-- The columns of a file are those of its lines. -/
theorem workerLines_flatten (hlines : TextLines (ws.map WorkerLine.text)) :
    workerLines (ws.map WorkerLine.text).flatten = ws.map fun w => workerColumns w.text := by
  have hread := readLines_flatten two_le_bufferSize hlines fun l hl => by
    obtain ⟨w, -, rfl⟩ := List.mem_map.1 hl
    exact w.short
  rw [workerLines, hread, List.map_map]
  rfl

/-- Every line leaves an entry in the MAC table. -/
theorem macEntries_eq (c : Config) (k : ℕ) (ws : List WorkerLine) :
    macEntries c k (ws.map fun w => workerColumns w.text) =
      (ws.zipIdx k).map (WorkerLine.macNode c) := by
  induction ws generalizing k with
  | nil => rfl
  | cons w ws ih =>
    have hcol : (workerColumns w.text)[2]? = some w.macColumn := List.getElem?_eq_getElem _
    rw [List.map_cons, macEntries, hcol, ih, List.zipIdx_cons, List.map_cons]
    rfl

/-- And one in the IP table, if its address is not 0.0.0.0. -/
theorem ipEntries_eq (k : ℕ) (hne : ∀ w ∈ ws, w.dest c ≠ 0) :
    ipEntries c k (ws.map fun w => workerColumns w.text) =
      (ws.zipIdx k).map (WorkerLine.ipNode c) := by
  induction ws generalizing k with
  | nil => rfl
  | cons w ws ih =>
    have hcol : (workerColumns w.text)[7]? = some w.destColumn := List.getElem?_eq_getElem _
    have hdest : c.inetAddr w.destColumn ≠ 0 := hne w List.mem_cons_self
    have hrest := ih (k + 1) fun w' hw' => hne w' (List.mem_cons_of_mem w hw')
    rw [List.map_cons, ipEntries, hcol, hrest, List.zipIdx_cons, List.map_cons, ipEntry,
      if_neg hdest]
    rfl

/-- The keys of the MAC table are the numbers of the lines. -/
theorem keys_macNode (c : Config) (k : ℕ) (ws : List WorkerLine) :
    ((ws.zipIdx k).map (WorkerLine.macNode c)).map Prod.fst = List.range' k ws.length := by
  rw [List.map_map, ← List.zipIdx_map_snd k ws]
  rfl

/-- The keys of the IP table are the addresses. -/
theorem keys_ipNode (c : Config) (k : ℕ) (ws : List WorkerLine) :
    ((ws.zipIdx k).map (WorkerLine.ipNode c)).map Prod.fst = ws.map (WorkerLine.dest c) := by
  conv_rhs => rw [← List.zipIdx_map_fst k ws, List.map_map]
  rw [List.map_map]
  rfl

theorem mem_zipIdx_one (hi : i < ws.length) : (ws[i], i + 1) ∈ ws.zipIdx 1 := by
  rw [List.mk_mem_zipIdx_iff_le_and_getElem?_sub, Nat.add_sub_cancel]
  exact ⟨Nat.le_add_left 1 i, List.getElem?_eq_getElem hi⟩

/-- There are fewer lines than addresses. -/
theorem length_lt_of_distinct (hne : ∀ w ∈ ws, w.dest c ≠ 0)
    (hdistinct : (ws.map (WorkerLine.dest c)).Nodup) : ws.length < 4294967296 := by
  have hsub : (ws.map (WorkerLine.dest c)).toFinset ⊆ Finset.Ico 1 4294967296 := by
    intro d hd
    rw [List.mem_toFinset] at hd
    obtain ⟨w, hw, rfl⟩ := List.mem_map.1 hd
    exact Finset.mem_Ico.2 ⟨Nat.one_le_iff_ne_zero.2 (hne w hw), c.inetAddr_lt _⟩
  have hcard := Finset.card_le_card hsub
  rw [List.toFinset_card_of_nodup hdistinct, List.length_map, Nat.card_Ico] at hcard
  omega

/-- Both tables hold the numbered lines. -/
def LinesHeld (c : Config) (ws : List WorkerLine) (tables : MgMap × MgMap) : Prop :=
  TablesHold tables ((ws.zipIdx 1).map (WorkerLine.macNode c))
    ((ws.zipIdx 1).map (WorkerLine.ipNode c))

theorem linesHeld (hlines : TextLines (ws.map WorkerLine.text)) (hne : ∀ w ∈ ws, w.dest c ≠ 0)
    (hlt : ws.length < 4294967296) :
    ∃ tables, loadWorkerFile c (ws.map WorkerLine.text).flatten = some tables ∧
      LinesHeld c ws tables := by
  have hlen : (ws.map fun w => workerColumns w.text).length < 4294967296 := by
    rwa [List.length_map]
  obtain ⟨tables, hload, hold⟩ := loadLines_spec c _ hlen
  rw [macEntries_eq, ipEntries_eq 1 hne] at hold
  refine ⟨tables, ?_, hold⟩
  rw [loadWorkerFile, workerLines_flatten hlines, hload]

/-- The address of a line has its number. -/
theorem LinesHeld.index (h : LinesHeld c ws tables)
    (hdistinct : (ws.map (WorkerLine.dest c)).Nodup) (hi : i < ws.length)
    (hlt : i + 1 < 4294967296) :
    ∃ p, mgMapGet tables.2 (ws[i].dest c) = some p ∧ ipSetIndex tables.2 p = toInt32 (i + 1) := by
  rw [← keys_ipNode c 1 ws] at hdistinct
  have hmem := List.mem_map_of_mem (f := WorkerLine.ipNode c) (mem_zipIdx_one hi)
  obtain ⟨p, hp, hload⟩ := h.ip.get_mem hdistinct hmem
  rw [h.ip_size] at hload
  have hindex : le32 tables.2.mem p = (i + 1) % 4294967296 := le32_of_load_eq hload
  refine ⟨p, hp, ?_⟩
  rw [ipSetIndex, hindex, Nat.mod_eq_of_lt hlt]

/-- The number of a line has its MAC address. -/
theorem LinesHeld.macBytes (h : LinesHeld c ws tables) (hi : i < ws.length) :
    ∃ q, mgMapGet tables.1 (i + 1) = some q ∧ macAddrBytes tables.1 q = ws[i].mac c := by
  have hkeys := List.nodup_range' (s := 1) (n := ws.length)
  rw [← keys_macNode c 1 ws] at hkeys
  have hmem := List.mem_map_of_mem (f := WorkerLine.macNode c) (mem_zipIdx_one hi)
  obtain ⟨q, hq, hload⟩ := h.mac.get_mem hkeys hmem
  rw [h.mac_size] at hload
  refine ⟨q, hq, ?_⟩
  rw [macAddrBytes, ← take_load tables.1.mem q (by decide : 6 ≤ macAddrSize + 4 - 4), hload]
  exact List.take_left' (c.scanMac_length _)

theorem LinesHeld.ip_none (h : LinesHeld c ws tables) (hkey : key ∉ ws.map (WorkerLine.dest c)) :
    mgMapGet tables.2 key = none := by
  rw [← keys_ipNode c 1 ws] at hkey
  exact h.ip.get_not_mem hkey

theorem LinesHeld.mac_none (h : LinesHeld c ws tables) (hkey : ¬ (1 ≤ key ∧ key ≤ ws.length)) :
    mgMapGet tables.1 key = none := by
  apply h.mac.get_not_mem
  rw [keys_macNode, List.mem_range'_1]
  omega

end Entries

/-! ### Numbered lines -/

/-- `inet_addr` on four decimal numbers with dots between them. -/
def dottedAddr (s : List Char) : ℕ :=
  match (s.splitOn '.').map fun d => Nat.ofDigitChars 10 (d.takeWhile Char.isDigit) 0 with
  | [a, b, c, d] => (a + 256 * b + 65536 * c + 16777216 * d) % 4294967296
  | _ => 4294967295

theorem dottedAddr_lt (s : List Char) : dottedAddr s < 4294967296 := by
  unfold dottedAddr
  split
  · exact Nat.mod_lt _ (by decide)
  · decide

def hexDigit (c : Char) : ℕ := if c.isDigit then c.toNat - 48 else c.toLower.toNat - 87

/-- `sscanf` on six hexadecimal numbers with colons between them. -/
def scanHex (s : List Char) : List UInt8 :=
  let bytes := (s.splitOn ':').map fun d => UInt8.ofNat (d.foldl (fun v c => 16 * v + hexDigit c) 0)
  (List.range 6).map fun i => bytes.getD i 0

def textConfig : Config := { oneWorker with
  inetAddr := fun s => dottedAddr s.toList
  inetAddr_lt := fun s => dottedAddr_lt s.toList
  scanMac := fun s => scanHex s.toList
  scanMac_length := fun s => by rw [scanHex, List.length_map, List.length_range] }

/-- The address with the number `n` in memory. -/
def dottedText (n : ℕ) : List Char :=
  ['.'].intercalate [Nat.toDigits 10 (n % 256), Nat.toDigits 10 (n / 256 % 256),
    Nat.toDigits 10 (n / 65536 % 256), Nat.toDigits 10 (n / 16777216 % 256)]

/-- The columns in front of the address. -/
def frontColumns : List (List Char) :=
  [['n'], ['e'],
    ['0', '2', ':', '0', '0', ':', '0', '0', ':', '0', '0', ':', '0', '0', ':', '0', 'a'],
    ['p'], ['c'], ['u'], ['h']]

/-- A line with the address with the number `n`. -/
def numberedText (n : ℕ) : List Char :=
  [','].intercalate (frontColumns ++ [dottedText n]) ++ ['\n']

theorem length_octet_le (n : ℕ) : (Nat.toDigits 10 (n % 256)).length ≤ 3 := by
  rw [Nat.length_toDigits_le_iff (by decide) (by decide)]
  omega

theorem length_numberedText_lt (n : ℕ) : (numberedText n).length < 1024 := by
  have h0 := length_octet_le n
  have h1 := length_octet_le (n / 256)
  have h2 := length_octet_le (n / 65536)
  have h3 := length_octet_le (n / 16777216)
  simp only [numberedText, frontColumns, dottedText, List.cons_append, List.nil_append,
    List.intercalate_cons_cons, List.intercalate_singleton, List.length_append, List.length_cons,
    List.length_nil]
  omega

theorem not_mem_dottedText {c : Char} (hdot : c ≠ '.') (hc : c.isDigit = false) (n : ℕ) :
    c ∉ dottedText n := by
  intro h
  obtain h | ⟨f, hf, h⟩ := mem_intercalate h
  · exact hdot h
  · simp only [List.mem_cons, List.not_mem_nil, or_false] at hf
    obtain rfl | rfl | rfl | rfl := hf
    all_goals exact not_mem_toDigits hc _ h

theorem not_mem_lastColumn {c : Char} (hdot : c ≠ '.') (hc : c.isDigit = false)
    (hnewline : c ≠ '\n') (n : ℕ) : c ∉ dottedText n ++ ['\n'] := by
  rw [List.mem_append, List.mem_singleton]
  rintro (h | h)
  · exact not_mem_dottedText hdot hc n h
  · exact hnewline h

/-- `strtok` leaves the newline at the address. -/
theorem workerColumns_numberedText (n : ℕ) :
    workerColumns (numberedText n) =
      (frontColumns ++ [dottedText n ++ ['\n']]).map String.ofList := by
  have hlast : dottedText n ++ ['\n'] ≠ [] ∧ ',' ∉ dottedText n ++ ['\n'] ∧
      nul ∉ dottedText n ++ ['\n'] := by
    refine ⟨List.append_ne_nil_of_right_ne_nil _ (List.cons_ne_nil _ _), ?_, ?_⟩
    · exact not_mem_lastColumn (by decide) (by decide) (by decide) n
    · exact not_mem_lastColumn (by decide) (by decide) (by decide) n
  have hfields : ∀ f ∈ frontColumns ++ [dottedText n ++ ['\n']], f ≠ [] ∧ ',' ∉ f ∧ nul ∉ f := by
    intro f hf
    rcases List.mem_append.1 hf with hf | hf
    · have hfront : ∀ f ∈ frontColumns, f ≠ [] ∧ ',' ∉ f ∧ nul ∉ f := by decide
      exact hfront f hf
    · rw [List.mem_singleton.1 hf]
      exact hlast
  rw [workerColumns, tokens_fill, numberedText, intercalate_concat_append,
    tokens_intercalate (by decide) (List.append_ne_nil_of_left_ne_nil (by decide) _) hfields]

def numberedLine (n : ℕ) : WorkerLine where
  text := numberedText n
  short := length_numberedText_lt n
  eight := by
    rw [workerColumns_numberedText, List.length_map, List.length_append]
    exact Nat.le_refl _

/-- Lines with the addresses with the numbers 1 to `n`. -/
def numberedLines (n : ℕ) : List WorkerLine := (List.range n).map fun k => numberedLine (k + 1)

theorem dottedAddr_intercalate (a b c d : ℕ) :
    dottedAddr (['.'].intercalate [Nat.toDigits 10 a, Nat.toDigits 10 b, Nat.toDigits 10 c,
      Nat.toDigits 10 d ++ ['\n']]) = (a + 256 * b + 65536 * c + 16777216 * d) % 4294967296 := by
  have hdot : ∀ k, '.' ∉ Nat.toDigits 10 k := not_mem_toDigits (by decide)
  have hdigits : ∀ k, ∀ d ∈ Nat.toDigits 10 k, d.isDigit = true := fun k d hd =>
    Nat.isDigit_of_mem_toDigits (by decide) (by decide) hd
  have htake : ∀ k, (Nat.toDigits 10 k).takeWhile Char.isDigit = Nat.toDigits 10 k := fun k =>
    List.takeWhile_eq_self_iff.2 (hdigits k)
  have hlast : ∀ k, (Nat.toDigits 10 k ++ ['\n']).takeWhile Char.isDigit = Nat.toDigits 10 k :=
    fun k => takeWhile_digits (hdigits k) (by decide) []
  rw [dottedAddr, List.splitOn_intercalate '.' (by simp [hdot]) (List.cons_ne_nil _ _)]
  simp only [List.map_cons, List.map_nil, htake, hlast, Nat.ofDigitChars_ten_toDigits]

/-- The address is read back. -/
theorem dottedAddr_dottedText {n : ℕ} (h : n < 4294967296) :
    dottedAddr (dottedText n ++ ['\n']) = n := by
  have hlast : dottedText n ++ ['\n'] = ['.'].intercalate [Nat.toDigits 10 (n % 256),
      Nat.toDigits 10 (n / 256 % 256), Nat.toDigits 10 (n / 65536 % 256),
      Nat.toDigits 10 (n / 16777216 % 256) ++ ['\n']] :=
    intercalate_concat_append ['.'] [_, _, _] _ ['\n']
  rw [hlast, dottedAddr_intercalate]
  omega

theorem numberedLine_dest {n : ℕ} (h : n < 4294967296) : (numberedLine n).dest textConfig = n := by
  have hcol : (workerColumns (numberedText n))[7]? = some (numberedLine n).destColumn :=
    List.getElem?_eq_getElem _
  rw [workerColumns_numberedText] at hcol
  have hlast : String.ofList (dottedText n ++ ['\n']) = (numberedLine n).destColumn :=
    Option.some.inj hcol
  rw [WorkerLine.dest, ← hlast]
  show dottedAddr (String.ofList _).toList = n
  rw [String.toList_ofList, dottedAddr_dottedText h]

/-- A numbered line is one line. -/
theorem newline_not_mem_columns (n : ℕ) :
    '\n' ∉ [','].intercalate (frontColumns ++ [dottedText n]) := by
  intro h
  obtain h | ⟨f, hf, h⟩ := mem_intercalate h
  · exact absurd h (by decide)
  · rcases List.mem_append.1 hf with hf | hf
    · have hfront : ∀ f ∈ frontColumns, '\n' ∉ f := by decide
      exact hfront f hf h
    · rw [List.mem_singleton.1 hf] at h
      exact not_mem_dottedText (by decide) (by decide) n h

theorem numberedLines_text (n : ℕ) : TextLines ((numberedLines n).map WorkerLine.text) := by
  unfold numberedLines
  generalize List.range n = ks
  induction ks with
  | nil => exact .nil
  | cons k ks ih => exact .cons _ _ (newline_not_mem_columns (k + 1)) ih

theorem numberedLines_dest {n : ℕ} (h : n < 4294967296) :
    (numberedLines n).map (WorkerLine.dest textConfig) = List.range' 1 n := by
  rw [numberedLines, List.map_map, List.range'_eq_map_range]
  apply List.map_congr_left
  intro k hk
  rw [List.mem_range] at hk
  exact (numberedLine_dest (by omega)).trans (Nat.add_comm k 1)

theorem numberedLines_ne_zero {n : ℕ} (h : n < 4294967296) :
    ∀ w ∈ numberedLines n, w.dest textConfig ≠ 0 := by
  intro w hw
  have hmem := List.mem_map_of_mem (f := WorkerLine.dest textConfig) hw
  rw [numberedLines_dest h, List.mem_range'_1] at hmem
  omega

theorem numberedLines_nodup {n : ℕ} (h : n < 4294967296) :
    ((numberedLines n).map (WorkerLine.dest textConfig)).Nodup := by
  rw [numberedLines_dest h]
  exact List.nodup_range'

theorem length_numberedLines (n : ℕ) : (numberedLines n).length = n := by
  rw [numberedLines, List.length_map, List.length_range]

theorem numberedLines_last {n : ℕ} (h : n + 1 < 4294967296)
    (hi : n < (numberedLines (n + 1)).length) :
    (numberedLines (n + 1))[n].dest textConfig = n + 1 := by
  simp only [numberedLines, List.getElem_map, List.getElem_range]
  exact numberedLine_dest h

/-- The number of the last of the numbered lines. -/
theorem numberedLines_index {n : ℕ} (h : n + 1 < 4294967296) : ∃ macTable ipTable p,
    loadWorkerFile textConfig ((numberedLines (n + 1)).map WorkerLine.text).flatten =
      some (macTable, ipTable) ∧
    mgMapGet ipTable (n + 1) = some p ∧ ipSetIndex ipTable p = toInt32 (n + 1) := by
  have hlen := length_numberedLines (n + 1)
  obtain ⟨⟨macTable, ipTable⟩, hload, hold⟩ := linesHeld (numberedLines_text (n + 1))
    (numberedLines_ne_zero h) (hlen.trans_lt h)
  have hi : n < (numberedLines (n + 1)).length := by omega
  obtain ⟨p, hp, hindex⟩ := hold.index (numberedLines_nodup h) hi h
  rw [numberedLines_last h hi] at hp
  exact ⟨macTable, ipTable, p, hload, hp, hindex⟩

/-! ### The tables -/

/-- **The worker file is loaded line by line**: the address of line `i` has the index `i`, as an
`int`, the index `i` has the MAC address of line `i`, and no other key has anything. -/
theorem worker_file_loaded (c : Config) (ws : List WorkerLine)
    (hlines : TextLines (ws.map WorkerLine.text)) (hne : ∀ w ∈ ws, w.dest c ≠ 0)
    (hdistinct : (ws.map (WorkerLine.dest c)).Nodup) :
    ∃ macTable ipTable,
      loadWorkerFile c (ws.map WorkerLine.text).flatten = some (macTable, ipTable) ∧
      (∀ i (hi : i < ws.length),
        (∃ p, mgMapGet ipTable (ws[i].dest c) = some p ∧ ipSetIndex ipTable p = toInt32 (i + 1)) ∧
        ∃ q, mgMapGet macTable (i + 1) = some q ∧ macAddrBytes macTable q = ws[i].mac c) ∧
      (∀ key, key ∉ ws.map (WorkerLine.dest c) → mgMapGet ipTable key = none) ∧
      ∀ key, ¬ (1 ≤ key ∧ key ≤ ws.length) → mgMapGet macTable key = none := by
  have hlt := length_lt_of_distinct hne hdistinct
  obtain ⟨⟨macTable, ipTable⟩, hload, hold⟩ := linesHeld hlines hne hlt
  refine ⟨macTable, ipTable, hload, fun i hi => ⟨?_, hold.macBytes hi⟩, ?_, ?_⟩
  · exact hold.index hdistinct hi (by omega)
  · intro key hkey
    exact hold.ip_none hkey
  · intro key hkey
    exact hold.mac_none hkey

theorem worker_file_loaded_two : ∃ macTable ipTable,
    loadWorkerFile textConfig ((numberedLines 2).map WorkerLine.text).flatten =
      some (macTable, ipTable) ∧
    (∀ i (hi : i < (numberedLines 2).length),
      (∃ p, mgMapGet ipTable ((numberedLines 2)[i].dest textConfig) = some p ∧
        ipSetIndex ipTable p = toInt32 (i + 1)) ∧
      ∃ q, mgMapGet macTable (i + 1) = some q ∧
        macAddrBytes macTable q = (numberedLines 2)[i].mac textConfig) ∧
    (∀ key, key ∉ (numberedLines 2).map (WorkerLine.dest textConfig) →
      mgMapGet ipTable key = none) ∧
    ∀ key, ¬ (1 ≤ key ∧ key ≤ (numberedLines 2).length) → mgMapGet macTable key = none :=
  worker_file_loaded textConfig (numberedLines 2) (numberedLines_text 2)
    (numberedLines_ne_zero (by decide)) (numberedLines_nodup (by decide))

/-- A file of 2^31 lines: `dest_index` has passed the largest `int`, and the last line has a
negative index. -/
theorem worker_index_wraps :
    (∃ macTable ipTable p,
      loadWorkerFile textConfig ((numberedLines 2147483648).map WorkerLine.text).flatten =
        some (macTable, ipTable) ∧
      mgMapGet ipTable 2147483648 = some p ∧ ipSetIndex ipTable p = -2147483648) ∧
    ¬ ∀ (c : Config) (ws : List WorkerLine), TextLines (ws.map WorkerLine.text) →
      (∀ w ∈ ws, w.dest c ≠ 0) → (ws.map (WorkerLine.dest c)).Nodup →
      ∃ macTable ipTable,
        loadWorkerFile c (ws.map WorkerLine.text).flatten = some (macTable, ipTable) ∧
        ∀ i (hi : i < ws.length), ∃ p,
          mgMapGet ipTable (ws[i].dest c) = some p ∧ ipSetIndex ipTable p = i + 1 := by
  have hlt : 2147483647 + 1 < 4294967296 := by decide
  obtain ⟨macTable, ipTable, p, hload, hp, hindex⟩ := numberedLines_index hlt
  refine ⟨⟨macTable, ipTable, p, hload, hp, hindex⟩, fun hclaim => ?_⟩
  obtain ⟨macTable', ipTable', hload', hall⟩ := hclaim textConfig (numberedLines 2147483648)
    (numberedLines_text _) (numberedLines_ne_zero hlt) (numberedLines_nodup hlt)
  have hi : 2147483647 < (numberedLines 2147483648).length := by
    rw [length_numberedLines]
    decide
  obtain ⟨p', hp', hindex'⟩ := hall 2147483647 hi
  rw [numberedLines_last hlt hi] at hp'
  have htables := Option.some.inj (hload.symm.trans hload')
  rw [← (Prod.mk.inj htables).2] at hp' hindex'
  rw [← Option.some.inj (hp.symm.trans hp'), hindex] at hindex'
  exact absurd hindex' (by decide)

end RotorXdp
