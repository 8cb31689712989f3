import RotorXdp.MapEntries
import RotorXdp.PacketFunctions
import RotorXdp.Lib.Loop

/-!
# Loading the tables

The two loops of `main` that read the worker file and the route file. A line of the worker file is
given as the tokens that `strtok` finds, a line of the route file as the numbers that `strtol`
returns; what `inet_addr` and `sscanf` make of a token is a parameter.

* `Config`: the files and the rest of the start-up environment;
* `loadWorkers`, `loadRoutes`, `Config.load`: the loops and the globals they leave;
* `loadWorkers_spec`, `getRouteElement_loadRoutes`: the tables as entries of the files.
-/

namespace RotorXdp

open Bytes Loops

/-- What the node is started with. -/
structure Config where
  /-- `inet_addr` -/
  inetAddr : String → ℕ
  inetAddr_lt : ∀ s, inetAddr s < 4294967296
  /-- the six bytes that `sscanf` reads from a MAC address -/
  scanMac : String → List UInt8
  scanMac_length : ∀ s, (scanMac s).length = 6
  /-- the lines of the worker file, each split at the commas -/
  workers : List (List String)
  /-- the line counter is an `int` -/
  workers_lt : workers.length < 2147483648
  /-- the number of lines of the route file, and the numbers on them -/
  routeLines : ℕ
  route : ℕ → ℕ → ℤ
  /-- what `malloc` returns for the route matrix -/
  heap : ℕ → ℤ
  nicIface : String
  srcIp : ℕ
  outEthSrc : List UInt8
  outEthSrc_length : outEthSrc.length = 6

/-- The bytes of an `int` in memory. -/
def intBytes (v : ℕ) : List UInt8 := load (setLe32 (fun _ => 0) 0 v) 0 4

/-- One round of the loop over the tokens of a line; the tables are the MAC and the IP table. -/
def loadColumn (c : Config) (destIndex colIndex : ℕ) (ptr : String) (tables : MgMap × MgMap) :
    Option (MgMap × MgMap) :=
  if colIndex = 8 then
    (mgMapAdd tables.2 (c.inetAddr ptr) (intBytes destIndex)).map fun r => (tables.1, r.2)
  else if colIndex = 3 then
    (mgMapAdd tables.1 destIndex (c.scanMac ptr ++ [0])).map fun r => (r.2, tables.2)
  else some tables

/-- The loop over the tokens, from column `colIndex` on. -/
def loadColumns (c : Config) (destIndex : ℕ) :
    ℕ → List String → MgMap × MgMap → Option (MgMap × MgMap)
  | _, [], tables => some tables
  | colIndex, ptr :: cols, tables =>
    (loadColumn c destIndex colIndex ptr tables).bind (loadColumns c destIndex (colIndex + 1) cols)

/-- The loop over the lines, from `dest_index` on. -/
def loadLines (c : Config) : ℕ → List (List String) → MgMap × MgMap → Option (MgMap × MgMap)
  | _, [], tables => some tables
  | destIndex, cols :: lines, tables =>
    (loadColumns c destIndex 1 cols tables).bind (loadLines c (destIndex + 1) lines)

/-- `sizeof(struct mac_addr)` and `sizeof(int)`. -/
def macAddrSize : ℕ := 7
def intSize : ℕ := 4

/-- Both tables after the worker file is read. -/
def loadWorkers (c : Config) : Option (MgMap × MgMap) :=
  loadLines c 1 c.workers
    ((mgMapInit .zero macAddrSize 32).2, (mgMapInit .zero intSize 32).2)

/-- The loop over the lines of the route file; what is outside the matrix is not stored. -/
def loadRoutes (c : Config) (m : RouteMatrix) : RouteMatrix :=
  forLoop c.routeLines (fun i m =>
    forLoop 32 (fun j m => (setRouteElement m (i + 1) (j + 1) (c.route i j)).2) m) m

/-- The globals when the threads are started. -/
def Config.load (c : Config) : Option Globals :=
  match loadWorkers c, newRouteMatrix 32 32 c.heap with
  | some (macTable, ipTable), some m =>
    some ⟨c.nicIface, c.srcIp, c.outEthSrc, c.outEthSrc_length, ipTable, macTable, loadRoutes c m⟩
  | _, _ => none

/-! ### The worker file -/

/-- What a third column adds to the MAC table, and an eighth column to the IP table. -/
def macEntry (c : Config) (k : ℕ) : Option String → List (ℕ × List UInt8)
  | none => []
  | some s => [(k, c.scanMac s ++ [0])]

def ipEntry (c : Config) (k : ℕ) : Option String → List (ℕ × List UInt8)
  | none => []
  | some s => if c.inetAddr s = 0 then [] else [(c.inetAddr s, intBytes k)]

/-- The entries that the lines from number `k` on leave in the tables. -/
def macEntries (c : Config) : ℕ → List (List String) → List (ℕ × List UInt8)
  | _, [] => []
  | k, cols :: lines => macEntry c k cols[2]? ++ macEntries c (k + 1) lines

def ipEntries (c : Config) : ℕ → List (List String) → List (ℕ × List UInt8)
  | _, [] => []
  | k, cols :: lines => ipEntry c k cols[7]? ++ ipEntries c (k + 1) lines

/-- Both tables hold lists of entries. -/
structure TablesHold (tables : MgMap × MgMap) (macs ips : List (ℕ × List UInt8)) : Prop where
  mac : tables.1.Holds macs
  mac_size : tables.1.nodeSize = macAddrSize + 4
  ip : tables.2.Holds ips
  ip_size : tables.2.nodeSize = intSize + 4

variable {c : Config} {tables : MgMap × MgMap} {macs ips : List (ℕ × List UInt8)} {k : ℕ}

@[simp] theorem intBytes_length (v : ℕ) : (intBytes v).length = 4 := load_length ..

theorem TablesHold.addMac (h : TablesHold tables macs ips) (hk : 0 < k) (hlt : k < 4294967296)
    (s : String) :
    ∃ tables', loadColumn c k 3 s tables = some tables' ∧
      TablesHold tables' (macs ++ macEntry c k (some s)) ips := by
  have hlen : (c.scanMac s ++ [0]).length = tables.1.nodeSize - 4 := by
    rw [h.mac_size, List.length_append, c.scanMac_length]
    rfl
  obtain ⟨m', hadd, hholds, hsize⟩ := h.mac.add hk hlt hlen
  refine ⟨(m', tables.2), ?_, ⟨hholds, hsize.trans h.mac_size, h.ip, h.ip_size⟩⟩
  rw [loadColumn, if_neg (by decide), if_pos rfl, hadd, Option.map_some]

theorem TablesHold.addIp (h : TablesHold tables macs ips) (s : String) :
    ∃ tables', loadColumn c k 8 s tables = some tables' ∧
      TablesHold tables' macs (ips ++ ipEntry c k (some s)) := by
  rw [loadColumn, if_pos rfl, ipEntry]
  by_cases h0 : c.inetAddr s = 0
  · -- 0.0.0.0 is the key of a free node and is refused
    refine ⟨tables, ?_, ?_⟩
    · rw [h0, h.ip.add_zero, Option.map_some]
    · rwa [if_pos h0, List.append_nil]
  · have hlen : (intBytes k).length = tables.2.nodeSize - 4 := by
      rw [h.ip_size, intBytes_length]
      rfl
    obtain ⟨m', hadd, hholds, hsize⟩ :=
      h.ip.add (Nat.pos_of_ne_zero h0) (c.inetAddr_lt s) hlen
    refine ⟨(tables.1, m'), by rw [hadd, Option.map_some], ⟨h.mac, h.mac_size, ?_, ?_⟩⟩
    · rwa [if_neg h0]
    · exact hsize.trans h.ip_size

/-- The token of column `b`, when `cols` starts at column `colIndex`. -/
def columnAt (cols : List String) (colIndex b : ℕ) : Option String :=
  if colIndex ≤ b then cols[b - colIndex]? else none

theorem columnAt_self (s : String) (cols : List String) (b : ℕ) :
    columnAt (s :: cols) b b = some s := by
  rw [columnAt, if_pos (Nat.le_refl b), Nat.sub_self, List.getElem?_cons_zero]

theorem columnAt_lt (cols : List String) {colIndex b : ℕ} (h : b < colIndex) :
    columnAt cols colIndex b = none := if_neg (by omega)

theorem columnAt_cons (s : String) (cols : List String) {colIndex b : ℕ} (h : colIndex ≠ b) :
    columnAt (s :: cols) colIndex b = columnAt cols (colIndex + 1) b := by
  by_cases hle : colIndex + 1 ≤ b
  · obtain ⟨e, rfl⟩ : ∃ e, b = colIndex + 1 + e := ⟨b - (colIndex + 1), by omega⟩
    have hsub : colIndex + 1 + e - colIndex = e + 1 := by omega
    rw [columnAt, columnAt, if_pos hle, if_pos (by omega), Nat.add_sub_cancel_left, hsub,
      List.getElem?_cons_succ]
  · rw [columnAt, columnAt, if_neg hle, if_neg (by omega)]

/-- A line, from column `colIndex` on, adds what stands in columns 3 and 8. -/
theorem TablesHold.columns (h : TablesHold tables macs ips) (hk : 0 < k) (hlt : k < 4294967296)
    (cols : List String) (colIndex : ℕ) :
    ∃ tables', loadColumns c k colIndex cols tables = some tables' ∧
      TablesHold tables' (macs ++ macEntry c k (columnAt cols colIndex 3))
        (ips ++ ipEntry c k (columnAt cols colIndex 8)) := by
  induction cols generalizing tables macs ips colIndex with
  | nil =>
    refine ⟨tables, rfl, ?_⟩
    simpa [columnAt, macEntry, ipEntry] using h
  | cons s cols ih =>
    rw [loadColumns]
    by_cases h3 : colIndex = 3
    · subst h3
      obtain ⟨t₁, ht₁, hold₁⟩ := h.addMac (c := c) hk hlt s
      obtain ⟨t₂, ht₂, hold₂⟩ := ih hold₁ 4
      refine ⟨t₂, by rw [ht₁, Option.bind_some, ht₂], ?_⟩
      rw [columnAt_lt cols (by decide : 3 < 4), macEntry, List.append_nil] at hold₂
      rwa [columnAt_self, columnAt_cons _ _ (by decide)]
    · by_cases h8 : colIndex = 8
      · subst h8
        obtain ⟨t₁, ht₁, hold₁⟩ := h.addIp (c := c) (k := k) s
        obtain ⟨t₂, ht₂, hold₂⟩ := ih hold₁ 9
        refine ⟨t₂, by rw [ht₁, Option.bind_some, ht₂], ?_⟩
        rw [columnAt_lt cols (by decide : 8 < 9), ipEntry, List.append_nil] at hold₂
        rwa [columnAt_self, columnAt_cons _ _ (by decide)]
      · obtain ⟨t₂, ht₂, hold₂⟩ := ih h (colIndex + 1)
        refine ⟨t₂, by rw [loadColumn, if_neg h8, if_neg h3, Option.bind_some, ht₂], ?_⟩
        rwa [columnAt_cons _ _ h3, columnAt_cons _ _ h8]

theorem TablesHold.lines (h : TablesHold tables macs ips) (lines : List (List String))
    (hk : 0 < k) (hlt : k + lines.length ≤ 4294967296) :
    ∃ tables', loadLines c k lines tables = some tables' ∧
      TablesHold tables' (macs ++ macEntries c k lines) (ips ++ ipEntries c k lines) := by
  induction lines generalizing tables macs ips k with
  | nil =>
    refine ⟨tables, rfl, ?_⟩
    rwa [macEntries, ipEntries, List.append_nil, List.append_nil]
  | cons cols lines ih =>
    rw [List.length_cons] at hlt
    obtain ⟨t₁, ht₁, hold₁⟩ := h.columns (c := c) hk (by omega) cols 1
    obtain ⟨t₂, ht₂, hold₂⟩ := ih hold₁ (k := k + 1) (by omega) (by omega)
    refine ⟨t₂, by rw [loadLines, ht₁, Option.bind_some, ht₂], ?_⟩
    rwa [List.append_assoc, List.append_assoc] at hold₂

/-- The tables after the loop over the lines. -/
theorem loadLines_spec (c : Config) (lines : List (List String)) (hlt : lines.length < 4294967296) :
    ∃ tables, loadLines c 1 lines
        ((mgMapInit .zero macAddrSize 32).2, (mgMapInit .zero intSize 32).2) = some tables ∧
      TablesHold tables (macEntries c 1 lines) (ipEntries c 1 lines) := by
  obtain ⟨mac, hmac, hholds, hsize⟩ :=
    MgMap.Holds.init macAddrSize 32 (by decide) (by decide)
  obtain ⟨ip, hip, hholds', hsize'⟩ :=
    MgMap.Holds.init intSize 32 (by decide) (by decide)
  have hempty : TablesHold (mac, ip) [] [] := ⟨hholds, hsize, hholds', hsize'⟩
  obtain ⟨tables, hload, hold⟩ := hempty.lines (c := c) lines (k := 1) (by decide) (by omega)
  refine ⟨tables, ?_, hold⟩
  rw [hmac, hip, hload]

/-- The tables after the worker file. -/
theorem loadWorkers_spec (c : Config) : ∃ tables, loadWorkers c = some tables ∧
    TablesHold tables (macEntries c 1 c.workers) (ipEntries c 1 c.workers) := by
  have hlt := c.workers_lt
  exact loadLines_spec c c.workers (by omega)

/-! ### The route file -/

/-- The matrix entry that the route file leaves: its own where it has a line, the heap's where it
does not. -/
def Config.routeEntry (c : Config) (row col : ℕ) : ℤ :=
  if row ≤ c.routeLines then c.route (row - 1) (col - 1) else c.heap ((col - 1) * 32 + (row - 1))

/-- A 32 x 32 matrix that has the file's entries where `C` says, the heap's elsewhere. -/
structure RoutesLoaded (c : Config) (C : ℕ → ℕ → Prop) (m : RouteMatrix) : Prop where
  rows_eq : m.rows = 32
  cols_eq : m.cols = 32
  entry : ∀ row col : ℕ, 1 ≤ row → row ≤ 32 → 1 ≤ col → col ≤ 32 →
    (C row col → m.data ((col - 1) * 32 + (row - 1)) = c.route (row - 1) (col - 1)) ∧
    (¬ C row col → m.data ((col - 1) * 32 + (row - 1)) = c.heap ((col - 1) * 32 + (row - 1)))

theorem RoutesLoaded.set {C : ℕ → ℕ → Prop} {m : RouteMatrix} (h : RoutesLoaded c C m)
    {i j : ℕ} (hj : j < 32) :
    RoutesLoaded c (fun row col => C row col ∨ (row = i + 1 ∧ col = j + 1))
      (setRouteElement m (i + 1) (j + 1) (c.route i j)).2 := by
  by_cases hout : m.outside (i + 1) (j + 1)
  · -- a line beyond the matrix
    rw [setRouteElement, if_pos hout]
    have hi : 32 ≤ i := by
      simp only [RouteMatrix.outside, h.rows_eq, h.cols_eq] at hout
      omega
    refine ⟨h.rows_eq, h.cols_eq, fun row col h1 h2 h3 h4 => ?_⟩
    have hne : ¬ (row = i + 1 ∧ col = j + 1) := by omega
    obtain ⟨hC, hnC⟩ := h.entry row col h1 h2 h3 h4
    exact ⟨fun hc => hC (hc.resolve_right hne), fun hc => hnC fun hc' => hc (.inl hc')⟩
  · rw [setRouteElement, if_neg hout]
    have hi : i < 32 := by
      simp only [RouteMatrix.outside, h.rows_eq, h.cols_eq] at hout
      omega
    have helem : m.elem (i + 1) (j + 1) = j * 32 + i := by
      simp only [RouteMatrix.elem, h.rows_eq]
      omega
    refine ⟨h.rows_eq, h.cols_eq, fun row col h1 h2 h3 h4 => ?_⟩
    simp only [helem]
    obtain ⟨hC, hnC⟩ := h.entry row col h1 h2 h3 h4
    by_cases hrc : row = i + 1 ∧ col = j + 1
    · obtain ⟨rfl, rfl⟩ := hrc
      simp
    · have hidx : (col - 1) * 32 + (row - 1) ≠ j * 32 + i := by omega
      rw [if_neg hidx]
      exact ⟨fun hc => hC (hc.resolve_right hrc), fun hc => hnC fun hc' => hc (.inl hc')⟩

theorem RoutesLoaded.congr {C C' : ℕ → ℕ → Prop} {m : RouteMatrix} (h : RoutesLoaded c C m)
    (hC : ∀ row col, row ≤ 32 → 1 ≤ col → col ≤ 32 → (C row col ↔ C' row col)) :
    RoutesLoaded c C' m := by
  refine ⟨h.rows_eq, h.cols_eq, fun row col h1 h2 h3 h4 => ?_⟩
  rw [← hC row col h2 h3 h4]
  exact h.entry row col h1 h2 h3 h4

/-- A line of the file fills a row, as far as there is one. -/
theorem RoutesLoaded.line {m : RouteMatrix} {i : ℕ}
    (h : RoutesLoaded c (fun row _ => row ≤ i) m) :
    RoutesLoaded c (fun row _ => row ≤ i + 1)
      (forLoop 32 (fun j m => (setRouteElement m (i + 1) (j + 1) (c.route i j)).2) m) := by
  refine RoutesLoaded.congr (forLoop_invariant
    (fun j => RoutesLoaded c fun row col => row ≤ i ∨ (row = i + 1 ∧ col ≤ j)) ?_ ?_) ?_
  · exact h.congr fun row col _ h1 _ => by omega
  · intro j m hj hm
    exact (hm.set hj).congr fun row col _ _ _ => by omega
  · intro row col _ _ h2
    omega

theorem routesLoaded_loadRoutes (c : Config) :
    RoutesLoaded c (fun row _ => row ≤ c.routeLines) (loadRoutes c ⟨32, 32, c.heap⟩) := by
  refine forLoop_invariant (fun i => RoutesLoaded c fun row _ => row ≤ i) ?_ fun i m _ hm => hm.line
  refine ⟨rfl, rfl, fun row col h1 h2 h3 h4 => ⟨fun h => ?_, fun _ => rfl⟩⟩
  omega

/-- A lookup inside the matrix finds the file's entry. -/
theorem getRouteElement_loadRoutes (c : Config) {row col : ℕ} (h1 : 1 ≤ row) (h2 : row ≤ 32)
    (h3 : 1 ≤ col) (h4 : col ≤ 32) :
    getRouteElement (loadRoutes c ⟨32, 32, c.heap⟩) row col = (0, some (c.routeEntry row col)) := by
  have hm := routesLoaded_loadRoutes c
  have hin : ¬ (loadRoutes c ⟨32, 32, c.heap⟩).outside row col := by
    simp only [RouteMatrix.outside, hm.rows_eq, hm.cols_eq]
    omega
  have helem : (loadRoutes c ⟨32, 32, c.heap⟩).elem row col = (col - 1) * 32 + (row - 1) := by
    simp only [RouteMatrix.elem, hm.rows_eq]
    omega
  rw [getRouteElement_inside hin, helem, Config.routeEntry]
  obtain ⟨hfile, hheap⟩ := hm.entry row col h1 h2 h3 h4
  by_cases hrow : row ≤ c.routeLines
  · rw [hfile hrow, if_pos hrow]
  · rw [hheap hrow, if_neg hrow]

/-! ### The globals -/

/-- The globals that `main` leaves: the tables hold the entries of the files. -/
structure Loaded (c : Config) (g : Globals) : Prop where
  nicIface_eq : g.nicIface = c.nicIface
  srcIp_eq : g.srcIp = c.srcIp
  tables : TablesHold (g.macTable, g.ipTable) (macEntries c 1 c.workers) (ipEntries c 1 c.workers)
  route : ∀ row col : ℕ, 1 ≤ row → row ≤ 32 → 1 ≤ col → col ≤ 32 →
    getRouteElement g.routeTable row col = (0, some (c.routeEntry row col))
  rows_eq : g.routeTable.rows = 32
  cols_eq : g.routeTable.cols = 32

/-- Loading always succeeds. -/
theorem Config.load_spec (c : Config) : ∃ g, c.load = some g ∧ Loaded c g := by
  obtain ⟨⟨mac, ip⟩, hload, hold⟩ := loadWorkers_spec c
  have hm := routesLoaded_loadRoutes c
  refine ⟨_, by rw [Config.load, hload]; rfl, rfl, rfl, hold, ?_, hm.rows_eq, hm.cols_eq⟩
  intro row col h1 h2 h3 h4
  exact getRouteElement_loadRoutes c h1 h2 h3 h4

end RotorXdp
