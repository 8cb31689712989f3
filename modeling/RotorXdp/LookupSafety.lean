import RotorXdp.NicRx
import RotorXdp.Loaders

/-!
# The chained lookups

From the destination address of a frame to a queue, from the slot of the queue and the topology slot
to a route entry, from there to a MAC address. No result is checked. Whether a frame gets through
depends on the worker file and the route file.

A frame from the NIC that the checks reject is not looked up, and a frame for this node is not
either, but both may be pushed to a non-local queue: the record says to which, and it holds what an
earlier frame has left in it. The TX thread then looks up the slot of that queue.

* `Config.workerOf`, `Config.hasMac`: the lookups in terms of the files;
* `VethLookups`, `NicLookups`: a frame is taken through its lookups, or nothing is looked up for it;
* `Config.Recorded`, `recorded_reached`: the queue numbers that a frame may find in the record;
* `lookups_iff`: the frames for which the lookups succeed.
-/

namespace RotorXdp

open Bytes Loops

/-! ### The lookups in terms of the files -/

/-- The number of the first line, from number `k` on, with the address in its eighth column. -/
def Config.lineOf (c : Config) (d : ℕ) : ℕ → List (List String) → Option ℕ
  | _, [] => none
  | k, cols :: lines =>
    if (cols[7]?).map c.inetAddr = some d then some k else c.lineOf d (k + 1) lines

/-- The number of the worker with an address. -/
def Config.workerOf (c : Config) (d : ℕ) : Option ℕ := c.lineOf d 1 c.workers

/-- Line `k` of the worker file gives a MAC address. -/
def Config.hasMac (c : Config) (k : ℕ) : Prop :=
  ∃ i cols, c.workers[i]? = some cols ∧ 3 ≤ cols.length ∧ k = i + 1

variable {c : Config} {g : Globals} {d k : ℕ} {lines : List (List String)}

theorem Config.lineOf_lt {x : ℕ} (h : c.lineOf d k lines = some x) :
    k ≤ x ∧ x < k + lines.length := by
  induction lines generalizing k with
  | nil => exact absurd h (by simp [Config.lineOf])
  | cons cols lines ih =>
    rw [Config.lineOf] at h
    rw [List.length_cons]
    split at h
    · cases h; omega
    · have := ih h; omega

/-- The first entry of the IP table with an address is that of the first line with it. -/
theorem find_ipEntries (hd : d ≠ 0) (k : ℕ) (lines : List (List String)) :
    (ipEntries c k lines).find? (fun e => e.1 = d) =
      (c.lineOf d k lines).map fun x => (d, intBytes x) := by
  induction lines generalizing k with
  | nil => rfl
  | cons cols lines ih =>
    rw [ipEntries, Config.lineOf, List.find?_append, ih]
    cases hcol : cols[7]? with
    | none => simp [ipEntry]
    | some s =>
      by_cases hs : c.inetAddr s = d
      · simp [ipEntry, hs, hd]
      · by_cases h0 : c.inetAddr s = 0
        · simp [ipEntry, h0, hd.symm]
        · simp [ipEntry, hs, h0]

theorem mem_macEntries {e : ℕ × List UInt8} (k : ℕ) (lines : List (List String)) :
    e ∈ macEntries c k lines ↔ ∃ i cols s, lines[i]? = some cols ∧ cols[2]? = some s ∧
      e = (k + i, c.scanMac s ++ [0]) := by
  induction lines generalizing k with
  | nil => simp [macEntries]
  | cons cols lines ih =>
    rw [macEntries, List.mem_append, ih]
    constructor
    · rintro (h | ⟨i, cols', s, hi, hs, he⟩)
      · cases hcol : cols[2]? with
        | none => rw [hcol] at h; exact absurd h (by simp [macEntry])
        | some s =>
          rw [hcol, macEntry, List.mem_singleton] at h
          exact ⟨0, cols, s, rfl, hcol, h⟩
      · exact ⟨i + 1, cols', s, hi, hs, by rw [he]; congr 1; omega⟩
    · rintro ⟨i, cols', s, hi, hs, he⟩
      cases i with
      | zero =>
        left
        cases hi
        rw [hs, he]
        exact List.mem_singleton.2 rfl
      | succ i => exact .inr ⟨i, cols', s, hi, hs, by rw [he]; congr 1; omega⟩

/-- An `int` read back. -/
theorem le32_of_load_eq {m : Mem} {p v : ℕ} (h : load m p 4 = intBytes v) :
    le32 m p = v % 4294967296 := by
  rw [← le32_setLe32 (fun _ => 0) 0 v]
  refine le32_congr fun i hi => ?_
  have hi' : i < (load m p 4).length := by rw [load_length]; exact hi
  have hget : (load m p 4)[i]? = (intBytes v)[i]? := by rw [h]
  rw [List.getElem?_eq_getElem hi', getElem_load,
    List.getElem?_eq_getElem (by simpa using hi)] at hget
  simp only [intBytes, getElem_load, Option.some.injEq] at hget
  exact hget

/-- The IP table answers with the number of the worker. -/
theorem Loaded.ip_some (h : Loaded c g) (hd : 0 < d) {x : ℕ} (hx : c.workerOf d = some x) :
    ∃ p, mgMapGet g.ipTable d = some p ∧ ipSetIndex g.ipTable p = x := by
  have hfind := find_ipEntries (c := c) hd.ne' 1 c.workers
  rw [show c.lineOf d 1 c.workers = some x from hx, Option.map_some] at hfind
  obtain ⟨p, hp, hload⟩ := h.tables.ip.get_some hd hfind
  refine ⟨p, hp, ?_⟩
  have hlt := (Config.lineOf_lt hx).2
  have hmax := c.workers_lt
  have hsize : g.ipTable.nodeSize - 4 = 4 := by
    rw [show g.ipTable.nodeSize = intSize + 4 from h.tables.ip_size]; rfl
  simp only at hload
  rw [hsize] at hload
  rw [ipSetIndex, le32_of_load_eq hload, Nat.mod_eq_of_lt (by omega), toInt32, if_pos (by omega)]

theorem Loaded.ip_none (h : Loaded c g) (hd : 0 < d) (hx : c.workerOf d = none) :
    mgMapGet g.ipTable d = none := by
  have hfind := find_ipEntries (c := c) hd.ne' 1 c.workers
  rw [show c.lineOf d 1 c.workers = none from hx, Option.map_none] at hfind
  exact h.tables.ip.get_none hd hfind

theorem Loaded.mac_isSome_iff (h : Loaded c g) (key : ℕ) :
    (∃ p, mgMapGet g.macTable key = some p) ↔ c.hasMac key := by
  have hmem := fun e => mem_macEntries (c := c) (e := e) 1 c.workers
  rcases Nat.eq_zero_or_pos key with rfl | hkey
  · constructor
    · rintro ⟨p, hp⟩
      rw [mgMapGet, h.tables.mac.live] at hp
      exact absurd hp (by simp)
    · rintro ⟨i, -, -, -, h0⟩
      omega
  · cases hfind : (macEntries c 1 c.workers).find? fun e => e.1 = key with
    | none =>
      rw [show mgMapGet g.macTable key = none from h.tables.mac.get_none hkey hfind]
      rw [List.find?_eq_none] at hfind
      constructor
      · rintro ⟨p, hp⟩; exact absurd hp (by simp)
      · rintro ⟨i, cols, hi, hlen, rfl⟩
        have hs : cols[2]? = some cols[2] := List.getElem?_eq_getElem (by omega)
        refine absurd ?_
          (hfind _ ((hmem (1 + i, c.scanMac cols[2] ++ [0])).2 ⟨i, cols, _, hi, hs, rfl⟩))
        simp [Nat.add_comm]
    | some e =>
      obtain ⟨p, hp, -⟩ := h.tables.mac.get_some hkey hfind
      refine ⟨fun _ => ?_, fun _ => ⟨p, hp⟩⟩
      have hkey' : e.1 = key := by simpa using List.find?_some hfind
      obtain ⟨i, cols, s, hi, hs, rfl⟩ := (hmem e).1 (List.mem_of_find?_eq_some hfind)
      have hlen := (List.getElem?_eq_some_iff.1 hs).1
      exact ⟨i, cols, hi, by omega, by rw [← hkey', Nat.add_comm]⟩

/-- The MAC lookup key of the route entry for slot `w`. -/
def Config.routeKey (c : Config) (w topo : ℕ) : ℕ := (c.routeEntry (w + 1) topo % 4294967296).toNat

/-- The route and MAC lookups of both encapsulation functions. -/
theorem Loaded.nextHopMac_iff (h : Loaded c g) {w topo : ℕ} (hw : w < 32) (h1 : 1 ≤ topo)
    (h32 : topo ≤ 32) : (∃ mac, nextHopMac g w topo = .ok mac) ↔ c.hasMac (c.routeKey w topo) := by
  have hroute := h.route (w + 1) topo (by omega) (by omega) h1 h32
  push_cast at hroute
  rw [← h.mac_isSome_iff, nextHopMac, hroute]
  simp only [Config.routeKey]
  cases mgMapGet g.macTable (c.routeEntry (w + 1) topo % 4294967296).toNat <;> simp

theorem encapVeth_ok_iff {w : ℤ} {topo data len addr : ℕ} {m : Mem} :
    (∃ r, encapVeth g w topo m data len addr = .ok r) ↔ ∃ mac, nextHopMac g w topo = .ok mac := by
  unfold encapVeth
  cases nextHopMac g w topo <;> simp

theorem encapIndirection_ok_iff {w : ℤ} {topo data : ℕ} {m : Mem} :
    (∃ r, encapIndirection g w topo m data = .ok r) ↔ ∃ mac, nextHopMac g w topo = .ok mac := by
  unfold encapIndirection
  cases nextHopMac g w topo <;> simp

/-! ### A frame and its lookups -/

/-- A frame from the namespace behind `iface` gets a queue, and every NIC TX thread that drains the
queue finds its next hop at `topo`. A frame at address 0 is given back in between. -/
def VethLookups (g : Globals) (iface : String) (n v topo : ℕ) (f : Frame) : Prop :=
  ∃ q : ℤ, getDestinationQueueIndex g iface f.umem f.data = .ok q ∧
    (0 ≤ q ∧ q < numOfPerDestQueues) ∧ (f.addr ≠ 0 →
    ∀ i < n, ∀ w : ℕ, (wiring n v numOfPerDestQueues i).localDestQueueArray w = some q.toNat →
      ∃ r, encapVeth g w topo f.umem f.data f.len f.addr = .ok r)

/-- A frame from the NIC is looked up without a failure or not at all, and when it is pushed to a
non-local queue, whatever frames came before it, there is such a queue and every NIC TX thread that
drains the queue finds a next hop at `topo`. -/
structure NicLookups (g : Globals) (n v topo : ℕ) (f : Frame) : Prop where
  no_failure : ∀ ret e,
    getQueueIndexForNicRx g g.nicIface f.umem f.data f.len f.addr ret = .error e →
    e ≠ .nullDeref ∧ e ≠ .uninit
  nonLocal : ∀ ret m ret', RecordReached g (nicRxLocals v) ret →
    getQueueIndexForNicRx g g.nicIface f.umem f.data f.len f.addr ret = .ok (m, ret') →
    ret'.newLen = 1 →
    (0 ≤ ret'.ringBufIndex ∧ ret'.ringBufIndex < numOfPerDestQueues) ∧
    ∀ i < n, ∀ w : ℕ,
      (wiring n v numOfPerDestQueues i).nonLocalDestQueueArray w = some ret'.ringBufIndex.toNat →
      ∃ r, encapIndirection g w topo m f.data = .ok r

/-- The route entry of a queue's slot, if a thread drains the queue, is the number of a line with a
MAC address. -/
def Config.SlotResolves (c : Config) (n topo q : ℕ) : Prop :=
  q < numOfPerDestQueues / n * n →
    c.hasMac (c.routeKey (q % (numOfPerDestQueues / n)) topo)

/-- The worker file has a line among the first 32 for the subnet of an address: queue `q`. -/
def Config.QueueOf (c : Config) (d q : ℕ) : Prop :=
  ∃ x, c.workerOf (constructDestIp d) = some x ∧ x ≤ numOfPerDestQueues ∧ q = x - 1

/-- There is such a line, and the slot of its queue resolves. -/
def Config.Resolves (c : Config) (n topo d : ℕ) : Prop :=
  ∃ q, c.QueueOf d q ∧ c.SlotResolves n topo q

/-- The queue numbers that the record can hold: that of a new burst, and those of the workers that
some address leads to. -/
def Config.Recorded (c : Config) (q : ℕ) : Prop :=
  q = 0 ∨ ∃ d < 4294967296, c.QueueOf d q

/-- The frames whose queue number is that of the record: those that the checks reject, and those for
this node whose length without the outer headers is the mark of a forwarded frame. -/
def Frame.LeftToRecord (srcIp : ℕ) (f : Frame) : Prop :=
  ¬ f.passesChecks ∨ f.outerDaddr = srcIp ∧ f.len = innerEth + 1

theorem constructDestIp_pos (d : ℕ) : 0 < constructDestIp d := by
  unfold constructDestIp; omega

/-- A queue's slot in the files' terms. -/
theorem Loaded.slots_iff (h : Loaded c g) {n topo q : ℕ} (h1 : 1 ≤ topo) (h32 : topo ≤ 32) :
    (∀ i < n, ∀ w, w < numOfPerDestQueues / n ∧ q = numOfPerDestQueues / n * i + w →
      ∃ mac, nextHopMac g w topo = .ok mac) ↔ c.SlotResolves n topo q := by
  rw [Config.SlotResolves, ← forall_slot_iff (P := fun w => c.hasMac (c.routeKey w topo))]
  refine forall_congr' fun i => forall_congr' fun _ => forall_congr' fun w =>
    forall_congr' fun hw => ?_
  have hle : numOfPerDestQueues / n ≤ 32 := Nat.div_le_self _ _
  exact h.nextHopMac_iff (by omega) h1 h32

theorem vethLookups_iff (h : Loaded c g) {iface : String} (hiface : iface ∈ outVethArr)
    {n v topo : ℕ} (h1 : 1 ≤ topo) (h32 : topo ≤ 32) (f : Frame) :
    VethLookups g iface n v topo f ↔
      ∃ q, c.QueueOf f.daddr q ∧ (f.addr ≠ 0 → c.SlotResolves n topo q) := by
  have hpre : prefixOf outerVethPrefix iface = true := by
    have hall : ∀ s ∈ outVethArr, prefixOf outerVethPrefix s = true := by decide
    exact hall iface hiface
  have hpos := constructDestIp_pos f.daddr
  rw [VethLookups, getDestinationQueueIndex, if_pos hpre,
    show ipDaddr f.umem (f.data + ethHlen) = f.daddr from rfl]
  simp only [Config.QueueOf]
  cases hx : c.workerOf (constructDestIp f.daddr) with
  | none => simp [h.ip_none hpos hx]
  | some x =>
    obtain ⟨p, hp, hidx⟩ := h.ip_some hpos hx
    have hx1 := (Config.lineOf_lt hx).1
    have htoNat : ((x : ℤ) - 1).toNat = x - 1 := by omega
    have hrange :
        (0 ≤ (x : ℤ) - 1 ∧ (x : ℤ) - 1 < numOfPerDestQueues) ↔ x ≤ numOfPerDestQueues := by
      omega
    have hslots : (∀ i < n, ∀ w : ℕ,
        (wiring n v numOfPerDestQueues i).localDestQueueArray w = some (x - 1) →
          ∃ r, encapVeth g w topo f.umem f.data f.len f.addr = .ok r) ↔
        c.SlotResolves n topo (x - 1) := by
      rw [← h.slots_iff h1 h32]
      refine forall_congr' fun i => forall_congr' fun hi => forall_congr' fun w => ?_
      rw [localDest_nicTx hi, encapVeth_ok_iff]
    simp only [hp, hidx, Except.ok.injEq, exists_eq_left', htoNat, hrange, hslots,
      Option.some.injEq]
    constructor
    · rintro ⟨hle, hslot⟩
      exact ⟨x - 1, ⟨hle, rfl⟩, hslot⟩
    · rintro ⟨q, ⟨hle, rfl⟩, hslot⟩
      exact ⟨hle, hslot⟩

/-! ### What the record holds -/

variable {n v topo : ℕ} {f : Frame} {ret ret' : ReturnProcessRx} {m : Mem} {verdict : Verdict}

/-- The record holds the queue number of a worker. -/
def Config.Holds (c : Config) (ret : ReturnProcessRx) : Prop :=
  ∃ q : ℕ, c.Recorded q ∧ ret.ringBufIndex = q

theorem Config.Recorded.lt {q : ℕ} (hq : c.Recorded q) : q < numOfPerDestQueues := by
  have hpos : numOfPerDestQueues = 32 := rfl
  obtain rfl | ⟨d, -, x, hx, hle, rfl⟩ := hq
  · omega
  · have hx1 := (Config.lineOf_lt hx).1
    omega

/-- A forwarded frame writes the number of its worker into the record. -/
theorem Loaded.forwarded (h : Loaded c g) (hchk : f.passesChecks) (hne : f.outerDaddr ≠ g.srcIp)
    {x : ℕ} (hx : c.workerOf (constructDestIp f.innerDaddr) = some x) (ret : ReturnProcessRx) :
    getQueueIndexForNicRx g g.nicIface f.umem f.data f.len f.addr ret =
      .ok (f.umem, { ret with ringBufIndex := (x : ℤ) - 1, newLen := 1 }) := by
  obtain ⟨p, hp, hidx⟩ := h.ip_some (constructDestIp_pos _) hx
  rw [getQueueIndexForNicRx_forward f.len f.addr ret hchk (Ne.symm hne) hp, hidx]

/-- A frame for another node without a worker uses a lookup that has failed. -/
theorem Loaded.not_forwarded (h : Loaded c g) (hchk : f.passesChecks) (hne : f.outerDaddr ≠ g.srcIp)
    (hx : c.workerOf (constructDestIp f.innerDaddr) = none) (ret : ReturnProcessRx) :
    getQueueIndexForNicRx g g.nicIface f.umem f.data f.len f.addr ret = .error .nullDeref := by
  rw [getQueueIndexForNicRx_frame, if_neg (not_not.2 hchk), if_pos (Ne.symm hne),
    h.ip_none (constructDestIp_pos _) hx]

/-- One frame keeps it so. -/
theorem Loaded.holds_step (h : Loaded c g) (hr : c.Holds ret)
    (hf : nicFrame g (nicRxLocals v) ret f = .ok (m, ret', verdict)) : c.Holds ret' := by
  obtain ⟨hq, hd⟩ := nicFrame_eq_ok.1 hf
  by_cases hchk : f.passesChecks
  · by_cases hsrc : f.outerDaddr = g.srcIp
    · rw [getQueueIndexForNicRx_local hchk hsrc] at hq
      split at hq
      · cases hq
        exact hr
      · cases hq
    · cases hx : c.workerOf (constructDestIp f.innerDaddr) with
      | none =>
        rw [h.not_forwarded hchk hsrc hx] at hq
        cases hq
      | some x =>
        have hx1 := (Config.lineOf_lt hx).1
        rw [h.forwarded hchk hsrc hx] at hq
        cases hq
        -- the frame was pushed, so its queue is one of the node
        rw [nicDispatch, if_pos rfl] at hd
        cases he : readEntry (nicRxLocals v).nonLocalDestQueue numOfPerDestQueues ((x : ℤ) - 1) with
        | error e =>
          simp only [he] at hd
          cases hd
        | ok o =>
          obtain ⟨-, hlt, -⟩ := readEntry_eq_ok.1 he
          exact ⟨x - 1, .inr ⟨f.innerDaddr, le32_lt _ _, x, hx, by omega, rfl⟩, by simp only; omega⟩
  · rw [getQueueIndexForNicRx_frame, if_pos hchk] at hq
    cases hq
    exact hr

theorem Loaded.holds_frames (h : Loaded c g) {fs : List Frame} {verdicts : List Verdict}
    (hr : c.Holds ret) (hfs : nicFrames g (nicRxLocals v) ret fs = .ok (ret', verdicts)) :
    c.Holds ret' := by
  induction fs generalizing ret verdicts with
  | nil =>
    cases hfs
    exact hr
  | cons f fs ih =>
    rw [nicFrames] at hfs
    cases hf : nicFrame g (nicRxLocals v) ret f with
    | error e =>
      rw [hf] at hfs
      cases hfs
    | ok r =>
      obtain ⟨m, ret₁, verdict⟩ := r
      rw [hf] at hfs
      cases hrest : nicFrames g (nicRxLocals v) ret₁ fs with
      | error e =>
        simp only [hrest] at hfs
        cases hfs
      | ok r =>
        obtain ⟨ret₂, rest⟩ := r
        simp only [hrest] at hfs
        cases hfs
        exact ih (h.holds_step hr hf) hrest

/-- Every record that a frame finds holds such a number: a burst starts with the number 0. -/
theorem Loaded.holds_of_reached (h : Loaded c g) (hret : RecordReached g (nicRxLocals v) ret) :
    c.Holds ret := by
  obtain ⟨bs, before, ret₀, out, verdicts, -, hbefore⟩ := hret
  exact h.holds_frames ⟨0, .inl rfl, rfl⟩ hbefore

/-- A frame for this node with the length of the mark goes to the queue of the record. -/
theorem nicFrame_marked (hchk : f.passesChecks) (hsrc : f.outerDaddr = g.srcIp)
    (hlen : f.len = innerEth + 1) (h0 : 0 ≤ ret.ringBufIndex)
    (hlt : ret.ringBufIndex < numOfPerDestQueues) :
    ∃ m, nicFrame g (nicRxLocals v) ret f =
      .ok (m, { ret with newLen := 1, whichVeth := fourthOctet f.innerDaddr - 2 },
        .nonLocal ret.ringBufIndex.toNat f.len) := by
  have hmark : ((f.len - innerEth : ℕ) : ℤ) = 1 := by omega
  have hcall := getQueueIndexForNicRx_local hchk hsrc ret
  rw [if_pos ⟨by omega, by omega⟩, hmark] at hcall
  refine ⟨_, nicFrame_eq_ok.2 ⟨hcall, ?_⟩⟩
  rw [nicDispatch, if_pos rfl, readEntry_nonLocal h0 hlt]

/-- Each of the numbers is found in a record that marks a forwarded frame. -/
theorem Loaded.recorded_reached (h : Loaded c g) (hsrc : g.srcIp < 4294967296) (v : ℕ) {q : ℕ}
    (hq : c.Recorded q) :
    ∃ ret, RecordReached g (nicRxLocals v) ret ∧ ret.ringBufIndex = q ∧ ret.newLen = 1 := by
  obtain rfl | ⟨d, hd, x, hx, h32, rfl⟩ := hq
  · -- the first frame is for this node and leaves the mark
    have hlen : 41 < 4294967296 := by decide
    obtain ⟨m, hf⟩ := nicFrame_marked (v := v) (tunnelTo_passesChecks g.srcIp 0 hlen)
      (tunnelTo_outerDaddr g.srcIp 0 hlen hsrc) rfl
      (show 0 ≤ ReturnProcessRx.zero.ringBufIndex from le_rfl) (by decide)
    exact ⟨_, recordReached_of_frame hf, rfl, rfl⟩
  · -- the first frame is for the worker
    have hlen : 74 < 4294967296 := by decide
    obtain ⟨outer, ho, hne⟩ : ∃ outer < 4294967296, outer ≠ g.srcIp := by
      by_cases h0 : g.srcIp = 0
      · exact ⟨1, by decide, by omega⟩
      · exact ⟨0, by decide, Ne.symm h0⟩
    have hx1 := (Config.lineOf_lt hx).1
    have hchk := tunnelTo_passesChecks outer d hlen
    have houter : (tunnelTo outer d hlen).outerDaddr ≠ g.srcIp := by
      rw [tunnelTo_outerDaddr _ _ _ ho]
      exact hne
    have hinner := tunnelTo_innerDaddr outer d hlen hd
    rw [← hinner] at hx
    have hf : nicFrame g (nicRxLocals v) .zero (tunnelTo outer d hlen) =
        .ok ((tunnelTo outer d hlen).umem, ⟨1, (x : ℤ) - 1, 0⟩,
          .nonLocal ((x : ℤ) - 1).toNat 74) := by
      refine nicFrame_eq_ok.2 ⟨?_, ?_⟩
      · rw [h.forwarded hchk houter hx]
        rfl
      · rw [nicDispatch, if_pos rfl, readEntry_nonLocal (by simp only; omega) (by simp only; omega)]
        rfl
    exact ⟨_, recordReached_of_frame hf, by simp only; omega, rfl⟩

/-! ### Frames from the NIC -/

/-- The threads that drain a queue find a next hop exactly when its slot resolves. -/
theorem Loaded.indirection_iff (h : Loaded c g) (h1 : 1 ≤ topo) (h32 : topo ≤ 32) (v q data : ℕ)
    (m : Mem) :
    (∀ i < n, ∀ w : ℕ, (wiring n v numOfPerDestQueues i).nonLocalDestQueueArray w = some q →
      ∃ r, encapIndirection g w topo m data = .ok r) ↔ c.SlotResolves n topo q := by
  rw [← h.slots_iff h1 h32]
  refine forall_congr' fun i => forall_congr' fun hi => forall_congr' fun w => ?_
  rw [nonLocalDest_nicTx hi, encapIndirection_ok_iff]

/-- A frame that is left to the record keeps its queue number and its mark. -/
theorem Frame.LeftToRecord.call (hf : f.LeftToRecord g.srcIp) (ret : ReturnProcessRx) :
    ∃ m ret', getQueueIndexForNicRx g g.nicIface f.umem f.data f.len f.addr ret = .ok (m, ret') ∧
      ret'.ringBufIndex = ret.ringBufIndex ∧ (ret.newLen = 1 → ret'.newLen = 1) := by
  by_cases hchk : f.passesChecks
  · obtain ⟨hsrc, hlen⟩ := hf.resolve_left (not_not.2 hchk)
    have hmark : ((f.len - innerEth : ℕ) : ℤ) = 1 := by omega
    rw [getQueueIndexForNicRx_local hchk hsrc, if_pos ⟨by omega, by omega⟩]
    exact ⟨_, _, rfl, rfl, fun _ => hmark⟩
  · rw [getQueueIndexForNicRx_frame, if_pos hchk]
    exact ⟨_, _, rfl, rfl, id⟩

/-- A frame for this node is looked up nowhere. -/
theorem nicLookups_of_local (hchk : f.passesChecks) (hsrc : f.outerDaddr = g.srcIp)
    (hlen : f.len ≠ innerEth + 1) : NicLookups g n v topo f := by
  refine ⟨fun ret e he => ?_, fun ret m ret' _ hok hmark => ?_⟩
  · rw [getQueueIndexForNicRx_local hchk hsrc] at he
    split at he
    · cases he
    · cases he
      exact ⟨by decide, by decide⟩
  · rw [getQueueIndexForNicRx_local hchk hsrc] at hok
    split at hok
    · cases hok
      simp only at hmark
      omega
    · cases hok

/-- A frame that is left to the record gets through exactly when every slot that the record may lead
to resolves. -/
theorem nicLookups_left_iff (h : Loaded c g) (hsrc : g.srcIp < 4294967296) (h1 : 1 ≤ topo)
    (h32 : topo ≤ 32) (hf : f.LeftToRecord g.srcIp) :
    NicLookups g n v topo f ↔ ∀ q, c.Recorded q → c.SlotResolves n topo q := by
  constructor
  · intro hlook q hq
    obtain ⟨ret, hret, hidx, hmark⟩ := h.recorded_reached hsrc v hq
    obtain ⟨m, ret', hcall, hidx', hmark'⟩ := hf.call ret
    obtain ⟨-, hslots⟩ := hlook.nonLocal ret m ret' hret hcall (hmark' hmark)
    rw [hidx', hidx, Int.toNat_natCast] at hslots
    exact (h.indirection_iff h1 h32 v q f.data m).1 hslots
  · intro hall
    refine ⟨fun ret e he => ?_, fun ret m ret' hret hcall _ => ?_⟩
    · obtain ⟨m, ret', hcall, -⟩ := hf.call ret
      rw [hcall] at he
      cases he
    · obtain ⟨q, hq, hidx⟩ := h.holds_of_reached hret
      obtain ⟨m₁, ret₁, hcall₁, hidx₁, -⟩ := hf.call ret
      rw [hcall₁] at hcall
      cases hcall
      rw [hidx₁, hidx, Int.toNat_natCast]
      exact ⟨⟨Int.natCast_nonneg q, Int.ofNat_lt.2 hq.lt⟩,
        (h.indirection_iff h1 h32 v q f.data m).2 (hall q hq)⟩

/-- A frame for another node gets through exactly when its destination resolves. -/
theorem nicLookups_forward_iff (h : Loaded c g) (h1 : 1 ≤ topo) (h32 : topo ≤ 32)
    (hchk : f.passesChecks) (hne : f.outerDaddr ≠ g.srcIp) :
    NicLookups g n v topo f ↔ c.Resolves n topo f.innerDaddr := by
  cases hx : c.workerOf (constructDestIp f.innerDaddr) with
  | none =>
    constructor
    · intro hlook
      exact absurd rfl (hlook.no_failure .zero _ (h.not_forwarded hchk hne hx .zero)).1
    · rintro ⟨q, ⟨x, hx', -⟩, -⟩
      rw [hx] at hx'
      cases hx'
  | some x =>
    have hx1 := (Config.lineOf_lt hx).1
    have hcall := h.forwarded hchk hne hx
    have htoNat : ((x : ℤ) - 1).toNat = x - 1 := by omega
    constructor
    · intro hlook
      obtain ⟨hrange, hslots⟩ := hlook.nonLocal .zero _ _ (recordReached_zero g _) (hcall .zero) rfl
      simp only [htoNat] at hrange hslots
      exact ⟨x - 1, ⟨x, hx, by omega, rfl⟩, (h.indirection_iff h1 h32 v _ f.data f.umem).1 hslots⟩
    · rintro ⟨q, ⟨x', hx', hle, rfl⟩, hslot⟩
      obtain rfl : x' = x := Option.some.inj (hx'.symm.trans hx)
      refine ⟨fun ret e he => ?_, fun ret m ret' _ hok _ => ?_⟩
      · rw [hcall ret] at he
        cases he
      · rw [hcall ret] at hok
        cases hok
        simp only [htoNat]
        exact ⟨by omega, (h.indirection_iff h1 h32 v _ f.data f.umem).2 hslot⟩

theorem nicLookups_iff (h : Loaded c g) (hsrc : g.srcIp < 4294967296) (h1 : 1 ≤ topo)
    (h32 : topo ≤ 32) (v : ℕ) (f : Frame) :
    NicLookups g n v topo f ↔
      (f.passesChecks → f.outerDaddr ≠ g.srcIp → c.Resolves n topo f.innerDaddr) ∧
        (f.LeftToRecord g.srcIp → ∀ q, c.Recorded q → c.SlotResolves n topo q) := by
  by_cases hleft : f.LeftToRecord g.srcIp
  · rw [nicLookups_left_iff h hsrc h1 h32 hleft]
    refine ⟨fun hall => ⟨fun hchk hne => ?_, fun _ => hall⟩, fun hcond => hcond.2 hleft⟩
    exact absurd (hleft.resolve_left (not_not.2 hchk)).1 hne
  · obtain ⟨hchk, hmark⟩ : f.passesChecks ∧ ¬ (f.outerDaddr = g.srcIp ∧ f.len = innerEth + 1) := by
      rwa [Frame.LeftToRecord, not_or, not_not] at hleft
    by_cases heq : f.outerDaddr = g.srcIp
    · refine ⟨fun _ => ⟨fun _ hne => absurd heq hne, fun hf => absurd hf hleft⟩, fun _ => ?_⟩
      exact nicLookups_of_local hchk heq fun hlen => hmark ⟨heq, hlen⟩
    · rw [nicLookups_forward_iff h h1 h32 hchk heq]
      exact ⟨fun hres => ⟨fun _ _ => hres, fun hf => absurd hf hleft⟩,
        fun hcond => hcond.1 hchk heq⟩

/-- **A frame gets through its lookups exactly when the worker file and the route file resolve its
destination**; a frame from the NIC that is for this node needs nothing, and one that is left to the
record needs that every queue resolves that the record can hold. -/
theorem lookups_iff {c : Config} {g : Globals} (hload : c.load = some g) {iface : String}
    (hiface : iface ∈ outVethArr) (hsrc : c.srcIp < 4294967296) (n v topo : ℕ) (h1 : 1 ≤ topo)
    (h32 : topo ≤ 32) (f : Frame) :
    (VethLookups g iface n v topo f ↔
      ∃ q, c.QueueOf f.daddr q ∧ (f.addr ≠ 0 → c.SlotResolves n topo q)) ∧
    (NicLookups g n v topo f ↔
      (f.passesChecks → f.outerDaddr ≠ c.srcIp → c.Resolves n topo f.innerDaddr) ∧
        (f.LeftToRecord c.srcIp → ∀ q, c.Recorded q → c.SlotResolves n topo q)) := by
  obtain ⟨g', hload', h⟩ := c.load_spec
  obtain rfl : g = g' := Option.some.inj (hload.symm.trans hload')
  refine ⟨vethLookups_iff h hiface h1 h32 f, ?_⟩
  rw [← h.srcIp_eq] at hsrc ⊢
  exact nicLookups_iff h hsrc h1 h32 v f

/-! ### One worker -/

/-- A worker file with the line of 10.0.0.1, and a route file that sends everything to it. -/
def oneWorker : Config where
  inetAddr s := if s = "10.0.0.1" then 16777226 else 4294967295
  inetAddr_lt s := by split <;> decide
  scanMac _ := [2, 0, 0, 0, 0, 1]
  scanMac_length _ := rfl
  workers := [["node1", "ens4", "02:00:00:00:00:01", "cpu", "node", "id", "name", "10.0.0.1"]]
  workers_lt := by decide
  routeLines := 32
  route _ _ := 1
  heap _ := 0
  nicIface := "ens4"
  srcIp := 33554442
  outEthSrc := [2, 0, 0, 0, 0, 2]
  outEthSrc_length := rfl

/-- A frame for 10.0.0.7, from a namespace and from the NIC, and one that the checks reject. -/
theorem lookups_oneWorker : ∃ g, oneWorker.load = some g ∧
    VethLookups g "vethout2" 1 2 1 smallVethFrame ∧
    NicLookups g 1 2 1 tunnelledFrame ∧ NicLookups g 1 2 1 greFrame := by
  obtain ⟨g, hload, -⟩ := oneWorker.load_spec
  have hmac : oneWorker.hasMac 1 := ⟨0, _, rfl, by decide, rfl⟩
  have hqueue : oneWorker.QueueOf 117440522 0 := ⟨1, by decide, by decide, rfl⟩
  have hresolves : oneWorker.Resolves 1 1 117440522 := ⟨0, hqueue, fun _ => hmac⟩
  have hiface : "vethout2" ∈ outVethArr := by decide
  have hsrc : oneWorker.srcIp < 4294967296 := by decide
  have hslot : ∀ q, oneWorker.Recorded q → oneWorker.SlotResolves 1 1 q := by
    intro q hq
    obtain rfl : q = 0 := by
      obtain rfl | ⟨d, -, x, hx, -, rfl⟩ := hq
      · rfl
      · have hlt : x < 1 + 1 := (Config.lineOf_lt hx).2
        omega
    exact fun _ => hmac
  have hveth := (lookups_iff hload hiface hsrc 1 2 1 (by decide) (by decide) smallVethFrame).1
  have hnic := (lookups_iff hload hiface hsrc 1 2 1 (by decide) (by decide) tunnelledFrame).2
  have hgre := (lookups_iff hload hiface hsrc 1 2 1 (by decide) (by decide) greFrame).2
  have hnot : ¬ greFrame.passesChecks := by decide
  exact ⟨g, hload, hveth.2 ⟨0, hqueue, fun _ _ => hmac⟩,
    hnic.2 ⟨fun _ _ => hresolves, fun _ => hslot⟩,
    hgre.2 ⟨fun hchk => absurd hchk hnot, fun _ => hslot⟩⟩

/-- An ARP request. -/
def arpFrame : Frame :=
  ⟨256, 42, by decide,
    store (fun _ => 0) 256 [255, 255, 255, 255, 255, 255, 2, 2, 2, 2, 2, 2, 8, 6]⟩

/-- An ARP request from a namespace: its lookup fails and the result is used. -/
theorem arp_lookup_fails : ∃ g, oneWorker.load = some g ∧
    getDestinationQueueIndex g "vethout2" arpFrame.umem arpFrame.data = .error .nullDeref ∧
    ¬ VethLookups g "vethout2" 1 2 1 arpFrame := by
  obtain ⟨g, hload, h⟩ := oneWorker.load_spec
  have hnone : oneWorker.workerOf (constructDestIp arpFrame.daddr) = none := by decide
  have hpre : prefixOf outerVethPrefix "vethout2" = true := by decide
  have hfail : getDestinationQueueIndex g "vethout2" arpFrame.umem arpFrame.data =
      .error .nullDeref := by
    rw [getDestinationQueueIndex, if_pos hpre]
    have hget := h.ip_none (constructDestIp_pos _) hnone
    unfold Frame.daddr at hget
    rw [hget]
  refine ⟨g, hload, hfail, ?_⟩
  rintro ⟨q, hq, -⟩
  rw [hfail] at hq
  exact absurd hq (by simp)

end RotorXdp
