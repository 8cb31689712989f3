import RotorXdp.NicRx

/-!
# Encapsulation on the receive side

`opera-v1` encapsulates a frame as soon as it is received, `opera-v2` when it leaves its queue.
`process_rx_packet_old` of `opera-v1/thread_functions_1.h` is what became
`get_destination_queue_index`, `get_queue_index_for_nic_rx`, `encap_veth` and `encap_indirection`;
tables, records and headers are the same in both. Each version is put together here up to the frame
it hands to the NIC, for a node with one NIC port.

* `processRxPacketOld`: the function of `opera-v1`;
* `opera1Veth`, `opera1Forward`, `opera1Deliver`: the first version;
* `opera2Veth`, `opera2Forward`, `opera2Deliver`: the second;
* `SameAsV1`: they send the same bytes, the GRE flags apart;
* `sameAsV1_iff`: the frames for which they do.
-/

namespace RotorXdp

open Bytes

/-! ### The function of opera-v1 -/

/-- The route and MAC lookups for the row of a destination. -/
def routeMac (g : Globals) (index : ℤ) (topo : ℕ) : Except Fault (List UInt8) :=
  match (getRouteElement g.routeTable index topo).2 with
  | none => .error .uninit
  | some macIndex =>
    match mgMapGet g.macTable (macIndex % 4294967296).toNat with
    | none => .error .nullDeref
    | some p => .ok (macAddrBytes g.macTable p)

/-- `greh->flags`, written with the number of the first two namespaces. -/
def greFlags (m : Mem) (p : ℕ) : ℕ := le16 m p

def setGreFlags (iface : String) (m : Mem) (p : ℕ) : Mem :=
  if iface = "vethout2" then setLe16 m p 0
  else if iface = "vethout3" then setLe16 m p 1
  else m

/-- `process_rx_packet_old`. The branches that reject a frame return without writing the record.
Each `memcpy` overlaps its source; it is taken to read before it writes. -/
def processRxPacketOld (g : Globals) (iface : String) (topo : ℕ) (m : Mem) (data len addr : ℕ)
    (returnVal : ReturnProcessRx) : Except Fault (Mem × ReturnProcessRx) :=
  let gre := data + ethHlen + iphdrLen
  if prefixOf outerVethPrefix iface then
    let newData := addOffsetToAddr (addr + encapSize)
    let m := copy m newData data len
    if hProto m newData ≠ ethPIp ∨ len < ethHlen + iphdrLen then .ok (m, returnVal)
    else
      let destIp := constructDestIp (ipDaddr m (data + ethHlen))
      let m := store m (data + 6) g.outEthSrc
      match mgMapGet g.ipTable destIp with
      | none => .error .nullDeref
      | some p =>
        match routeMac g (ipSetIndex g.ipTable p) topo with
        | .error e => .error e
        | .ok mac =>
          let m := store m data mac
          let m := setBe16 m (data + 12) ethPIp
          let m := Bytes.set m (data + ethHlen + 9) (UInt8.ofNat ipprotoGre)
          let m := setBe16 m (data + ethHlen + 2)
            (ethHlen + greHdrLen + ipTotLen m (data + ethHlen))
          let m := setLe32 m (data + ethHlen + 16) destIp
          let m := setBe16 m (gre + 2) ethPTeb
          let m := setGreFlags iface m gre
          let m := setLe16 m (gre + 4) 0
          .ok (m, { returnVal with
            ringBufIndex := ipSetIndex g.ipTable p - 1
            newLen := toInt32 ((len + encapSize) % 4294967296) })
  else if iface = g.nicIface then
    if ¬ passesChecks m data then .ok (m, returnVal)
    else if g.srcIp ≠ ipDaddr m (data + ethHlen) then
      let destIp := constructDestIp (ipDaddr m (data + innerIp))
      match mgMapGet g.ipTable destIp with
      | none => .error .nullDeref
      | some p =>
        match routeMac g (ipSetIndex g.ipTable p) topo with
        | .error e => .error e
        | .ok mac =>
          let m := setLe16 m (gre + 4) (greHopcount m gre + 1)
          let m := store m data mac
          let m := store m (data + 6) g.outEthSrc
          let m := setLe32 m (data + ethHlen + 16) destIp
          .ok (m, { returnVal with ringBufIndex := ipSetIndex g.ipTable p - 1, newLen := 1 })
    else
      let newLen := toInt32 ((len + 4294967296 - innerEth) % 4294967296)
      if newLen < 0 then .error .badLength
      else
        .ok (copy m addr (addr + innerEth) newLen.toNat,
          { returnVal with whichVeth := greFlags m gre, newLen := newLen })
  else .ok (m, returnVal)

/-! ### The two versions up to the wire -/

/-- The slot of a TX thread that holds queue `q`. -/
def slotOf (queues : ℕ → Option ℕ) (q : ℤ) : Option ℕ :=
  (List.range numOfPerDestQueues).find? fun w => (queues w).map Int.ofNat = some q

/-- The NIC TX thread of a node with one NIC port and `v` namespaces. -/
def onlyNicTx (v : ℕ) : ThreadData := wiring 1 v numOfPerDestQueues 0

/-- A frame as it is handed to the NIC, and the queue in which it has waited. -/
structure Sent where
  queue : ℤ
  umem : Mem
  len : ℤ

/-- opera-v1 on a frame from a namespace; `none` is a frame that is given back to the cache. -/
def opera1Veth (g : Globals) (iface : String) (v topo : ℕ) (f : Frame) (ret : ReturnProcessRx) :
    Except Fault (Option Sent) :=
  match processRxPacketOld g iface topo f.umem f.data f.len f.addr ret with
  | .error e => .error e
  | .ok (m, ret) =>
    if ret.newLen = 0 then .ok none
    else
      match slotOf (onlyNicTx v).localDestQueueArray ret.ringBufIndex with
      | none => .error .outOfBounds
      | some _ => .ok (some ⟨ret.ringBufIndex, m, ret.newLen⟩)

/-- opera-v2 on a frame from a namespace: `encap_veth` is called for the slot of the queue. Here it
is the address that is compared with 0. -/
def opera2Veth (g : Globals) (iface : String) (v topo : ℕ) (f : Frame) :
    Except Fault (Option Sent) :=
  match getDestinationQueueIndex g iface f.umem f.data with
  | .error e => .error e
  | .ok destIndex =>
    if f.addr = 0 then .ok none
    else
      match slotOf (onlyNicTx v).localDestQueueArray destIndex with
      | none => .error .outOfBounds
      | some w =>
        match encapVeth g w topo f.umem f.data f.len f.addr with
        | .error e => .error e
        | .ok (m, newLen) => .ok (some ⟨destIndex, m, newLen⟩)

/-- opera-v1 on a frame from the NIC that is to be forwarded. -/
def opera1Forward (g : Globals) (iface : String) (v topo : ℕ) (f : Frame) (ret : ReturnProcessRx) :
    Except Fault (Option Sent) :=
  match processRxPacketOld g iface topo f.umem f.data f.len f.addr ret with
  | .error e => .error e
  | .ok (m, ret) =>
    match slotOf (onlyNicTx v).nonLocalDestQueueArray ret.ringBufIndex with
    | none => .error .outOfBounds
    | some _ => .ok (some ⟨ret.ringBufIndex, m, f.len⟩)

/-- opera-v2 on a frame from the NIC that is to be forwarded. -/
def opera2Forward (g : Globals) (iface : String) (v topo : ℕ) (f : Frame) (ret : ReturnProcessRx) :
    Except Fault (Option Sent) :=
  match getQueueIndexForNicRx g iface f.umem f.data f.len f.addr ret with
  | .error e => .error e
  | .ok (m, ret) =>
    match slotOf (onlyNicTx v).nonLocalDestQueueArray ret.ringBufIndex with
    | none => .error .outOfBounds
    | some w =>
      match encapIndirection g w topo m f.data with
      | .error e => .error e
      | .ok m => .ok (some ⟨ret.ringBufIndex, m, f.len⟩)

/-- The bytes that opera-v1 and opera-v2 leave of a frame for this node. -/
def opera1Deliver (g : Globals) (iface : String) (topo : ℕ) (f : Frame) (ret : ReturnProcessRx) :
    Except Fault (List UInt8) :=
  match processRxPacketOld g iface topo f.umem f.data f.len f.addr ret with
  | .error e => .error e
  | .ok (m, ret) => .ok (load m f.addr ret.newLen.toNat)

def opera2Deliver (g : Globals) (iface : String) (f : Frame) (ret : ReturnProcessRx) :
    Except Fault (List UInt8) :=
  match getQueueIndexForNicRx g iface f.umem f.data f.len f.addr ret with
  | .error e => .error e
  | .ok (m, ret) => .ok (load m f.addr ret.newLen.toNat)

/-- The same queue and the same bytes, the two GRE flags bytes apart; or neither sends a frame. -/
def SameWire (data : ℕ) : Except Fault (Option Sent) → Except Fault (Option Sent) → Prop
  | .ok (some x), .ok (some y) => x.queue = y.queue ∧ x.len = y.len ∧
      ∀ i < x.len.toNat, i ≠ 34 → i ≠ 35 → x.umem (data + i) = y.umem (data + i)
  | .ok (some _), _ => False
  | _, .ok (some _) => False
  | _, _ => True

/-- The checks of opera-v1 on a frame from a namespace. -/
def Frame.PassesVeth (f : Frame) : Prop :=
  hProto f.umem f.data = ethPIp ∧ ethHlen + iphdrLen ≤ f.len

/-- opera-v2 treats a frame that passes the checks of opera-v1 as opera-v1 does. -/
structure SameAsV1 (g : Globals) (iface : String) (v topo : ℕ) (f : Frame) (ret : ReturnProcessRx) :
    Prop where
  veth : prefixOf outerVethPrefix iface → f.PassesVeth →
    SameWire f.data (opera1Veth g iface v topo f ret) (opera2Veth g iface v topo f)
  forward : ¬ prefixOf outerVethPrefix iface → iface = g.nicIface → f.passesChecks →
    f.outerDaddr ≠ g.srcIp →
    SameWire f.data (opera1Forward g iface v topo f ret) (opera2Forward g iface v topo f ret)
  deliver : ¬ prefixOf outerVethPrefix iface → iface = g.nicIface → f.passesChecks →
    f.outerDaddr = g.srcIp → opera1Deliver g iface topo f ret = opera2Deliver g iface f ret

/-- The tables have a queue and a next hop for the destination of a frame from a namespace. -/
def Frame.Routed (g : Globals) (topo : ℕ) (f : Frame) : Prop :=
  ∃ p mac, mgMapGet g.ipTable (constructDestIp f.daddr) = some p ∧
    1 ≤ ipSetIndex g.ipTable p ∧ ipSetIndex g.ipTable p ≤ numOfPerDestQueues ∧
    nextHopMac g (ipSetIndex g.ipTable p - 1) topo = .ok mac

/-! ### Lookups -/

section Versions

variable {g : Globals} {iface : String} {v topo : ℕ} {f : Frame} {ret : ReturnProcessRx}

theorem routeMac_eq (g : Globals) (index : ℤ) (topo : ℕ) :
    routeMac g index topo = nextHopMac g (index - 1) topo := by
  rw [nextHopMac, Int.sub_add_cancel]
  rfl

theorem slotOf_filled (q : ℤ) :
    slotOf (Loops.filled (fun _ => none) some 0 numOfPerDestQueues) q =
      if 0 ≤ q ∧ q < numOfPerDestQueues then some q.toNat else none := by
  have hfilled : ∀ w, w < numOfPerDestQueues →
      Loops.filled (fun _ => none) some 0 numOfPerDestQueues w = some w := fun w hw => by
    rw [filled_some _ _ _ hw, Nat.zero_add]
  unfold slotOf
  by_cases hq : 0 ≤ q ∧ q < numOfPerDestQueues
  · rw [if_pos hq, List.find?_range_eq_some]
    refine ⟨?_, List.mem_range.2 (by omega), fun j hj => ?_⟩
    · rw [hfilled _ (by omega)]
      simp
      omega
    · rw [hfilled _ (by omega)]
      simp
      omega
  · rw [if_neg hq, List.find?_range_eq_none]
    intro w hw
    rw [hfilled w hw]
    simp
    omega

/-- With one NIC port the slots of the TX thread are numbered as the queues. -/
theorem slotOf_local (v : ℕ) (q : ℤ) : slotOf (onlyNicTx v).localDestQueueArray q =
    if 0 ≤ q ∧ q < numOfPerDestQueues then some q.toNat else none := by
  rw [onlyNicTx, wiring_nicTx (by omega), ← slotOf_filled]
  rfl

theorem slotOf_nonLocal (v : ℕ) (q : ℤ) : slotOf (onlyNicTx v).nonLocalDestQueueArray q =
    if 0 ≤ q ∧ q < numOfPerDestQueues then some q.toNat else none := by
  rw [onlyNicTx, wiring_nicTx (by omega), ← slotOf_filled]
  rfl

/-! ### Frames from a namespace -/

theorem setGreFlags_of_ne (iface : String) (m : Mem) {p i : ℕ} (h : i < p ∨ p + 2 ≤ i) :
    setGreFlags iface m p i = m i := by
  unfold setGreFlags
  split
  · exact setLe16_of_ne _ _ h
  · split
    · exact setLe16_of_ne _ _ h
    · rfl

theorem setGreFlags_left {S : ℕ → Prop} {m m' : Mem} (h : AgreeOff S m m') (iface : String) {p : ℕ}
    (h0 : S p) (h1 : S (p + 1)) : AgreeOff S (setGreFlags iface m p) m' := by
  unfold setGreFlags
  split
  · exact h.setLe16_left h0 h1
  · split
    · exact h.setLe16_left h0 h1
    · exact h

/-- The bytes in which the two versions may differ: the source address of the outer Ethernet header
and the GRE flags. -/
def MayDiffer (data a : ℕ) : Prop :=
  data + 6 ≤ a ∧ a < data + 12 ∨ data + 34 ≤ a ∧ a < data + 36

/-- The frame that opera-v1 makes, with the source address that it writes. -/
structure SentByV1 (g : Globals) (m₁ m₂ : Mem) (data : ℕ) : Prop where
  agree : AgreeOff (MayDiffer data) m₁ m₂
  source : ∀ i (h : i < g.outEthSrc.length), m₁ (data + 6 + i) = g.outEthSrc[i]

/-- The frame that opera-v1 makes once it has moved the frame of the namespace up, in `m`. -/
def vethFrame (g : Globals) (iface : String) (m : Mem) (data destIp : ℕ) (mac : List UInt8) : Mem :=
  let m := store m (data + 6) g.outEthSrc
  let m := store m data mac
  let m := setBe16 m (data + 12) ethPIp
  let m := Bytes.set m (data + ethHlen + 9) (UInt8.ofNat ipprotoGre)
  let m := setBe16 m (data + ethHlen + 2) (ethHlen + greHdrLen + ipTotLen m (data + ethHlen))
  let m := setLe32 m (data + ethHlen + 16) destIp
  let m := setBe16 m (data + ethHlen + iphdrLen + 2) ethPTeb
  let m := setGreFlags iface m (data + ethHlen + iphdrLen)
  setLe16 m (data + ethHlen + iphdrLen + 4) 0

/-- The call of opera-v1 on a frame that passes its checks, in the frame's own terms. -/
theorem processRxPacketOld_veth (hiface : prefixOf outerVethPrefix iface) (hpass : f.PassesVeth)
    (hdata : addOffsetToAddr (f.addr + encapSize) = f.data + encapSize) :
    processRxPacketOld g iface topo f.umem f.data f.len f.addr ret =
      match mgMapGet g.ipTable (constructDestIp f.daddr) with
      | none => .error .nullDeref
      | some p =>
        match nextHopMac g (ipSetIndex g.ipTable p - 1) topo with
        | .error e => .error e
        | .ok mac =>
          .ok (vethFrame g iface (copy f.umem (f.data + encapSize) f.data f.len) f.data
            (constructDestIp f.daddr) mac, { ret with
              ringBufIndex := ipSetIndex g.ipTable p - 1
              newLen := toInt32 ((f.len + encapSize) % 4294967296) }) := by
  obtain ⟨htype, hlen⟩ := hpass
  have hoff : encapSize = 40 := rfl
  have hmin : ethHlen + iphdrLen = 34 := rfl
  obtain ⟨m₀, hm₀⟩ : ∃ m₀, m₀ = copy f.umem (f.data + encapSize) f.data f.len := ⟨_, rfl⟩
  -- the frame has been moved, the bytes below it are still there
  have hmoved : hProto m₀ (f.data + encapSize) = ethPIp := by
    rw [← htype]
    refine be16_congr fun i hi => ?_
    rw [hm₀, Nat.add_assoc, copy_inside _ _ _ (by omega), Nat.add_assoc]
  have hdaddr : ipDaddr m₀ (f.data + ethHlen) = f.daddr := by
    refine le32_congr fun i hi => ?_
    rw [hm₀, copy_of_ne _ _ (.inl (by simp only [ethHlen]; omega))]
  have haccept : ¬ (hProto m₀ (f.data + encapSize) ≠ ethPIp ∨ f.len < ethHlen + iphdrLen) := by
    rintro (h | h)
    · exact h hmoved
    · omega
  rw [processRxPacketOld, if_pos hiface, hdata, ← hm₀]
  simp only
  rw [← hm₀, if_neg haccept, hdaddr]
  cases mgMapGet g.ipTable (constructDestIp f.daddr) with
  | none => rfl
  | some p =>
    simp only
    rw [routeMac_eq]
    cases nextHopMac g (ipSetIndex g.ipTable p - 1) topo with
    | error e => rfl
    | ok mac => rfl

/-- The frame of opera-v1 agrees with that of opera-v2 where they must not differ. -/
theorem vethFrame_spec (iface : String) {destIndex : ℤ} {mac : List UInt8}
    (hdata : addOffsetToAddr (f.addr + encapSize) = f.data + encapSize)
    (hmac : nextHopMac g destIndex topo = .ok mac) :
    ∃ m₂, encapVeth g destIndex topo f.umem f.data f.len f.addr =
        .ok (m₂, toInt32 ((f.len + encapSize) % 4294967296)) ∧
      SentByV1 g (vethFrame g iface (copy f.umem (f.data + encapSize) f.data f.len) f.data
        (constructDestIp f.daddr) mac) m₂ f.data := by
  have hsrc := g.outEthSrc_length
  have hmac6 := nextHopMac_length hmac
  obtain ⟨m₀, hm₀⟩ : ∃ m₀, m₀ = copy f.umem (f.data + encapSize) f.data f.len := ⟨_, rfl⟩
  -- both versions write the Ethernet type and the protocol over their own start
  obtain ⟨a₁, ha₁⟩ : ∃ a, a = Bytes.set (setBe16 (store (store m₀ (f.data + 6) g.outEthSrc) f.data
    mac) (f.data + 12) ethPIp) (f.data + ethHlen + 9) (UInt8.ofNat ipprotoGre) := ⟨_, rfl⟩
  obtain ⟨a₂, ha₂⟩ : ∃ a, a = Bytes.set (setBe16 (store m₀ f.data mac)
    (f.data + 12) ethPIp) (f.data + ethHlen + 9) (UInt8.ofNat ipprotoGre) := ⟨_, rfl⟩
  -- opera-v1 has written the source address, which the other writes leave alone
  have hagree : AgreeOff (MayDiffer f.data) a₁ a₂ := by
    have hstart : AgreeOff (MayDiffer f.data) (store m₀ (f.data + 6) g.outEthSrc) m₀ :=
      (AgreeOff.refl _ m₀).store_left fun i hi => .inl ⟨by omega, by omega⟩
    rw [ha₁, ha₂]
    exact ((hstart.store _ mac).setBe16 _ _).set _ _
  have htot : ipTotLen a₁ (f.data + ethHlen) = ipTotLen a₂ (f.data + ethHlen) :=
    hagree.be16 fun i hi hS => by simp only [MayDiffer, ethHlen] at hS; omega
  have hdaddr : ipDaddr (setBe16 (store m₀ f.data mac) (f.data + 12) ethPIp) (f.data + ethHlen) =
      f.daddr := by
    simp only [ipDaddr, ethHlen]
    rw [le32_setBe16_of_ne _ _ (by omega), le32_store_of_ne _ (by omega)]
    refine le32_congr fun i hi => ?_
    rw [hm₀, copy_of_ne _ _ (.inl (by simp only [encapSize, ethHlen, iphdrLen, greHdrLen]; omega))]
    rfl
  rw [encapVeth, hdata, hmac, ← hm₀]
  simp only
  rw [← ha₂, hdaddr]
  refine ⟨_, rfl, ?_, ?_⟩
  · rw [vethFrame, ← ha₁, htot]
    have hwritten := ((hagree.setBe16 (f.data + ethHlen + 2)
      (ethHlen + greHdrLen + ipTotLen a₂ (f.data + ethHlen))).setLe32 (f.data + ethHlen + 16)
      (constructDestIp f.daddr)).setBe16 (f.data + ethHlen + iphdrLen + 2) ethPTeb
    have hflags : ∀ i < 2, MayDiffer f.data (f.data + ethHlen + iphdrLen + i) := fun i hi =>
      .inr ⟨by simp only [ethHlen, iphdrLen]; omega, by simp only [ethHlen, iphdrLen]; omega⟩
    exact (setGreFlags_left hwritten iface (hflags 0 (by omega)) (hflags 1 (by omega))).setLe16 _ _
  · intro i hi
    rw [vethFrame, ← ha₁]
    simp only [ethHlen, iphdrLen]
    rw [setLe16_of_ne _ _ (by omega), setGreFlags_of_ne _ _ (by omega),
      setBe16_of_ne _ _ (by omega), setLe32_of_ne _ _ (by omega), setBe16_of_ne _ _ (by omega), ha₁]
    simp only [ethHlen]
    rw [set_of_ne _ _ (by omega), setBe16_of_ne _ _ (by omega), store_of_ne _ (by omega)]
    exact store_inside _ _ hi

theorem SentByV1.agree_iff {m m₁ m₂ : Mem} {data n : ℕ} (h : SentByV1 g m₁ m₂ data)
    (hkept : ∀ i < 6, m₂ (data + (6 + i)) = m (data + (6 + i))) (hn : 12 ≤ n) :
    (∀ i < n, i ≠ 34 → i ≠ 35 → m₁ (data + i) = m₂ (data + i)) ↔
      load m (data + 6) 6 = g.outEthSrc := by
  have hsrc := g.outEthSrc_length
  constructor
  · intro hbytes
    apply List.ext_getElem
    · rw [load_length, hsrc]
    · intro i h1 h2
      rw [getElem_load, ← h.source i h2, Nat.add_assoc, ← hkept i (by omega)]
      exact (hbytes (6 + i) (by omega) (by omega) (by omega)).symm
  · intro hload i _ h34 h35
    -- the source address byte by byte, the rest by agreement
    by_cases hin : 6 ≤ i ∧ i < 12
    · obtain ⟨j, rfl⟩ := Nat.exists_eq_add_of_le hin.1
      have hj : j < g.outEthSrc.length := by omega
      have hbyte : m (data + 6 + j) = g.outEthSrc[j] := by
        simp only [← hload, getElem_load]
      rw [hkept j (by omega), ← Nat.add_assoc, h.source j hj, hbyte]
    · exact h.agree _ fun hS => by simp only [MayDiffer] at hS; omega

/-- Frames of the two versions agree exactly when the source address is the one that opera-v1
writes and opera-v2 sends the frame too. -/
theorem sameWire_veth_iff (hiface : prefixOf outerVethPrefix iface) (hpass : f.PassesVeth)
    (haddr : f.addr + encapSize < 281474976710656) (hmax : f.len + encapSize < 2147483648) :
    SameWire f.data (opera1Veth g iface v topo f ret) (opera2Veth g iface v topo f) ↔
      (f.Routed g topo → f.addr ≠ 0 ∧ load f.umem (f.data + 6) 6 = g.outEthSrc) := by
  have hoff : encapSize = 40 := rfl
  have hsrc := g.outEthSrc_length
  have hdata : addOffsetToAddr (f.addr + encapSize) = f.data + encapSize := by
    simp only [Frame.data, addOffsetToAddr, hoff] at haddr ⊢
    omega
  have hnew : toInt32 ((f.len + encapSize) % 4294967296) = (f.len + encapSize : ℕ) := by
    rw [Nat.mod_eq_of_lt (by omega), toInt32, if_pos hmax]
  rw [opera1Veth, opera2Veth, processRxPacketOld_veth hiface hpass hdata, getDestinationQueueIndex,
    if_pos hiface, show ipDaddr f.umem (f.data + ethHlen) = f.daddr from rfl]
  cases hp : mgMapGet g.ipTable (constructDestIp f.daddr) with
  | none =>
    refine iff_of_true trivial ?_
    rintro ⟨p, mac, hp', -⟩
    rw [hp] at hp'
    cases hp'
  | some p =>
    have hrouted : f.Routed g topo ↔ (0 ≤ ipSetIndex g.ipTable p - 1 ∧
        ipSetIndex g.ipTable p - 1 < numOfPerDestQueues) ∧
        ∃ mac, nextHopMac g (ipSetIndex g.ipTable p - 1) topo = .ok mac := by
      constructor
      · rintro ⟨p', mac, hp', h1, h32, hmac⟩
        rw [hp] at hp'
        cases hp'
        exact ⟨by omega, mac, hmac⟩
      · rintro ⟨hq, mac, hmac⟩
        exact ⟨p, mac, hp, by omega, by omega, hmac⟩
    rw [hrouted]
    have hsome : ¬ toInt32 ((f.len + encapSize) % 4294967296) = 0 := by
      rw [hnew]
      omega
    simp only [slotOf_local]
    by_cases hq : 0 ≤ ipSetIndex g.ipTable p - 1 ∧ ipSetIndex g.ipTable p - 1 < numOfPerDestQueues
    · cases hmac : nextHopMac g (ipSetIndex g.ipTable p - 1) topo with
      | error e =>
        -- the lookup fails in both, unless opera-v2 has given the frame back
        refine iff_of_true ?_ ?_
        · by_cases hzero : f.addr = 0
          · simp only [if_pos hzero]
            trivial
          · simp only [if_neg hzero, if_pos hq, Int.toNat_of_nonneg hq.1, encapVeth, hmac]
            trivial
        · rintro ⟨-, mac, hmac'⟩
          cases hmac'
      | ok mac =>
        have hroute : (0 ≤ ipSetIndex g.ipTable p - 1 ∧
            ipSetIndex g.ipTable p - 1 < numOfPerDestQueues) ∧
            ∃ mac', (Except.ok mac : Except Fault (List UInt8)) = .ok mac' := ⟨hq, mac, rfl⟩
        simp only [if_pos hq, if_neg hsome]
        by_cases hzero : f.addr = 0
        · simp only [if_pos hzero]
          exact iff_of_false id fun h => (h hroute).1 hzero
        · obtain ⟨m₂, henc, hsent⟩ := vethFrame_spec iface hdata hmac
          have hkept : ∀ i < 6, m₂ (f.data + (6 + i)) = f.umem (f.data + (6 + i)) := fun i hi =>
            encapVeth_kept hdata henc (by omega)
          simp only [if_neg hzero, Int.toNat_of_nonneg hq.1, henc, SameWire, hnew,
            Int.toNat_natCast, true_and]
          rw [hsent.agree_iff hkept (by omega)]
          exact ⟨fun h _ => ⟨hzero, h⟩, fun h => (h hroute).2⟩
    · -- without a queue neither version sends
      refine iff_of_true ?_ fun h => absurd h.1 hq
      cases nextHopMac g (ipSetIndex g.ipTable p - 1) topo with
      | error e =>
        simp only [if_neg hq]
        by_cases hzero : f.addr = 0
        · simp only [if_pos hzero]
          trivial
        · simp only [if_neg hzero]
          trivial
      | ok mac =>
        simp only [if_neg hq, if_neg hsome]
        by_cases hzero : f.addr = 0
        · simp only [if_pos hzero]
          trivial
        · simp only [if_neg hzero]
          trivial

/-! ### Frames from the NIC -/

/-- The call of opera-v1 on a frame for another node writes what `encap_indirection` does. -/
theorem processRxPacketOld_forward (hiface : ¬ prefixOf outerVethPrefix g.nicIface)
    (hchk : f.passesChecks) (hne : f.outerDaddr ≠ g.srcIp) :
    processRxPacketOld g g.nicIface topo f.umem f.data f.len f.addr ret =
      match mgMapGet g.ipTable (constructDestIp f.innerDaddr) with
      | none => .error .nullDeref
      | some p =>
        match encapIndirection g (ipSetIndex g.ipTable p - 1) topo f.umem f.data with
        | .error e => .error e
        | .ok m =>
          .ok (m, { ret with ringBufIndex := ipSetIndex g.ipTable p - 1, newLen := 1 }) := by
  have hdaddr : ipDaddr (setLe16 f.umem (f.data + ethHlen + iphdrLen + 4)
      (greHopcount f.umem (f.data + ethHlen + iphdrLen) + 1)) (f.data + innerIp) = f.innerDaddr :=
    le32_setLe16_of_ne _ _ (.inr (by
      simp only [innerIp, innerEth, ethHlen, iphdrLen, greHdrLen]
      omega))
  have hnot : ¬ ¬ passesChecks f.umem f.data := not_not.2 hchk
  have hsrc : g.srcIp ≠ ipDaddr f.umem (f.data + ethHlen) := Ne.symm hne
  rw [processRxPacketOld, if_neg hiface, if_pos rfl, if_neg hnot, if_pos hsrc,
    show ipDaddr f.umem (f.data + innerIp) = f.innerDaddr from rfl]
  simp only
  cases mgMapGet g.ipTable (constructDestIp f.innerDaddr) with
  | none => rfl
  | some p =>
    simp only [routeMac_eq, encapIndirection, hdaddr]
    cases nextHopMac g (ipSetIndex g.ipTable p - 1) topo with
    | error e => rfl
    | ok mac => rfl

/-- Both versions redirect a frame by the same writes. -/
theorem sameWire_forward (hiface : ¬ prefixOf outerVethPrefix iface) (hnic : iface = g.nicIface)
    (hchk : f.passesChecks) (hne : f.outerDaddr ≠ g.srcIp) :
    SameWire f.data (opera1Forward g iface v topo f ret) (opera2Forward g iface v topo f ret) := by
  subst hnic
  rw [opera1Forward, opera2Forward, processRxPacketOld_forward hiface hchk hne]
  cases hp : mgMapGet g.ipTable (constructDestIp f.innerDaddr) with
  | none =>
    rw [getQueueIndexForNicRx_frame, if_neg (not_not.2 hchk), if_pos (Ne.symm hne)]
    simp only [hp]
    trivial
  | some p =>
    rw [getQueueIndexForNicRx_forward _ _ _ hchk (Ne.symm hne) hp]
    simp only [slotOf_nonLocal]
    by_cases hq : 0 ≤ ipSetIndex g.ipTable p - 1 ∧ ipSetIndex g.ipTable p - 1 < numOfPerDestQueues
    · rw [if_pos hq]
      simp only [Int.toNat_of_nonneg hq.1]
      cases encapIndirection g (ipSetIndex g.ipTable p - 1) topo f.umem f.data with
      | error e => trivial
      | ok m =>
        simp only [if_pos hq]
        exact ⟨rfl, rfl, fun i _ _ _ => rfl⟩
    · rw [if_neg hq]
      cases encapIndirection g (ipSetIndex g.ipTable p - 1) topo f.umem f.data with
      | error e => trivial
      | ok m =>
        simp only [if_neg hq]
        trivial

/-- The call of opera-v1 on a frame for this node. -/
theorem processRxPacketOld_local (hiface : ¬ prefixOf outerVethPrefix g.nicIface)
    (hchk : f.passesChecks) (heq : f.outerDaddr = g.srcIp) :
    processRxPacketOld g g.nicIface topo f.umem f.data f.len f.addr ret =
      if innerEth ≤ f.len ∧ f.len < innerEth + 2147483648 then
        .ok (copy f.umem f.addr (f.addr + innerEth) (f.len - innerEth),
          { ret with
            whichVeth := greFlags f.umem (f.data + ethHlen + iphdrLen)
            newLen := (f.len - innerEth : ℕ) })
      else .error .badLength := by
  have hnot : ¬ ¬ passesChecks f.umem f.data := not_not.2 hchk
  have hsrc : ¬ g.srcIp ≠ ipDaddr f.umem (f.data + ethHlen) := not_not.2 heq.symm
  rw [processRxPacketOld, if_neg hiface, if_pos rfl, if_neg hnot, if_neg hsrc]
  by_cases hlen : innerEth ≤ f.len ∧ f.len < innerEth + 2147483648
  · rw [if_pos hlen]
    simp only [newLen_eq hlen.1 hlen.2]
    rw [if_neg (by omega), Int.toNat_natCast]
  · rw [if_neg hlen]
    have hneg := mt (newLen_nonneg_iff f).1 hlen
    simp only
    rw [if_pos (by omega)]

/-- Both versions leave the same bytes of a frame for this node. -/
theorem opera_deliver_eq (hiface : ¬ prefixOf outerVethPrefix iface) (hnic : iface = g.nicIface)
    (hchk : f.passesChecks) (heq : f.outerDaddr = g.srcIp) :
    opera1Deliver g iface topo f ret = opera2Deliver g iface f ret := by
  subst hnic
  rw [opera1Deliver, opera2Deliver, processRxPacketOld_local hiface hchk heq,
    getQueueIndexForNicRx_local hchk heq]
  by_cases hlen : innerEth ≤ f.len ∧ f.len < innerEth + 2147483648
  · rw [if_pos hlen, if_pos hlen]
  · rw [if_neg hlen, if_neg hlen]

/-- **opera-v2 puts on the wire what opera-v1 did exactly for the frames that need no new source
address and do not lie at address 0**: `encap_veth` leaves the address of the namespace in the outer
header, and `thread_func_veth` gives a frame at address 0 back. -/
theorem sameAsV1_iff (g : Globals) (iface : String) (v topo : ℕ) (f : Frame) (ret : ReturnProcessRx)
    (haddr : f.addr + encapSize < 281474976710656) (hmax : f.len + encapSize < 2147483648) :
    SameAsV1 g iface v topo f ret ↔ (prefixOf outerVethPrefix iface → f.PassesVeth →
      f.Routed g topo → f.addr ≠ 0 ∧ load f.umem (f.data + 6) 6 = g.outEthSrc) := by
  constructor
  · intro h hiface hpass
    exact (sameWire_veth_iff hiface hpass haddr hmax).1 (h.veth hiface hpass)
  · intro h
    exact ⟨fun hiface hpass => (sameWire_veth_iff hiface hpass haddr hmax).2 (h hiface hpass),
      sameWire_forward, opera_deliver_eq⟩

/-! ### One frame in both versions -/

/-- The frame of a namespace whose interface has the address 02:00:00:00:00:01 of the NIC. -/
def ownSourceFrame : Frame :=
  { smallVethFrame with
    umem := store (fun _ => 0) 4096 [1, 2, 3, 4, 5, 6, 2, 0, 0, 0, 0, 1, 8, 0,
      69, 0, 0, 20, 0, 0, 0, 0, 64, 6, 0, 0, 10, 0, 1, 2, 10, 0, 0, 7] }

theorem sameAsV1_ownSource :
    SameAsV1 (smallGlobals 33554442) "vethout2" 2 1 ownSourceFrame ⟨0, 0, 0⟩ :=
  (sameAsV1_iff (smallGlobals 33554442) "vethout2" 2 1 ownSourceFrame ⟨0, 0, 0⟩ (by decide)
    (by decide)).2 fun _ _ _ => by decide

/-- Byte 6 of the frame on the wire is that of the NIC's address in opera-v1 and that of the
namespace's in opera-v2. -/
theorem source_address_kept :
    (∃ x y, opera1Veth (smallGlobals 33554442) "vethout2" 2 1 smallVethFrame ⟨0, 0, 0⟩ =
        .ok (some x) ∧
      opera2Veth (smallGlobals 33554442) "vethout2" 2 1 smallVethFrame = .ok (some y) ∧
      x.umem (4096 + 6) = 2 ∧ y.umem (4096 + 6) = 7) ∧
    ¬ SameAsV1 (smallGlobals 33554442) "vethout2" 2 1 smallVethFrame ⟨0, 0, 0⟩ := by
  obtain ⟨x, y, hx, hy, hx6, hy6, hlen⟩ : ∃ x y,
      opera1Veth (smallGlobals 33554442) "vethout2" 2 1 smallVethFrame ⟨0, 0, 0⟩ =
        .ok (some x) ∧
      opera2Veth (smallGlobals 33554442) "vethout2" 2 1 smallVethFrame = .ok (some y) ∧
      x.umem (4096 + 6) = 2 ∧ y.umem (4096 + 6) = 7 ∧ 6 < x.len.toNat :=
    ⟨_, _, rfl, rfl, by decide, by decide, by decide⟩
  refine ⟨⟨x, y, hx, hy, hx6, hy6⟩, fun h => ?_⟩
  have hwire := h.veth rfl ⟨by decide, by decide⟩
  rw [hx, hy] at hwire
  have hbyte : x.umem (4096 + 6) = y.umem (4096 + 6) := hwire.2.2 6 hlen (by decide) (by decide)
  rw [hx6, hy6] at hbyte
  exact absurd hbyte (by decide)

end Versions

end RotorXdp
