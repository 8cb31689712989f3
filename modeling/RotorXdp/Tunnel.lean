import RotorXdp.PacketFunctions

/-!
# The tunnel

A frame from a namespace is encapsulated once, forwarded by any number of nodes and decapsulated at
the node that owns the outer destination address. Each node holds the frame in its own UMEM at its
own address, with arbitrary bytes around it.

* `encapVeth_spec`, `encapIndirection_spec`, `deliver_spec`: what one call does to a frame and that
  it leaves the bytes around the frame alone;
* `TunnelAt`: the invariant of the frame between two nodes;
* `tunnel_transparent`: the whole way.
-/

namespace RotorXdp

open Bytes

/-! ### One call -/

section Calls

variable {m : Mem} {data len addr : ℕ} {g : Globals} {destIndex : ℤ} {topo : ℕ}
  {mac : List UInt8}

theorem nextHopMac_length (h : nextHopMac g destIndex topo = .ok mac) : mac.length = 6 := by
  unfold nextHopMac at h
  split at h
  · exact absurd h (by simp)
  · split at h
    · exact absurd h (by simp)
    · simp only [Except.ok.injEq] at h
      rw [← h, macAddrBytes, load_length]

/-- What `encap_veth` writes: the headers below the frame, which it moves up. -/
structure Encapsulated (m m' : Mem) (data len : ℕ) (mac : List UInt8) : Prop where
  outside : ∀ a, a < data ∨ data + len + encapSize ≤ a → m' a = m a
  inner : ∀ i < len, m' (data + encapSize + i) = m (data + i)
  hDest : ∀ i (h : i < mac.length), m' (data + i) = mac[i]
  ethertype : hProto m' data = ethPIp
  protocol : ipProtocol m' (data + ethHlen) = ipprotoGre
  totLen : ipTotLen m' (data + ethHlen) = (20 + ipTotLen m (data + ethHlen)) % 65536
  daddr : ipDaddr m' (data + ethHlen) = constructDestIp (ipDaddr m (data + ethHlen))
  teb : greProto m' (data + ethHlen + iphdrLen) = ethPTeb
  hopcount : greHopcount m' (data + ethHlen + iphdrLen) = 0

theorem constructDestIp_lt (d : ℕ) : constructDestIp d < 4294967296 := by
  unfold constructDestIp; omega

theorem encapVeth_spec (m : Mem) (len : ℕ)
    (hdata : addOffsetToAddr (addr + encapSize) = data + encapSize)
    (hlook : nextHopMac g destIndex topo = .ok mac) :
    ∃ m', encapVeth g destIndex topo m data len addr =
        .ok (m', toInt32 ((len + encapSize) % 4294967296)) ∧
      Encapsulated m m' data len mac := by
  have hmac := nextHopMac_length hlook
  have hoff : encapSize = 40 := rfl
  rw [encapVeth, hdata, hlook]
  obtain ⟨m₁, hm₁⟩ : ∃ m₁, m₁ = copy m (data + encapSize) data len := ⟨_, rfl⟩
  have hcopy : ∀ a, a < data + 40 → m₁ a = m a := fun a ha => by
    rw [hm₁, copy_of_ne _ _ (.inl (by omega))]
  rw [← hm₁]
  refine ⟨_, rfl, ?_⟩
  simp only [ethHlen, iphdrLen, greHdrLen]
  constructor
  · intro a ha
    rw [hoff] at ha
    simp (disch := omega) only [setLe16_of_ne, setBe16_of_ne, setLe32_of_ne, set_of_ne,
      store_of_ne]
    rw [hm₁, copy_of_ne _ _ (by omega)]
  · intro i hi
    rw [hoff]
    simp (disch := omega) only [setLe16_of_ne, setBe16_of_ne, setLe32_of_ne, set_of_ne,
      store_of_ne]
    rw [hm₁, hoff, copy_inside _ _ _ hi]
  · intro i hi
    simp (disch := omega) only [setLe16_of_ne, setBe16_of_ne, setLe32_of_ne, set_of_ne]
    exact store_inside _ _ hi
  · show be16 _ (data + 12) = _
    simp (disch := omega) only [be16_setLe16_of_ne, be16_setBe16_of_ne, be16_setLe32_of_ne,
      be16_set_of_ne, be16_setBe16]
    rfl
  · show ipProtocol _ (data + 14) = _
    rw [ipProtocol, setLe16_of_ne _ _ (by omega), setBe16_of_ne _ _ (by omega),
      setLe32_of_ne _ _ (by omega), setBe16_of_ne _ _ (by omega), set_self]
    rfl
  · show be16 _ (data + 14 + 2) = (20 + be16 m (data + 14 + 2)) % 65536
    simp (disch := omega) only [be16_setLe16_of_ne, be16_setBe16_of_ne, be16_setLe32_of_ne,
      be16_setBe16, ipTotLen, be16_set_of_ne, be16_store_of_ne]
    rw [be16_congr fun i hi => hcopy _ (by omega)]
  · show le32 _ (data + 14 + 16) = constructDestIp (le32 m (data + 14 + 16))
    simp (disch := omega) only [le32_setLe16_of_ne, le32_setBe16_of_ne, le32_setLe32, ipDaddr,
      le32_store_of_ne]
    rw [Nat.mod_eq_of_lt (constructDestIp_lt _), le32_congr fun i hi => hcopy _ (by omega)]
  · show be16 _ (data + 14 + 20 + 2) = _
    rw [be16_setLe16_of_ne _ _ (by omega), be16_setBe16]
    rfl
  · exact le16_setLe16 ..

/-- What `encap_indirection` writes. -/
structure Redirected (g : Globals) (m m' : Mem) (data : ℕ) (mac : List UInt8) : Prop where
  outside : ∀ a, a < data ∨ data + encapSize ≤ a → m' a = m a
  hDest : ∀ i (h : i < mac.length), m' (data + i) = mac[i]
  hSource : ∀ i (h : i < g.outEthSrc.length), m' (data + 6 + i) = g.outEthSrc[i]
  ethertype : hProto m' data = hProto m data
  protocol : ipProtocol m' (data + ethHlen) = ipProtocol m (data + ethHlen)
  totLen : ipTotLen m' (data + ethHlen) = ipTotLen m (data + ethHlen)
  daddr : ipDaddr m' (data + ethHlen) = constructDestIp (ipDaddr m (data + innerIp))
  teb : greProto m' (data + ethHlen + iphdrLen) = greProto m (data + ethHlen + iphdrLen)
  hopcount : greHopcount m' (data + ethHlen + iphdrLen) =
    (greHopcount m (data + ethHlen + iphdrLen) + 1) % 65536

theorem encapIndirection_spec (m : Mem) (data : ℕ)
    (hlook : nextHopMac g destIndex topo = .ok mac) :
    ∃ m', encapIndirection g destIndex topo m data = .ok m' ∧ Redirected g m m' data mac := by
  have hmac := nextHopMac_length hlook
  have hsrc := g.outEthSrc_length
  have hoff : encapSize = 40 := rfl
  rw [encapIndirection, hlook]
  refine ⟨_, rfl, ?_⟩
  simp only [ethHlen, iphdrLen, greHdrLen, innerIp, innerEth]
  constructor
  · intro a ha
    rw [hoff] at ha
    simp (disch := omega) only [setLe16_of_ne, setLe32_of_ne, store_of_ne]
  · intro i hi
    simp (disch := omega) only [setLe32_of_ne, store_of_ne]
    exact store_inside _ _ hi
  · intro i hi
    simp (disch := omega) only [setLe32_of_ne]
    exact store_inside _ _ hi
  · show be16 _ (data + 12) = be16 m (data + 12)
    simp (disch := omega) only [be16_setLe16_of_ne, be16_setLe32_of_ne, be16_store_of_ne]
  · show ipProtocol _ (data + 14) = ipProtocol m (data + 14)
    rw [ipProtocol, setLe32_of_ne _ _ (by omega), store_of_ne _ (by omega),
      store_of_ne _ (by omega), setLe16_of_ne _ _ (by omega), ipProtocol]
  · show be16 _ (data + 14 + 2) = be16 m (data + 14 + 2)
    simp (disch := omega) only [be16_setLe16_of_ne, be16_setLe32_of_ne, be16_store_of_ne]
  · show le32 _ (data + 14 + 16) = constructDestIp (le32 m (data + 54 + 16))
    rw [le32_setLe32, Nat.mod_eq_of_lt (constructDestIp_lt _), ipDaddr,
      le32_setLe16_of_ne _ _ (by omega)]
  · show be16 _ (data + 14 + 20 + 2) = be16 m (data + 14 + 20 + 2)
    simp (disch := omega) only [be16_setLe16_of_ne, be16_setLe32_of_ne, be16_store_of_ne]
  · show le16 _ (data + 14 + 20 + 4) = (le16 m (data + 14 + 20 + 4) + 1) % 65536
    simp (disch := omega) only [le16_setLe32_of_ne, le16_store_of_ne, le16_setLe16, greHopcount]

/-- The bytes below the frame that `encap_veth` leaves as they were. -/
theorem encapVeth_kept {m' : Mem} {newLen : ℤ}
    (hdata : addOffsetToAddr (addr + encapSize) = data + encapSize)
    (h : encapVeth g destIndex topo m data len addr = .ok (m', newLen)) {i : ℕ}
    (hi : 6 ≤ i ∧ i < 12 ∨ 14 ≤ i ∧ i < 16 ∨ 18 ≤ i ∧ i < 23 ∨ 24 ≤ i ∧ i < 30 ∨ 34 ≤ i ∧ i < 36) :
    m' (data + i) = m (data + i) := by
  have hoff : encapSize = 40 := rfl
  rw [encapVeth, hdata] at h
  split at h
  · cases h
  · next mac hmac =>
    have hmac6 := nextHopMac_length hmac
    cases h
    simp only [ethHlen, iphdrLen, greHdrLen]
    simp (disch := omega) only [setLe16_of_ne, setBe16_of_ne, setLe32_of_ne, set_of_ne,
      store_of_ne]
    exact copy_of_ne _ _ (.inl (by omega))

/-- `encap_indirection` writes the Ethernet addresses, the outer destination and the hop count. -/
theorem encapIndirection_kept {m' : Mem} (h : encapIndirection g destIndex topo m data = .ok m')
    {i : ℕ} (hi : 12 ≤ i ∧ i < 30 ∨ 34 ≤ i ∧ i < 38 ∨ 40 ≤ i) : m' (data + i) = m (data + i) := by
  have hsrc := g.outEthSrc_length
  rw [encapIndirection] at h
  simp only at h
  split at h
  · cases h
  · next mac hmac =>
    have hmac6 := nextHopMac_length hmac
    cases h
    simp only [ethHlen, iphdrLen]
    simp (disch := omega) only [setLe16_of_ne, setLe32_of_ne, store_of_ne]

/-- The MAC address at the start of the frame is the one that was looked up. -/
theorem encapVeth_mac {m' : Mem} {newLen : ℤ}
    (h : encapVeth g destIndex topo m data len addr = .ok (m', newLen)) :
    nextHopMac g destIndex topo = .ok (load m' data 6) := by
  unfold encapVeth at h
  simp only at h
  split at h
  · exact absurd h (by simp)
  · rename_i mac hmac
    have hlen := nextHopMac_length hmac
    rw [Except.ok.injEq, Prod.mk.injEq] at h
    have hload : load m' data mac.length = mac := load_eq fun i hi => by
      rw [← h.1]
      simp only [ethHlen, iphdrLen]
      simp (disch := omega) only [setLe16_of_ne, setBe16_of_ne, setLe32_of_ne, set_of_ne]
      exact store_inside _ _ hi
    rw [hlen] at hload
    rw [hmac, hload]

theorem encapIndirection_mac {m' : Mem} (h : encapIndirection g destIndex topo m data = .ok m') :
    nextHopMac g destIndex topo = .ok (load m' data 6) := by
  unfold encapIndirection at h
  simp only at h
  split at h
  · exact absurd h (by simp)
  · rename_i mac hmac
    have hlen := nextHopMac_length hmac
    have hsrc := g.outEthSrc_length
    rw [Except.ok.injEq] at h
    have hload : load m' data mac.length = mac := load_eq fun i hi => by
      rw [← h]
      simp only [ethHlen, iphdrLen]
      simp (disch := omega) only [setLe32_of_ne, store_of_ne]
      exact store_inside _ _ hi
    rw [hlen] at hload
    rw [hmac, hload]

/-- A frame that passes the checks and is not for this node is to be forwarded. -/
theorem getQueueIndexForNicRx_forward (len addr : ℕ) (ret : ReturnProcessRx) {p : ℕ}
    (hchk : passesChecks m data) (hne : g.srcIp ≠ ipDaddr m (data + ethHlen))
    (hp : mgMapGet g.ipTable (constructDestIp (ipDaddr m (data + innerIp))) = some p) :
    getQueueIndexForNicRx g g.nicIface m data len addr ret =
      .ok (m, { ret with ringBufIndex := ipSetIndex g.ipTable p - 1, newLen := 1 }) := by
  rw [getQueueIndexForNicRx, if_pos rfl, if_neg (not_not.2 hchk), if_pos hne, hp]

/-- The new length of a frame to be delivered, as the `int` it is computed in. -/
theorem newLen_eq (hmin : innerEth ≤ len) (hmax : len < innerEth + 2147483648) :
    toInt32 ((len + 4294967296 - innerEth) % 4294967296) = (len - innerEth : ℕ) := by
  have hoff : innerEth = 40 := rfl
  rw [hoff] at hmin hmax ⊢
  have : (len + 4294967296 - 40) % 4294967296 = len - 40 := by omega
  rw [this, toInt32, if_pos (by omega)]

/-- A frame that passes the checks and is for this node is moved down over its headers. -/
theorem getQueueIndexForNicRx_deliver (addr : ℕ) (ret : ReturnProcessRx)
    (hchk : passesChecks m data)
    (heq : g.srcIp = ipDaddr m (data + ethHlen)) (hmin : innerEth ≤ len)
    (hmax : len < 2147483648) :
    getQueueIndexForNicRx g g.nicIface m data len addr ret =
      .ok (copy m addr (addr + innerEth) (len - innerEth),
        { ret with
          whichVeth := fourthOctet (ipDaddr m (data + innerIp)) - 2
          newLen := (len - innerEth : ℕ) }) := by
  rw [getQueueIndexForNicRx, if_pos rfl, if_neg (not_not.2 hchk), if_neg (not_not.2 heq)]
  simp only [newLen_eq hmin (Nat.lt_add_left innerEth hmax)]
  rw [if_neg (by omega), Int.toNat_natCast]

end Calls

/-! ### From node to node -/

/-- An IPv4 frame from a namespace, short enough to be held in a UMEM chunk with its headers. -/
structure EthFrame where
  bytes : List UInt8
  min_len : ethHlen + iphdrLen ≤ bytes.length
  max_len : bytes.length + encapSize < 2147483648
  ipv4 : hProto (store (fun _ => 0) 0 bytes) 0 = ethPIp

/-- The address of the destination's node: the frame's destination with last octet 1. -/
def EthFrame.dest (F : EthFrame) : ℕ :=
  constructDestIp (ipDaddr (store (fun _ => 0) 0 F.bytes) ethHlen)

/-- One node as the frame meets it: its tables and slot, the queue the frame is in, and where and
among which bytes its UMEM holds the frame. UMEM offsets in use stay below 2^48. -/
structure Hop where
  g : Globals
  topo : ℕ
  destIndex : ℤ
  umem : Mem
  addr : ℕ
  addr_lt : addr + encapSize < 281474976710656
  ret : ReturnProcessRx

/-- The UMEM of the node once it has received the frame. -/
def Hop.receive (h : Hop) (bs : List UInt8) : Mem := store h.umem (addOffsetToAddr h.addr) bs

/-- What a node leaves behind: its result record, its UMEM, and the frame it sends. -/
structure Passage where
  ret : ReturnProcessRx
  umem : Mem
  sent : List UInt8

/-- `encap_veth` at the first node; the frame is sent with the length it returns. -/
def Hop.originate (h : Hop) (bs : List UInt8) : Except Fault Passage :=
  let data := addOffsetToAddr h.addr
  match encapVeth h.g h.destIndex h.topo (h.receive bs) data bs.length h.addr with
  | .error e => .error e
  | .ok (m, newLen) => .ok ⟨h.ret, m, load m data newLen.toNat⟩

/-- `get_queue_index_for_nic_rx` and `encap_indirection` at a node on the way; the frame is sent
with the length it was received with. -/
def Hop.forward (h : Hop) (bs : List UInt8) : Except Fault Passage :=
  let data := addOffsetToAddr h.addr
  match getQueueIndexForNicRx h.g h.g.nicIface (h.receive bs) data bs.length h.addr h.ret with
  | .error e => .error e
  | .ok (m, ret) =>
    match encapIndirection h.g h.destIndex h.topo m data with
    | .error e => .error e
    | .ok m => .ok ⟨ret, m, load m data bs.length⟩

/-- The nodes on the way, in turn. -/
def forwardAll : List Hop → List UInt8 → Except Fault (List Passage)
  | [], _ => .ok []
  | h :: hs, bs =>
    match h.forward bs with
    | .error e => .error e
    | .ok p =>
      match forwardAll hs p.sent with
      | .error e => .error e
      | .ok ps => .ok (p :: ps)

/-- `get_queue_index_for_nic_rx` at the last node, where the frame is left at its address. -/
def Hop.deliver (h : Hop) (bs : List UInt8) : Except Fault Passage :=
  let data := addOffsetToAddr h.addr
  match getQueueIndexForNicRx h.g h.g.nicIface (h.receive bs) data bs.length h.addr h.ret with
  | .error e => .error e
  | .ok (m, ret) => .ok ⟨ret, m, load m h.addr ret.newLen.toNat⟩

theorem Hop.data_eq (h : Hop) : addOffsetToAddr h.addr = h.addr := by
  have := h.addr_lt; unfold addOffsetToAddr; omega

theorem Hop.inner_eq (h : Hop) :
    addOffsetToAddr (h.addr + encapSize) = h.addr + encapSize := by
  have := h.addr_lt; unfold addOffsetToAddr; omega

/-! ### The invariant on the way -/

/-- The tunnelled form of `F` after `k` hops, at `data`. -/
structure TunnelAt (F : EthFrame) (k : ℕ) (m : Mem) (data : ℕ) : Prop where
  ethertype : hProto m data = ethPIp
  protocol : ipProtocol m (data + ethHlen) = ipprotoGre
  teb : greProto m (data + ethHlen + iphdrLen) = ethPTeb
  inner : ∀ i (h : i < F.bytes.length), m (data + encapSize + i) = F.bytes[i]
  daddr : ipDaddr m (data + ethHlen) = F.dest
  hopcount : greHopcount m (data + ethHlen + iphdrLen) = k % 65536

/-- The same for the bytes on the wire. -/
def Tunnelled (F : EthFrame) (k : ℕ) (bs : List UInt8) : Prop :=
  bs.length = F.bytes.length + encapSize ∧ TunnelAt F k (store (fun _ => 0) 0 bs) 0

section Invariant

variable {F : EthFrame} {k : ℕ} {m m' : Mem} {data data' : ℕ} {bs : List UInt8}

/-- The tunnelled form depends on its own bytes only, and neither on the Ethernet addresses nor on
the GRE flags. -/
theorem TunnelAt.congr_off (h : TunnelAt F k m data)
    (heq : ∀ i < F.bytes.length + encapSize, 12 ≤ i → i < 34 ∨ 36 ≤ i →
      m' (data' + i) = m (data + i)) :
    TunnelAt F k m' data' := by
  have hmin := F.min_len
  have hoff : encapSize = 40 := rfl
  have hlen : ethHlen + iphdrLen = 34 := rfl
  have hat : ∀ j, j < 40 → 12 ≤ j → j < 34 ∨ 36 ≤ j → m' (data' + j) = m (data + j) :=
    fun j hj => heq j (by omega)
  constructor
  · rw [← h.ethertype]
    exact be16_congr fun i hi => by
      rw [Nat.add_assoc, Nat.add_assoc, hat _ (by omega) (by omega) (by omega)]
  · rw [← h.protocol]
    exact congrArg UInt8.toNat (hat 23 (by omega) (by omega) (by omega))
  · rw [← h.teb]
    exact be16_congr fun i hi => by
      show m' (data' + 14 + 20 + 2 + i) = m (data + 14 + 20 + 2 + i)
      simpa only [Nat.add_assoc] using
        hat (14 + (20 + (2 + i))) (by omega) (by omega) (by omega)
  · intro i hi
    rw [← h.inner i hi, Nat.add_assoc, Nat.add_assoc]
    exact heq _ (by omega) (by omega) (by omega)
  · rw [← h.daddr]
    exact le32_congr fun i hi => by
      show m' (data' + 14 + 16 + i) = m (data + 14 + 16 + i)
      simpa only [Nat.add_assoc] using hat (14 + (16 + i)) (by omega) (by omega) (by omega)
  · rw [← h.hopcount]
    exact le16_congr fun i hi => by
      show m' (data' + 14 + 20 + 4 + i) = m (data + 14 + 20 + 4 + i)
      simpa only [Nat.add_assoc] using
        hat (14 + (20 + (4 + i))) (by omega) (by omega) (by omega)

theorem TunnelAt.congr (h : TunnelAt F k m data)
    (heq : ∀ i < F.bytes.length + encapSize, m' (data' + i) = m (data + i)) :
    TunnelAt F k m' data' :=
  h.congr_off fun i hi _ _ => heq i hi

/-- A field of the inner frame is the field of `F`. -/
theorem TunnelAt.inner_eq (h : TunnelAt F k m data) {o i : ℕ} (hi : o + i < F.bytes.length) :
    m (data + encapSize + o + i) = store (fun _ => 0) 0 F.bytes (o + i) := by
  have hz := store_inside (fun _ => 0) 0 hi
  rw [Nat.zero_add] at hz
  rw [hz, Nat.add_assoc _ o i, h.inner _ hi]

theorem TunnelAt.passesChecks (h : TunnelAt F k m data) : passesChecks m data := by
  have hmin := F.min_len
  have hlen : ethHlen + iphdrLen = 34 := rfl
  refine ⟨h.ethertype, h.protocol, h.teb, ?_⟩
  rw [← F.ipv4]
  exact be16_congr fun i hi => by
    have := h.inner_eq (o := 12) (i := i) (by omega)
    rw [Nat.zero_add]
    exact this

theorem TunnelAt.inner_dest (h : TunnelAt F k m data) :
    constructDestIp (ipDaddr m (data + innerIp)) = F.dest := by
  have hmin := F.min_len
  have hlen : ethHlen + iphdrLen = 34 := rfl
  refine congrArg constructDestIp (le32_congr fun i hi => ?_)
  exact h.inner_eq (o := 30) (i := i) (by omega)

theorem Hop.receive_inside (h : Hop) {i : ℕ} (hi : i < bs.length) :
    h.receive bs (h.addr + i) = store (fun _ => 0) 0 bs i := by
  rw [Hop.receive, h.data_eq, store_inside _ _ hi]
  have := store_inside (fun _ => 0) 0 hi
  rw [Nat.zero_add] at this
  rw [this]

theorem Tunnelled.received (h : Tunnelled F k bs) (hop : Hop) :
    TunnelAt F k (hop.receive bs) hop.addr := by
  refine h.2.congr fun i hi => ?_
  rw [hop.receive_inside (by rw [h.1]; exact hi), Nat.zero_add]

theorem TunnelAt.sent (h : TunnelAt F k m data) :
    Tunnelled F k (load m data (F.bytes.length + encapSize)) := by
  refine ⟨by rw [load_length], h.congr fun i hi => ?_⟩
  have hi' : i < (load m data (F.bytes.length + encapSize)).length := by rwa [load_length]
  rw [store_inside _ _ hi', getElem_load]

/-! ### Each kind of node -/

/-- `encap_veth` puts the frame into its tunnelled form. -/
theorem Hop.encapVeth_tunnelAt {hop : Hop} {destIndex : ℤ} {mac : List UInt8}
    (hlook : nextHopMac hop.g destIndex hop.topo = .ok mac) :
    ∃ m', encapVeth hop.g destIndex hop.topo (hop.receive F.bytes) hop.addr F.bytes.length
      hop.addr = .ok (m', (F.bytes.length + encapSize : ℕ)) ∧ TunnelAt F 0 m' hop.addr := by
  have hmin := F.min_len
  have hmax := F.max_len
  have hoff : encapSize = 40 := rfl
  have hlen : ethHlen + iphdrLen = 34 := rfl
  obtain ⟨m', hm', henc⟩ := encapVeth_spec (hop.receive F.bytes) F.bytes.length
    hop.inner_eq hlook
  have hnew : toInt32 ((F.bytes.length + encapSize) % 4294967296)
      = (F.bytes.length + encapSize : ℕ) := by
    rw [Nat.mod_eq_of_lt (by omega), toInt32, if_pos hmax]
  rw [hnew] at hm'
  exact ⟨m', hm',
    { ethertype := henc.ethertype
      protocol := henc.protocol
      teb := henc.teb
      inner := fun i hi => by
        rw [henc.inner i hi, hop.receive_inside hi]
        simpa only [Nat.zero_add] using store_inside (fun _ => 0) 0 hi
      daddr := by
        rw [henc.daddr]
        refine congrArg constructDestIp (le32_congr fun i hi => ?_)
        show hop.receive F.bytes (hop.addr + 14 + 16 + i) = _
        rw [Nat.add_assoc, Nat.add_assoc, hop.receive_inside (by omega), Nat.add_assoc]
        rfl
      hopcount := henc.hopcount }⟩

theorem Hop.originate_spec {hop : Hop} {mac : List UInt8}
    (hlook : nextHopMac hop.g hop.destIndex hop.topo = .ok mac) :
    ∃ p, hop.originate F.bytes = .ok p ∧ Tunnelled F 0 p.sent := by
  obtain ⟨m', hm', hat⟩ := Hop.encapVeth_tunnelAt (F := F) hlook
  refine ⟨⟨hop.ret, m', load m' hop.addr (F.bytes.length + encapSize)⟩, ?_, hat.sent⟩
  simp only [Hop.originate, hop.data_eq, hm', Int.toNat_natCast]

/-- `encap_indirection` keeps the tunnelled form and counts the hop. -/
theorem Tunnelled.redirected {hop : Hop} {destIndex : ℤ} {mac : List UInt8} (h : Tunnelled F k bs)
    (hlook : nextHopMac hop.g destIndex hop.topo = .ok mac) :
    ∃ m', encapIndirection hop.g destIndex hop.topo (hop.receive bs) hop.addr = .ok m' ∧
      TunnelAt F (k + 1) m' hop.addr := by
  have hat := h.received hop
  obtain ⟨m', hm', hred⟩ := encapIndirection_spec (hop.receive bs) hop.addr hlook
  exact ⟨m', hm',
    { ethertype := hred.ethertype.trans hat.ethertype
      protocol := hred.protocol.trans hat.protocol
      teb := hred.teb.trans hat.teb
      inner := fun i hi => by
        rw [hred.outside _ (.inr (Nat.le_add_right _ _)), hat.inner i hi]
      daddr := by rw [hred.daddr, hat.inner_dest]
      hopcount := by rw [hred.hopcount, hat.hopcount]; omega }⟩

theorem Hop.forward_spec {hop : Hop} {mac : List UInt8} {x : ℕ} (h : Tunnelled F k bs)
    (hlook : nextHopMac hop.g hop.destIndex hop.topo = .ok mac)
    (hx : mgMapGet hop.g.ipTable F.dest = some x) (hne : hop.g.srcIp ≠ F.dest) :
    ∃ p, hop.forward bs = .ok p ∧ Tunnelled F (k + 1) p.sent ∧ p.ret.newLen = 1 ∧
      p.ret.ringBufIndex = ipSetIndex hop.g.ipTable x - 1 := by
  have hat := h.received hop
  obtain ⟨m', hm', hat'⟩ := h.redirected hlook
  have hget := getQueueIndexForNicRx_forward bs.length hop.addr hop.ret
    hat.passesChecks (by rw [hat.daddr]; exact hne) (by rw [hat.inner_dest]; exact hx)
  refine ⟨⟨{ hop.ret with ringBufIndex := ipSetIndex hop.g.ipTable x - 1, newLen := 1 }, m',
    load m' hop.addr bs.length⟩, ?_, ?_, rfl, rfl⟩
  · simp only [Hop.forward, hop.data_eq, hget, hm']
  · rw [h.1]; exact hat'.sent

theorem Hop.deliver_spec {hop : Hop} (h : Tunnelled F k bs) (heq : hop.g.srcIp = F.dest) :
    ∃ p, hop.deliver bs = .ok p ∧ p.ret.newLen = F.bytes.length ∧ p.sent = F.bytes := by
  have hat := h.received hop
  have hmax := F.max_len
  have hsub : bs.length - innerEth = F.bytes.length := by
    rw [h.1]; exact Nat.add_sub_cancel _ _
  have hget := getQueueIndexForNicRx_deliver hop.addr hop.ret
    hat.passesChecks (by rw [hat.daddr]; exact heq)
    (by rw [h.1]; exact Nat.le_add_left _ _ : innerEth ≤ bs.length) (by rw [h.1]; exact hmax)
  rw [hsub] at hget
  refine ⟨_, by simp only [Hop.deliver, hop.data_eq, hget]; rfl, rfl, ?_⟩
  simp only [Int.toNat_natCast]
  apply List.ext_getElem
  · rw [load_length]
  · intro i h1 h2
    rw [getElem_load, copy_inside _ _ _ h2]
    exact hat.inner i h2

end Invariant

/-! ### The whole way -/

/-- The frame that arrives after the given passages. -/
def arriving : List UInt8 → List Passage → List UInt8
  | bs, [] => bs
  | _, p :: ps => arriving p.sent ps

/-- The outer destination address and the GRE hop count of a frame on the wire. -/
def outerDaddr (bs : List UInt8) : ℕ := ipDaddr (store (fun _ => 0) 0 bs) ethHlen
def hopcountOf (bs : List UInt8) : ℕ := greHopcount (store (fun _ => 0) 0 bs) (ethHlen + iphdrLen)

theorem Tunnelled.outerDaddr_eq {F : EthFrame} {k : ℕ} {bs : List UInt8} (h : Tunnelled F k bs) :
    outerDaddr bs = F.dest := by
  have := h.2.daddr
  rwa [Nat.zero_add] at this

theorem Tunnelled.hopcount_eq {F : EthFrame} {k : ℕ} {bs : List UInt8} (h : Tunnelled F k bs) :
    hopcountOf bs = k % 65536 := by
  have := h.2.hopcount
  rwa [Nat.zero_add] at this

/-- Nodes on the way, from a frame that has made `k` hops. -/
theorem forwardAll_spec {F : EthFrame} {tbl : MgMap} {x : ℕ} (hx : mgMapGet tbl F.dest = some x)
    {hops : List Hop} (htbl : ∀ h ∈ hops, h.g.ipTable = tbl)
    (hlook : ∀ h ∈ hops, ∃ mac, nextHopMac h.g h.destIndex h.topo = .ok mac)
    (hne : ∀ h ∈ hops, h.g.srcIp ≠ F.dest) {k : ℕ} {bs : List UInt8} (hbs : Tunnelled F k bs) :
    ∃ ps, forwardAll hops bs = .ok ps ∧
      (∀ p ∈ ps, p.ret.newLen = 1 ∧ p.ret.ringBufIndex = ipSetIndex tbl x - 1) ∧
      (∀ p ∈ ps, ∃ j, Tunnelled F j p.sent) ∧ Tunnelled F (k + hops.length) (arriving bs ps) := by
  induction hops generalizing k bs with
  | nil => exact ⟨[], rfl, by simp, by simp, hbs⟩
  | cons h hs ih =>
    obtain ⟨mac, hmac⟩ := hlook h List.mem_cons_self
    have htblh := htbl h List.mem_cons_self
    obtain ⟨p, hp, hsent, hlen, hidx⟩ := Hop.forward_spec hbs hmac (by rw [htblh]; exact hx)
      (hne h List.mem_cons_self)
    obtain ⟨ps, hps, hret, hall, hlast⟩ := ih
      (fun h' hh' => htbl h' (List.mem_cons_of_mem _ hh'))
      (fun h' hh' => hlook h' (List.mem_cons_of_mem _ hh'))
      (fun h' hh' => hne h' (List.mem_cons_of_mem _ hh')) hsent
    refine ⟨p :: ps, ?_, ?_, ?_, ?_⟩
    · simp only [forwardAll, hp, hps]
    · intro q hq
      rcases List.mem_cons.1 hq with rfl | hq
      · exact ⟨hlen, by rw [hidx, htblh]⟩
      · exact hret q hq
    · intro q hq
      rcases List.mem_cons.1 hq with rfl | hq
      · exact ⟨_, hsent⟩
      · exact hall q hq
    · rw [List.length_cons, Nat.add_comm hs.length, ← Nat.add_assoc]
      exact hlast

/-! ### Writes stay in the chunk -/

/-- Bytes outside `[d, d + n)` cover the other chunks when the frame ends inside its own. -/
theorem outside_of_chunk_ne {c d n a : ℕ} (h : d % c + n ≤ c) (ha : a / c ≠ d / c) :
    a < d ∨ d + n ≤ a := by
  by_contra hin
  have hd := Nat.div_add_mod d c
  have hc : 0 < c := by
    rcases Nat.eq_zero_or_pos c with rfl | hc
    · simp at ha
    · exact hc
  refine ha (Nat.div_eq_of_lt_le ?_ ?_)
  · rw [Nat.mul_comm]; omega
  · rw [Nat.add_mul, Nat.mul_comm, Nat.one_mul]; omega

theorem getQueueIndexForNicRx_outside {g : Globals} {m m' : Mem} {data len addr a : ℕ}
    {ret ret' : ReturnProcessRx}
    (h : getQueueIndexForNicRx g g.nicIface m data len addr ret = .ok (m', ret'))
    (ha : a < addr ∨ addr + len ≤ a) : m' a = m a := by
  have hoff : innerEth = 40 := rfl
  rw [getQueueIndexForNicRx, if_pos rfl] at h
  split at h
  · cases h; rfl
  · split at h
    · split at h
      · exact absurd h (by simp)
      · cases h; rfl
    · simp only [hoff] at h
      split at h
      · exact absurd h (by simp)
      · rename_i hpos
        have hle : (toInt32 ((len + 4294967296 - 40) % 4294967296)).toNat ≤ len := by
          unfold toInt32 at hpos ⊢
          split at hpos
          · rw [if_pos ‹_›]; omega
          · omega
        cases h
        exact copy_of_ne _ _ (by omega)

/-- A call on a frame of at most `n` bytes, in a chunk of `c` bytes that has room for `n`, leaves
the other chunks alone. -/
def Confined (F : EthFrame) (hop : Hop) (c : ℕ) : Prop :=
  hop.addr % c + (F.bytes.length + encapSize) ≤ c → ∀ bs p, ∀ a, a / c ≠ hop.addr / c →
    (bs.length = F.bytes.length → hop.originate bs = .ok p → p.umem a = hop.receive bs a) ∧
    (bs.length = F.bytes.length + encapSize → hop.forward bs = .ok p →
      p.umem a = hop.receive bs a) ∧
    (bs.length = F.bytes.length + encapSize → hop.deliver bs = .ok p →
      p.umem a = hop.receive bs a)

theorem confined (F : EthFrame) (hop : Hop) (c : ℕ) : Confined F hop c := by
  intro hroom bs p a ha
  have hout := outside_of_chunk_ne hroom ha
  refine ⟨fun hlen hp => ?_, fun hlen hp => ?_, fun hlen hp => ?_⟩
  · rw [Hop.originate, hop.data_eq] at hp
    cases hmac : nextHopMac hop.g hop.destIndex hop.topo with
    | error e => simp [encapVeth, hmac] at hp
    | ok mac =>
      obtain ⟨m', hm', henc⟩ := encapVeth_spec (hop.receive bs) bs.length hop.inner_eq hmac
      simp only [hm', Except.ok.injEq] at hp
      subst hp
      exact henc.outside a (by rw [hlen, Nat.add_assoc]; exact hout)
  · rw [Hop.forward, hop.data_eq] at hp
    cases hget : getQueueIndexForNicRx hop.g hop.g.nicIface (hop.receive bs) hop.addr bs.length
        hop.addr hop.ret with
    | error e => simp [hget] at hp
    | ok r =>
      obtain ⟨m, ret⟩ := r
      cases hmac : nextHopMac hop.g hop.destIndex hop.topo with
      | error e => simp [hget, encapIndirection, hmac] at hp
      | ok mac =>
        obtain ⟨m', hm', hred⟩ := encapIndirection_spec m hop.addr hmac
        simp only [hget, hm', Except.ok.injEq] at hp
        subst hp
        simp only
        rw [hred.outside a (by omega),
          getQueueIndexForNicRx_outside hget (by rw [hlen]; exact hout)]
  · rw [Hop.deliver, hop.data_eq] at hp
    cases hget : getQueueIndexForNicRx hop.g hop.g.nicIface (hop.receive bs) hop.addr bs.length
        hop.addr hop.ret with
    | error e => simp [hget] at hp
    | ok r =>
      obtain ⟨m, ret⟩ := r
      simp only [hget, Except.ok.injEq] at hp
      subst hp
      exact getQueueIndexForNicRx_outside hget (by rw [hlen]; exact hout)

/-- **The tunnel is transparent over any number of hops**, and no call writes outside the chunk of
its frame. -/
theorem tunnel_transparent {tbl : MgMap} {x : ℕ} (F : EthFrame) {src dst : Hop} {hops : List Hop}
    (hx : mgMapGet tbl F.dest = some x) (htbl : ∀ h ∈ hops, h.g.ipTable = tbl)
    (hlook : ∀ h ∈ src :: hops, ∃ mac, nextHopMac h.g h.destIndex h.topo = .ok mac)
    (hne : ∀ h ∈ hops, h.g.srcIp ≠ F.dest) (hdst : dst.g.srcIp = F.dest) :
    (∃ first ps last, src.originate F.bytes = .ok first ∧ forwardAll hops first.sent = .ok ps ∧
      (∀ p ∈ ps, p.ret.newLen = 1 ∧ p.ret.ringBufIndex = ipSetIndex tbl x - 1) ∧
      (∀ p ∈ first :: ps, p.sent.length = F.bytes.length + 40 ∧ outerDaddr p.sent = F.dest) ∧
      hopcountOf (arriving first.sent ps) = hops.length % 65536 ∧
      dst.deliver (arriving first.sent ps) = .ok last ∧
      last.ret.newLen = F.bytes.length ∧ last.sent = F.bytes) ∧
    ∀ hop c, Confined F hop c := by
  refine ⟨?_, fun hop c => confined F hop c⟩
  obtain ⟨mac, hmac⟩ := hlook src List.mem_cons_self
  obtain ⟨first, hfirst, htun⟩ := Hop.originate_spec (F := F) hmac
  obtain ⟨ps, hps, hret, hall, harr⟩ := forwardAll_spec hx htbl
    (fun h hh => hlook h (List.mem_cons_of_mem _ hh)) hne htun
  obtain ⟨last, hlast, hlen, hsent⟩ := Hop.deliver_spec harr hdst
  refine ⟨first, ps, last, hfirst, hps, hret, ?_, ?_, hlast, hlen, hsent⟩
  · intro p hp
    rcases List.mem_cons.1 hp with rfl | hp
    · exact ⟨htun.1, htun.outerDaddr_eq⟩
    · obtain ⟨j, hj⟩ := hall p hp
      exact ⟨hj.1, hj.outerDaddr_eq⟩
  · rw [harr.hopcount_eq, Nat.zero_add]

/-! ### A frame over one intermediate node -/

theorem smallEthSrc_length : ([2, 0, 0, 0, 0, 1] : List UInt8).length = 6 := rfl

/-- A node that knows 10.0.0.1 as node 3 and MAC address 5, and routes everything to 5. -/
def smallGlobals (srcIp : ℕ) : Globals where
  nicIface := "ens4"
  srcIp := srcIp
  outEthSrc := [2, 0, 0, 0, 0, 1]
  outEthSrc_length := smallEthSrc_length
  ipTable := ⟨1, 8, .live (setLe32 (setLe32 (fun _ => 0) 0 16777226) 4 3)⟩
  macTable := ⟨1, 11, .live (setLe32 (fun _ => 0) 0 5)⟩
  routeTable := ⟨32, 32, fun _ => 5⟩

def smallHop (srcIp addr : ℕ) (h : addr + encapSize < 281474976710656) : Hop :=
  ⟨smallGlobals srcIp, 1, 2, fun _ => 255, addr, h, ⟨0, 0, 0⟩⟩

/-- An Ethernet and an IPv4 header, to 10.0.0.7. -/
def smallFrame : EthFrame where
  bytes := [1, 2, 3, 4, 5, 6, 7, 8, 9, 10, 11, 12, 8, 0,
    69, 0, 0, 20, 0, 0, 0, 0, 64, 6, 0, 0, 10, 0, 1, 2, 10, 0, 0, 7]
  min_len := by decide
  max_len := by decide
  ipv4 := by decide

theorem tunnel_transparent_one_hop :
    (∃ first ps last,
      (smallHop 33554442 4096 (by decide)).originate smallFrame.bytes = .ok first ∧
      forwardAll [smallHop 50331658 256 (by decide)] first.sent = .ok ps ∧
      (∀ p ∈ ps, p.ret.newLen = 1 ∧ p.ret.ringBufIndex = 2) ∧
      (∀ p ∈ first :: ps, p.sent.length = 34 + 40 ∧ outerDaddr p.sent = smallFrame.dest) ∧
      hopcountOf (arriving first.sent ps) = 1 ∧
      (smallHop 16777226 512 (by decide)).deliver (arriving first.sent ps) = .ok last ∧
      last.ret.newLen = 34 ∧ last.sent = smallFrame.bytes) ∧
    ∀ hop c, Confined smallFrame hop c :=
  tunnel_transparent smallFrame
    (by decide : mgMapGet (smallGlobals 0).ipTable smallFrame.dest = some 4)
    (by rintro h (_ | ⟨_, ⟨⟩⟩); rfl) (by rintro h (_ | ⟨_, _ | ⟨_, ⟨⟩⟩⟩) <;> exact ⟨_, rfl⟩)
    (by rintro h (_ | ⟨_, ⟨⟩⟩); decide) (by decide)

end RotorXdp
