import RotorXdp.Structures
import RotorXdp.Map
import RotorXdp.DataStructures
import Mathlib.Data.List.Basic

/-!
# The packet functions

`thread_functions_1.h`: the four functions that look into a frame. `data` is the offset of the
frame in the UMEM; header fields are read and written at their offsets. Fields that the source
converts with `ntohs` and `htons` are big-endian, those it uses as they are (`daddr`, `hopcount`)
little-endian. A failed lookup whose result is used, and a `memcpy` of negative length, are faults.

* `getDestinationQueueIndex`: from a namespace to a per-destination queue;
* `getQueueIndexForNicRx`: from the NIC, to be forwarded or delivered;
* `encapVeth`, `encapIndirection`: the headers of a fresh and of a forwarded frame.
-/

namespace RotorXdp

open Bytes

/-- The globals that the packet functions read. -/
structure Globals where
  nicIface : String
  srcIp : ℕ
  outEthSrc : List UInt8
  outEthSrc_length : outEthSrc.length = 6
  ipTable : MgMap
  macTable : MgMap
  routeTable : RouteMatrix

/-- `prefix`: `strncmp(pre, str, strlen(pre)) == 0`. -/
def prefixOf (pre str : String) : Bool := pre.toList.isPrefixOf str.toList

/-- `xsk_umem__add_offset_to_addr`: the upper 16 bits are an offset to the lower 48. -/
def addOffsetToAddr (addr : ℕ) : ℕ := addr % 281474976710656 + addr / 281474976710656

/-! ### Header fields -/

/-- Offsets of the inner Ethernet and IPv4 headers of a tunnelled frame. -/
def innerEth : ℕ := ethHlen + iphdrLen + greHdrLen
def innerIp : ℕ := innerEth + ethHlen

/-- `eth->h_proto` of the Ethernet header at `p`. -/
def hProto (m : Mem) (p : ℕ) : ℕ := be16 m (p + 12)

/-- `protocol`, `tot_len` and `daddr` of the IPv4 header at `p`. -/
def ipProtocol (m : Mem) (p : ℕ) : ℕ := (m (p + 9)).toNat
def ipTotLen (m : Mem) (p : ℕ) : ℕ := be16 m (p + 2)
def ipDaddr (m : Mem) (p : ℕ) : ℕ := le32 m (p + 16)

/-- `proto` and `hopcount` of the GRE header at `p`. -/
def greProto (m : Mem) (p : ℕ) : ℕ := be16 m (p + 2)
def greHopcount (m : Mem) (p : ℕ) : ℕ := le16 m (p + 4)

/-- The address with the last octet replaced by 1: printed as a.b.c.1 and read back. -/
def constructDestIp (daddr : ℕ) : ℕ := daddr % 16777216 + 16777216

/-- The last octet of an address as the `char` it is stored in. -/
def fourthOctet (daddr : ℕ) : ℤ :=
  let b := daddr / 16777216 % 256
  if b < 128 then b else (b : ℤ) - 256

/-! ### Receive side -/

/-- `get_destination_queue_index`. On an interface without the prefix the function returns no
value. -/
def getDestinationQueueIndex (g : Globals) (iface : String) (m : Mem) (data : ℕ) :
    Except Fault ℤ :=
  if prefixOf outerVethPrefix iface then
    match mgMapGet g.ipTable (constructDestIp (ipDaddr m (data + ethHlen))) with
    | none => .error .nullDeref
    | some p => .ok (ipSetIndex g.ipTable p - 1)
  else .error .uninit

/-- The GRE, TEB and inner IPv4 checks of `get_queue_index_for_nic_rx`. -/
def passesChecks (m : Mem) (data : ℕ) : Prop :=
  hProto m data = ethPIp ∧ ipProtocol m (data + ethHlen) = ipprotoGre ∧
    greProto m (data + ethHlen + iphdrLen) = ethPTeb ∧ hProto m (data + innerEth) = ethPIp

instance (m : Mem) (data : ℕ) : Decidable (passesChecks m data) :=
  inferInstanceAs (Decidable (_ ∧ _ ∧ _ ∧ _))

/-- `get_queue_index_for_nic_rx`: the memory and the caller's result record. The branches that
reject a frame return without writing the record. The `memcpy` of the inner frame overlaps its
source; it is taken to read before it writes. -/
def getQueueIndexForNicRx (g : Globals) (iface : String) (m : Mem) (data len addr : ℕ)
    (returnVal : ReturnProcessRx) : Except Fault (Mem × ReturnProcessRx) :=
  if iface = g.nicIface then
    if ¬ passesChecks m data then .ok (m, returnVal)
    else if g.srcIp ≠ ipDaddr m (data + ethHlen) then
      match mgMapGet g.ipTable (constructDestIp (ipDaddr m (data + innerIp))) with
      | none => .error .nullDeref
      | some p =>
        .ok (m, { returnVal with ringBufIndex := ipSetIndex g.ipTable p - 1, newLen := 1 })
    else
      let whichVeth := fourthOctet (ipDaddr m (data + innerIp)) - 2
      -- `len` is unsigned, `new_len` is not
      let newLen := toInt32 ((len + 4294967296 - innerEth) % 4294967296)
      if newLen < 0 then .error .badLength
      else
        .ok (copy m addr (addr + innerEth) newLen.toNat,
          { returnVal with whichVeth := whichVeth, newLen := newLen })
  else .ok (m, returnVal)

/-! ### Transmit side -/

/-- The route and MAC lookups of both encapsulation functions: the MAC address for the row
`dest_index + 1` at the current `topo`. -/
def nextHopMac (g : Globals) (destIndex : ℤ) (topo : ℕ) : Except Fault (List UInt8) :=
  match (getRouteElement g.routeTable (destIndex + 1) topo).2 with
  | none => .error .uninit
  | some macIndex =>
    match mgMapGet g.macTable (macIndex % 4294967296).toNat with
    | none => .error .nullDeref
    | some p => .ok (macAddrBytes g.macTable p)

/-- `encap_veth`: the memory and the new length. The outer IPv4 header is copied onto the inner
header it aliases, so it starts as the inner header. The `memcpy` of the frame overlaps its source;
it is taken to read before it writes. -/
def encapVeth (g : Globals) (destIndex : ℤ) (topo : ℕ) (m : Mem) (data len addr : ℕ) :
    Except Fault (Mem × ℤ) :=
  let m := copy m (addOffsetToAddr (addr + encapSize)) data len
  match nextHopMac g destIndex topo with
  | .error e => .error e
  | .ok mac =>
    let m := store m data mac
    let m := setBe16 m (data + 12) ethPIp
    let daddr := ipDaddr m (data + ethHlen)
    let m := Bytes.set m (data + ethHlen + 9) (UInt8.ofNat ipprotoGre)
    let m := setBe16 m (data + ethHlen + 2) (ethHlen + greHdrLen + ipTotLen m (data + ethHlen))
    let m := setLe32 m (data + ethHlen + 16) (constructDestIp daddr)
    let m := setBe16 m (data + ethHlen + iphdrLen + 2) ethPTeb
    let m := setLe16 m (data + ethHlen + iphdrLen + 4) 0
    .ok (m, toInt32 ((len + encapSize) % 4294967296))

/-- `encap_indirection`. -/
def encapIndirection (g : Globals) (destIndex : ℤ) (topo : ℕ) (m : Mem) (data : ℕ) :
    Except Fault Mem :=
  let gre := data + ethHlen + iphdrLen
  let m := setLe16 m (gre + 4) (greHopcount m gre + 1)
  let daddr := ipDaddr m (data + innerIp)
  match nextHopMac g destIndex topo with
  | .error e => .error e
  | .ok mac =>
    let m := store m data mac
    let m := store m (data + 6) g.outEthSrc
    .ok (setLe32 m (data + ethHlen + 16) (constructDestIp daddr))

end RotorXdp
