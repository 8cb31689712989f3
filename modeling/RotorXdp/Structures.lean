import Mathlib.Data.Nat.Notation
import Mathlib.Data.Int.Notation

/-!
# Constants and records

The compile-time constants of `structures.h` and the small records that several functions share.
Header sizes and protocol numbers are the kernel's (`if_ether.h`, `ip.h`).
-/

namespace RotorXdp

/-- `MAX_BURST_RX`: frames handled by one receive burst. -/
def maxBurstRx : ℕ := 20

/-- `MAX_BURST_TX`: frames sent by one transmit burst. -/
def maxBurstTx : ℕ := 20

/-- `MAX_BURST_TX_OBJS`: capacity of each packet queue. -/
def maxBurstTxObjs : ℕ := 4096

/-- `NUM_OF_PER_DEST_QUEUES`. -/
def numOfPerDestQueues : ℕ := 32

def ethPIp : ℕ := 0x0800
def ethPTeb : ℕ := 0x6558
def ipprotoGre : ℕ := 47
def ipprotoTcp : ℕ := 6
def ipprotoUdp : ℕ := 17

/-- `sizeof(struct ethhdr)`, `sizeof(struct iphdr)` and `sizeof(struct gre_hdr)`. -/
def ethHlen : ℕ := 14
def iphdrLen : ℕ := 20
def greHdrLen : ℕ := 6

/-- `encap_size`: outer Ethernet, outer IPv4 and GRE headers. -/
def encapSize : ℕ := ethHlen + iphdrLen + greHdrLen

/-- `out_veth_arr`. -/
def outVethArr : List String :=
  ["vethout2", "vethout3", "vethout4", "vethout5", "vethout6", "vethout7", "vethout8", "vethout9"]

/-- `OUTER_VETH_PREFIX`. -/
def outerVethPrefix : String := "vethout"

/-- `struct return_process_rx`: the answer of the receive-side classifier, one record per thread. -/
structure ReturnProcessRx where
  newLen : ℤ
  ringBufIndex : ℤ
  whichVeth : ℤ
  deriving DecidableEq

/-- Ways in which the C code leaves its defined behaviour. -/
inductive Fault
  /-- a `NULL` result is dereferenced -/
  | nullDeref
  /-- a variable is read that no call has set -/
  | uninit
  /-- an array is indexed outside its initialised part -/
  | outOfBounds
  /-- `memcpy` is called with a negative length -/
  | badLength
  deriving DecidableEq

end RotorXdp
