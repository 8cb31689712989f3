import RotorXdp.Lib.Windows
import RotorXdp.LookupSafety
import RotorXdp.Flow

/-!
# A frame in its chunk

What the threads do to a frame stays in the frame's chunk: they read nothing outside it and write
nothing outside it, as long as the chunk has room behind the frame for the tunnel headers. So it
makes no difference whether they run on the whole UMEM or on a memory that is the chunk and nothing
else.

* `Frame.Roomy`: the chunk has the room;
* `Frame.view`: a frame that sees its chunk of a memory only;
* `receive_view`, `prepare_view`: the RX and the TX side on the view and on the whole memory;
* `receive_outside`, `prepare_outside`: they leave the other chunks alone.
-/

namespace RotorXdp

open Bytes

variable {P : NodeParams} {g : Globals} {m m' : Mem} {f f' : Frame} {c t lo hi addr len : ℕ}
  {ret ret' : ReturnProcessRx} {Q : QueueId}

/-- The chunk of `c` bytes has room for the headers that are read and for those that are put in
front of the frame. UMEM offsets in use stay below 2^48. -/
structure Frame.Roomy (c : ℕ) (f : Frame) : Prop where
  room : f.addr % c + (f.len + encapSize) ≤ c
  headers : f.addr % c + (innerIp + iphdrLen) ≤ c
  addr_lt : f.addr + encapSize < 281474976710656

/-- The frame on another memory. -/
def Frame.on (f : Frame) (m : Mem) : Frame := { f with umem := m }

/-- The frame, and of the memory its own chunk. -/
def Frame.view (c : ℕ) (f : Frame) (m : Mem) : Frame := f.on (chunkWindow c f.addr m)

/-- The frame without the other chunks. -/
def Frame.own (c : ℕ) (f : Frame) : Frame := f.view c f.umem

def Outcome.own (c : ℕ) : Outcome → Outcome
  | .offer Q f => .offer Q (f.own c)
  | o => o

theorem Frame.Roomy.data_eq (h : f.Roomy c) : f.data = f.addr := by
  have hlt := h.addr_lt
  unfold Frame.data addOffsetToAddr
  omega

theorem Frame.Roomy.pos (h : f.Roomy c) : 0 < c := by
  have hroom := h.room
  have hsize : encapSize = 40 := rfl
  omega

/-- What `memmove` moves lies in the frame. -/
theorem newLen_add_le (hlen : len < 4294967296)
    (h : ¬ toInt32 ((len + 4294967296 - innerEth) % 4294967296) < 0) :
    (toInt32 ((len + 4294967296 - innerEth) % 4294967296)).toNat + innerEth ≤ len := by
  have hoff : innerEth = 40 := rfl
  rw [hoff] at h ⊢
  unfold toInt32 at h ⊢
  split at h
  · rw [if_pos ‹_›]
    omega
  · omega

/-! ### The packet functions in a window -/

section Window

variable (hlo : lo ≤ addr)

include hlo

theorem passesChecks_window (hhi : addr + (innerIp + iphdrLen) ≤ hi) :
    passesChecks (window lo hi m) addr ↔ passesChecks m addr := by
  have hsize : innerIp + iphdrLen = 74 := rfl
  unfold passesChecks hProto ipProtocol greProto
  simp only [ethHlen, iphdrLen, innerEth, greHdrLen]
  rw [be16_window _ (by omega) (by omega), window_inside _ (by omega),
    be16_window _ (by omega) (by omega), be16_window _ (by omega) (by omega)]

theorem getQueueIndexForNicRx_window (hlen : len < 4294967296)
    (hhi : addr + (innerIp + iphdrLen) ≤ hi) (hend : addr + len ≤ hi) :
    getQueueIndexForNicRx g g.nicIface (window lo hi m) addr len addr ret =
      (getQueueIndexForNicRx g g.nicIface m addr len addr ret).map fun r =>
        (window lo hi r.1, r.2) := by
  have hsize : innerIp + iphdrLen = 74 := rfl
  have heth : ethHlen = 14 := rfl
  have hip : innerIp = 54 := rfl
  have hoff : innerEth = 40 := rfl
  have houter : ipDaddr (window lo hi m) (addr + ethHlen) = ipDaddr m (addr + ethHlen) := by
    unfold ipDaddr
    exact le32_window _ (by omega) (by omega)
  have hinner : ipDaddr (window lo hi m) (addr + innerIp) = ipDaddr m (addr + innerIp) := by
    unfold ipDaddr
    exact le32_window _ (by omega) (by omega)
  have hsame : passesChecks (window lo hi m) addr ↔ passesChecks m addr :=
    passesChecks_window hlo hhi
  unfold getQueueIndexForNicRx
  rw [if_pos rfl, if_pos rfl, houter, hinner]
  by_cases hchk : passesChecks m addr
  · rw [if_neg (not_not.2 (hsame.2 hchk)), if_neg (not_not.2 hchk)]
    by_cases hne : g.srcIp ≠ ipDaddr m (addr + ethHlen)
    · rw [if_pos hne, if_pos hne]
      cases mgMapGet g.ipTable (constructDestIp (ipDaddr m (addr + innerIp))) <;> rfl
    · rw [if_neg hne, if_neg hne]
      generalize hnew : toInt32 ((len + 4294967296 - innerEth) % 4294967296) = newLen
      have hn := newLen_add_le hlen
      rw [hnew] at hn
      simp only
      by_cases hneg : newLen < 0
      · rw [if_pos hneg, if_pos hneg]
        rfl
      · have hfit := hn hneg
        rw [if_neg hneg, if_neg hneg, copy_window _ ⟨hlo, by omega⟩ ⟨by omega, by omega⟩]
        rfl
  · rw [if_pos fun h => hchk (hsame.1 h), if_pos hchk]
    rfl

theorem encapVeth_window {destIndex : ℤ} {topo : ℕ} (hend : addr + (len + encapSize) ≤ hi)
    (hhi : addr + (innerIp + iphdrLen) ≤ hi) (hlt : addr + encapSize < 281474976710656) :
    encapVeth g destIndex topo (window lo hi m) addr len addr =
      (encapVeth g destIndex topo m addr len addr).map fun r => (window lo hi r.1, r.2) := by
  have hsize : innerIp + iphdrLen = 74 := rfl
  have hoff : encapSize = 40 := rfl
  have hdata : addOffsetToAddr (addr + encapSize) = addr + encapSize := by
    unfold addOffsetToAddr
    omega
  unfold encapVeth
  rw [hdata, copy_window _ ⟨by omega, by omega⟩ ⟨hlo, by omega⟩]
  cases hmac : nextHopMac g destIndex topo with
  | error e => rfl
  | ok mac =>
    have hlen := nextHopMac_length hmac
    simp only [ethHlen, iphdrLen]
    rw [store_window _ hlo (by omega), setBe16_window _ (by omega) (by omega),
      set_window _ _ (by omega) (by omega)]
    unfold ipTotLen ipDaddr
    rw [be16_window _ (by omega) (by omega), setBe16_window _ (by omega) (by omega),
      le32_window _ (by omega) (by omega), setLe32_window _ (by omega) (by omega),
      setBe16_window _ (by omega) (by omega), setLe16_window _ (by omega) (by omega)]
    rfl

theorem encapIndirection_window {destIndex : ℤ} {topo : ℕ}
    (hhi : addr + (innerIp + iphdrLen) ≤ hi) :
    encapIndirection g destIndex topo (window lo hi m) addr =
      (encapIndirection g destIndex topo m addr).map (window lo hi) := by
  have hsize : innerIp + iphdrLen = 74 := rfl
  have hip : innerIp = 54 := rfl
  have hsrc := g.outEthSrc_length
  unfold encapIndirection greHopcount ipDaddr
  simp only [ethHlen, iphdrLen]
  rw [le16_window _ (by omega) (by omega), setLe16_window _ (by omega) (by omega),
    le32_window _ (by omega) (by omega)]
  cases hmac : nextHopMac g destIndex topo with
  | error e => rfl
  | ok mac =>
    have hlen := nextHopMac_length hmac
    simp only
    rw [store_window _ hlo (by omega), store_window _ (by omega) (by omega),
      setLe32_window _ (by omega) (by omega)]
    rfl

end Window

/-! ### The RX side -/

theorem nicFrame_view (h : f.Roomy c) (l : NicLocals) :
    nicFrame g l ret (f.view c m) =
      (nicFrame g l ret (f.on m)).map fun r => (chunkWindow c f.addr r.1, r.2) := by
  obtain ⟨hlo, hhi⟩ := chunk_bounds h.headers
  obtain ⟨-, hend⟩ := chunk_bounds h.room
  have hdata : (f.on m).data = f.addr := h.data_eq
  have hdata' : (f.view c m).data = f.addr := h.data_eq
  have hget : getQueueIndexForNicRx g g.nicIface (f.view c m).umem (f.view c m).data
      (f.view c m).len (f.view c m).addr ret =
        (getQueueIndexForNicRx g g.nicIface (f.on m).umem (f.on m).data (f.on m).len (f.on m).addr
          ret).map fun r => (chunkWindow c f.addr r.1, r.2) := by
    rw [hdata, hdata']
    exact getQueueIndexForNicRx_window hlo f.len_lt hhi (by omega : f.addr + f.len ≤ _)
  unfold nicFrame
  rw [hget]
  cases getQueueIndexForNicRx g g.nicIface (f.on m).umem (f.on m).data (f.on m).len (f.on m).addr
    ret with
  | error e => rfl
  | ok r =>
    have hlen : (f.view c m).len = (f.on m).len := rfl
    simp only [Except.map, hlen]
    cases nicDispatch l r.2 (f.on m).len <;> rfl

/-- What a thread reads of a frame from a namespace. -/
theorem vethReceive_view (h : f.Roomy c) (m : Mem) :
    vethReceive P t (f.view c m) = (vethReceive P t (f.on m)).map (Outcome.own c) := by
  obtain ⟨hlo, hhi⟩ := chunk_bounds h.headers
  have hsize : innerIp + iphdrLen = 74 := rfl
  have heth : ethHlen = 14 := rfl
  have hdata : (f.on m).data = f.addr := h.data_eq
  have hdata' : (f.view c m).data = f.addr := h.data_eq
  have hdaddr : ipDaddr (f.view c m).umem (f.addr + ethHlen) =
      ipDaddr (f.on m).umem (f.addr + ethHlen) :=
    le32_window _ (by omega) (by omega)
  have hdest : getDestinationQueueIndex P.g (P.ifaceRx t) (f.view c m).umem (f.view c m).data =
      getDestinationQueueIndex P.g (P.ifaceRx t) (f.on m).umem (f.on m).data := by
    unfold getDestinationQueueIndex
    rw [hdata, hdata', hdaddr]
  unfold vethReceive
  rw [hdest]
  cases getDestinationQueueIndex P.g (P.ifaceRx t) (f.on m).umem (f.on m).data with
  | error e => rfl
  | ok d =>
    by_cases haddr : f.addr = 0
    · have haddr' : (f.view c m).addr = 0 := haddr
      have haddr'' : (f.on m).addr = 0 := haddr
      simp only [if_pos haddr', if_pos haddr'']
      rfl
    · have haddr' : (f.view c m).addr ≠ 0 := haddr
      have haddr'' : (f.on m).addr ≠ 0 := haddr
      simp only [if_neg haddr', if_neg haddr'']
      cases readEntry (P.thread t).localDestQueueArray numOfPerDestQueues d with
      | error e => rfl
      | ok o => cases o <;> rfl

/-- **The RX side does the same on the chunk as on the whole memory.** -/
theorem receive_view (h : f.Roomy c) (t : ℕ) (ret : ReturnProcessRx) (m : Mem) :
    receive P t ret (f.view c m) =
      (receive P t ret (f.on m)).map fun r => (r.1, r.2.own c) := by
  unfold receive
  split
  · -- from the NIC
    unfold nicReceive
    cases nicLocals (P.thread t) P.v with
    | error e => rfl
    | ok l =>
      simp only
      rw [nicFrame_view h]
      cases nicFrame P.g l ret (f.on m) with
      | error e => rfl
      | ok r =>
        obtain ⟨m', ret', v⟩ := r
        cases v <;> rfl
  · -- from a namespace
    rw [vethReceive_view h]
    cases vethReceive P t (f.on m) <;> rfl

/-- The memory after RX thread `t` has handled a frame. -/
def rxWrites (P : NodeParams) (t : ℕ) (ret : ReturnProcessRx) (f : Frame) : Mem :=
  if P.role t = some .nicRx then
    match nicLocals (P.thread t) P.v with
    | .error _ => f.umem
    | .ok l =>
      match nicFrame P.g l ret f with
      | .error _ => f.umem
      | .ok (m, _, _) => m
  else f.umem

theorem nicReceive_umem (h : nicReceive P t ret f = .ok (ret', .offer Q f')) :
    ∃ l r, nicLocals (P.thread t) P.v = .ok l ∧ nicFrame P.g l ret f = .ok r ∧ f'.umem = r.1 := by
  unfold nicReceive at h
  split at h
  · cases h
  · rename_i l hl
    split at h <;> rename_i hf <;> cases h <;> exact ⟨l, _, hl, hf, rfl⟩

/-- A frame that is offered lies in the memory that was written. -/
theorem receive_umem (h : receive P t ret f = .ok (ret', .offer Q f')) :
    f'.umem = rxWrites P t ret f := by
  unfold receive at h
  split at h
  · rename_i hrole
    obtain ⟨l, ⟨m, ret₁, v⟩, hl, hf, humem⟩ := nicReceive_umem h
    rw [humem]
    simp only [rxWrites, if_pos hrole, hl, hf]
  · rename_i hrole
    rw [rxWrites, if_neg hrole]
    split at h
    · cases h
    · rename_i o ho
      cases h
      rw [(vethReceive_offer ho).1]

/-- **The RX side leaves the other chunks alone.** -/
theorem rxWrites_outside (h : f.Roomy c) (t : ℕ) (ret : ReturnProcessRx) {a : ℕ}
    (ha : a / c ≠ f.addr / c) : rxWrites P t ret f a = f.umem a := by
  have hroom := h.room
  have hout : a < f.addr ∨ f.addr + f.len ≤ a := outside_of_chunk_ne (by omega) ha
  unfold rxWrites
  split
  · cases nicLocals (P.thread t) P.v with
    | error e => rfl
    | ok l =>
      cases hf : nicFrame P.g l ret f with
      | error e => simp only [hf]
      | ok r =>
        simp only [hf]
        unfold nicFrame at hf
        split at hf
        · cases hf
        · rename_i hget
          split at hf
          · cases hf
          · cases hf
            exact getQueueIndexForNicRx_outside hget hout
  · rfl

/-! ### The TX side -/

/-- What the TX side needs: room for the headers, and for those that `encap_veth` puts in front. -/
structure Frame.Sendable (c : ℕ) (Q : QueueId) (f : Frame) : Prop where
  headers : f.addr % c + (innerIp + iphdrLen) ≤ c
  addr_lt : f.addr + encapSize < 281474976710656
  room : ∀ q, Q = .loc q → f.addr % c + (f.len + encapSize) ≤ c

theorem Frame.Sendable.data_eq (h : f.Sendable c Q) : f.data = f.addr := by
  have hlt := h.addr_lt
  unfold Frame.data addOffsetToAddr
  omega

variable {topo w : ℕ}

/-- **The TX side does the same on the chunk as on the whole memory.** -/
theorem prepare_view (h : f.Sendable c Q) (m : Mem) :
    prepare g topo Q w (f.view c m) = (prepare g topo Q w (f.on m)).map (Frame.own c) := by
  obtain ⟨hlo, hhi⟩ := chunk_bounds h.headers
  have hdata : (f.on m).data = f.addr := h.data_eq
  have hdata' : (f.view c m).data = f.addr := h.data_eq
  unfold prepare
  cases Q with
  | nonLocal q =>
    simp only [hdata, hdata']
    have hview : encapIndirection g w topo (f.view c m).umem f.addr =
        (encapIndirection g w topo (f.on m).umem f.addr).map (chunkWindow c f.addr) :=
      encapIndirection_window hlo hhi
    rw [hview]
    cases encapIndirection g w topo (f.on m).umem f.addr <;> rfl
  | loc q =>
    obtain ⟨-, hend⟩ := chunk_bounds (h.room q rfl)
    simp only [hdata, hdata']
    have hview : encapVeth g w topo (f.view c m).umem f.addr (f.view c m).len (f.view c m).addr =
        (encapVeth g w topo (f.on m).umem f.addr (f.on m).len (f.on m).addr).map
          fun r => (chunkWindow c f.addr r.1, r.2) :=
      encapVeth_window hlo hend hhi h.addr_lt
    rw [hview]
    cases encapVeth g w topo (f.on m).umem f.addr (f.on m).len (f.on m).addr <;> rfl
  | veth q => rfl

/-- **The TX side leaves the other chunks alone.** -/
theorem prepare_outside (h : f.Sendable c Q) (hprep : prepare g topo Q w f = .ok f') {a : ℕ}
    (ha : a / c ≠ f.addr / c) : f'.umem a = f.umem a := by
  have hdata := h.data_eq
  unfold prepare at hprep
  cases Q with
  | nonLocal q =>
    simp only [hdata] at hprep
    split at hprep
    · cases hprep
    · rename_i m hm
      cases hprep
      obtain ⟨mac, hlook⟩ := (encapIndirection_ok_iff ..).1 ⟨_, hm⟩
      obtain ⟨m', hm', hred⟩ := encapIndirection_spec f.umem f.addr hlook
      cases hm.symm.trans hm'
      have hheaders := h.headers
      have hsize : innerIp + iphdrLen = 74 := rfl
      have hoff : encapSize = 40 := rfl
      exact hred.outside a (outside_of_chunk_ne (by omega) ha)
  | loc q =>
    simp only [hdata] at hprep
    split at hprep
    · cases hprep
    · rename_i m len hm
      cases hprep
      have hbase : addOffsetToAddr (f.addr + encapSize) = f.addr + encapSize := by
        have hlt := h.addr_lt
        unfold addOffsetToAddr
        omega
      obtain ⟨mac, hlook⟩ := (encapVeth_ok_iff ..).1 ⟨_, hm⟩
      obtain ⟨m', hm', henc⟩ := encapVeth_spec f.umem f.len hbase hlook
      cases hm.symm.trans hm'
      refine henc.outside a ?_
      rw [Nat.add_assoc]
      exact outside_of_chunk_ne (h.room q rfl) ha
  | veth q =>
    cases hprep
    rfl

end RotorXdp
