import RotorXdp.OperaV1
import Mathlib.Tactic.IntervalCases

/-!
# The number of the namespace in the tunnel

In `opera-v1` the GRE flags tell the last node the namespace that a frame came from. The encoder
writes them for the first two namespaces only; for the others it leaves the two bytes as they were
before the frame was moved behind its headers.

* `Hop.originateOld`, `Hop.forwardOld`, `Hop.deliverOld`: the calls of `process_rx_packet_old` on
  the way of a frame;
* `originateOld_flags`, `forwardAllOld_flags`: the flags on the way;
* `vethNumber_iff`: when the number arrives.
-/

namespace RotorXdp

open Bytes

/-- `process_rx_packet_old` at the first node, on a frame received on `iface`; the frame is sent
with the length that is returned. -/
def Hop.originateOld (h : Hop) (iface : String) (bs : List UInt8) : Except Fault Passage :=
  let data := addOffsetToAddr h.addr
  match processRxPacketOld h.g iface h.topo (h.receive bs) data bs.length h.addr h.ret with
  | .error e => .error e
  | .ok (m, ret) => .ok ⟨ret, m, load m data ret.newLen.toNat⟩

/-- `process_rx_packet_old` at a node on the way. -/
def Hop.forwardOld (h : Hop) (bs : List UInt8) : Except Fault Passage :=
  let data := addOffsetToAddr h.addr
  match processRxPacketOld h.g h.g.nicIface h.topo (h.receive bs) data bs.length h.addr h.ret with
  | .error e => .error e
  | .ok (m, ret) => .ok ⟨ret, m, load m data bs.length⟩

/-- The nodes on the way, in turn. -/
def forwardAllOld : List Hop → List UInt8 → Except Fault (List Passage)
  | [], _ => .ok []
  | h :: hs, bs =>
    match h.forwardOld bs with
    | .error e => .error e
    | .ok p =>
      match forwardAllOld hs p.sent with
      | .error e => .error e
      | .ok ps => .ok (p :: ps)

/-- `process_rx_packet_old` at the last node. -/
def Hop.deliverOld (h : Hop) (bs : List UInt8) : Except Fault Passage :=
  let data := addOffsetToAddr h.addr
  match processRxPacketOld h.g h.g.nicIface h.topo (h.receive bs) data bs.length h.addr h.ret with
  | .error e => .error e
  | .ok (m, ret) => .ok ⟨ret, m, load m h.addr ret.newLen.toNat⟩

/-- The flags of a frame on the wire. -/
def flagsOf (bs : List UInt8) : ℕ := greFlags (store (fun _ => 0) 0 bs) (ethHlen + iphdrLen)

/-- The bytes at the place of the flags before the frame is encapsulated: bytes 34 and 35 of the
frame, or what the chunk holds behind a shorter one. -/
def Hop.staleFlags (h : Hop) (bs : List UInt8) : ℕ :=
  greFlags (h.receive bs) (h.addr + ethHlen + iphdrLen)

/-- The record names the `z`-th of `n` namespaces, which is an entry of `veth_side_queue`. -/
structure VethCarried (n z : ℕ) (ret : ReturnProcessRx) : Prop where
  which : ret.whichVeth = z
  index : 0 ≤ ret.whichVeth ∧ ret.whichVeth < n ∧ ret.whichVeth < vethSideQueueSize

section Flags

variable {F : EthFrame} {hop : Hop} {k z : ℕ} {iface : String} {bs : List UInt8} {p : Passage}

theorem greFlags_setGreFlags (iface : String) (m : Mem) (a : ℕ) :
    greFlags (setGreFlags iface m a) a =
      if iface = "vethout2" then 0 else if iface = "vethout3" then 1 else greFlags m a := by
  unfold setGreFlags greFlags
  split_ifs
  · exact le16_setLe16 ..
  · exact le16_setLe16 ..
  · rfl

/-- Of the headers that are written only the flags reach their two bytes. -/
theorem greFlags_vethFrame (g : Globals) (iface : String) (m : Mem) (data destIp : ℕ)
    {mac : List UInt8} (hmac : mac.length = 6) :
    greFlags (vethFrame g iface m data destIp mac) (data + ethHlen + iphdrLen) =
      if iface = "vethout2" then 0 else if iface = "vethout3" then 1
      else greFlags m (data + ethHlen + iphdrLen) := by
  have hsrc := g.outEthSrc_length
  have hkept : ∀ m₁ : Mem, greFlags (setLe16 m₁ (data + ethHlen + iphdrLen + 4) 0)
      (data + ethHlen + iphdrLen) = greFlags m₁ (data + ethHlen + iphdrLen) := fun m₁ =>
    le16_congr fun i hi => setLe16_of_ne _ _ (by omega)
  rw [vethFrame, hkept, greFlags_setGreFlags]
  refine if_congr Iff.rfl rfl (if_congr Iff.rfl rfl (le16_congr fun i hi => ?_))
  simp only [ethHlen, iphdrLen]
  simp (disch := omega) only [setBe16_of_ne, setLe32_of_ne, set_of_ne, store_of_ne]

theorem flagsOf_load {m : Mem} {data n : ℕ} (hn : 36 ≤ n) :
    flagsOf (load m data n) = greFlags m (data + ethHlen + iphdrLen) := by
  refine le16_congr fun i hi => ?_
  have hlt : ethHlen + iphdrLen + i < (load m data n).length := by
    rw [load_length]
    simp only [ethHlen, iphdrLen]
    omega
  have hbyte := store_inside (fun _ => 0) 0 hlt
  rw [Nat.zero_add] at hbyte
  rw [hbyte, getElem_load]
  simp only [Nat.add_assoc]

theorem Tunnelled.length_lt (h : Tunnelled F k bs) : bs.length < 4294967296 := by
  have hmax := F.max_len
  rw [h.1]
  omega

/-- A received frame has the flags that it had on the wire. -/
theorem Tunnelled.staleFlags_eq (h : Tunnelled F k bs) (hop : Hop) :
    hop.staleFlags bs = flagsOf bs := by
  have hlen : bs.length = F.bytes.length + 40 := h.1
  refine le16_congr fun i hi => ?_
  have hin : ethHlen + iphdrLen + i < bs.length := by
    simp only [ethHlen, iphdrLen]
    omega
  have hat := hop.receive_inside hin
  simpa only [Nat.add_assoc] using hat

/-! ### The calls on the way -/

/-- The frame as the first node receives it. -/
def Hop.firstFrame (hop : Hop) (F : EthFrame) : Frame where
  addr := hop.addr
  len := F.bytes.length
  len_lt := by
    have := F.max_len
    omega
  umem := hop.receive F.bytes

theorem Hop.firstFrame_data (hop : Hop) (F : EthFrame) : (hop.firstFrame F).data = hop.addr :=
  hop.data_eq

theorem Hop.firstFrame_moved (hop : Hop) (F : EthFrame) :
    addOffsetToAddr ((hop.firstFrame F).addr + encapSize) =
      (hop.firstFrame F).data + encapSize := by
  rw [hop.firstFrame_data F]
  exact hop.inner_eq

theorem Hop.firstFrame_passesVeth (hop : Hop) (F : EthFrame) : (hop.firstFrame F).PassesVeth := by
  have hmin := F.min_len
  have hsize : ethHlen + iphdrLen = 34 := rfl
  refine ⟨?_, hmin⟩
  rw [← F.ipv4, hop.firstFrame_data F]
  refine be16_congr fun i hi => ?_
  rw [Nat.add_assoc, Nat.zero_add]
  exact hop.receive_inside (by omega)

/-- The chunk of the first node after `process_rx_packet_old`. -/
def Hop.firstChunk (hop : Hop) (iface : String) (F : EthFrame) (mac : List UInt8) : Mem :=
  vethFrame hop.g iface (copy (hop.receive F.bytes) (hop.addr + encapSize) hop.addr F.bytes.length)
    hop.addr (constructDestIp (hop.firstFrame F).daddr) mac

/-- A frame that leaves the first node has found its MAC address. -/
theorem originateOld_eq_ok (hiface : prefixOf outerVethPrefix iface)
    (h : hop.originateOld iface F.bytes = .ok p) :
    ∃ destIndex mac, nextHopMac hop.g destIndex hop.topo = .ok mac ∧
      p.sent = load (hop.firstChunk iface F mac) hop.addr (F.bytes.length + encapSize) := by
  have hmax := F.max_len
  have hcall := @processRxPacketOld_veth hop.g iface hop.topo (hop.firstFrame F) hop.ret hiface
    (hop.firstFrame_passesVeth F) (hop.firstFrame_moved F)
  rw [hop.firstFrame_data F] at hcall
  simp only [Hop.originateOld, hop.data_eq] at h
  rw [show processRxPacketOld hop.g iface hop.topo (hop.receive F.bytes) hop.addr F.bytes.length
    hop.addr hop.ret = _ from hcall] at h
  cases hget : mgMapGet hop.g.ipTable (constructDestIp (hop.firstFrame F).daddr) with
  | none =>
    rw [hget] at h
    cases h
  | some x =>
    rw [hget] at h
    simp only at h
    cases hlook : nextHopMac hop.g (ipSetIndex hop.g.ipTable x - 1) hop.topo with
    | error e =>
      rw [hlook] at h
      cases h
    | ok mac =>
      rw [hlook] at h
      have hnew : toInt32 ((F.bytes.length + encapSize) % 4294967296)
          = (F.bytes.length + encapSize : ℕ) := by
        rw [Nat.mod_eq_of_lt (by omega), toInt32, if_pos hmax]
      refine ⟨_, mac, hlook, ?_⟩
      cases h
      simp only [Hop.firstFrame, Hop.firstChunk, hnew, Int.toNat_natCast]

/-- opera-v2 makes the same frame, the source address and the flags apart. -/
theorem firstChunk_tunnelAt (iface : String) {destIndex : ℤ} {mac : List UInt8}
    (hlook : nextHopMac hop.g destIndex hop.topo = .ok mac) :
    TunnelAt F 0 (hop.firstChunk iface F mac) hop.addr := by
  obtain ⟨m, hm, hat⟩ := Hop.encapVeth_tunnelAt (F := F) hlook
  obtain ⟨m', hm', hsent⟩ := vethFrame_spec iface (hop.firstFrame_moved F) hlook
  rw [hop.firstFrame_data F] at hm' hsent
  have hsame : m' = m := congrArg Prod.fst (Except.ok.inj (hm'.symm.trans hm))
  rw [hsame] at hsent
  exact hat.congr_off fun i hi h12 h34 => hsent.agree _ fun hS => by
    simp only [MayDiffer] at hS
    omega

/-- At the first node the frame gets its tunnelled form and, from the first two namespaces, its
flags. -/
theorem originateOld_flags (hiface : prefixOf outerVethPrefix iface)
    (h : hop.originateOld iface F.bytes = .ok p) :
    Tunnelled F 0 p.sent ∧ flagsOf p.sent =
      if iface = "vethout2" then 0 else if iface = "vethout3" then 1
      else hop.staleFlags F.bytes := by
  have hoff : encapSize = 40 := rfl
  obtain ⟨destIndex, mac, hlook, hp⟩ := originateOld_eq_ok hiface h
  rw [hp]
  refine ⟨(firstChunk_tunnelAt iface hlook).sent, ?_⟩
  rw [flagsOf_load (by omega), Hop.firstChunk,
    greFlags_vethFrame _ _ _ _ _ (nextHopMac_length hlook)]
  -- the frame is moved to behind the flags
  refine if_congr Iff.rfl rfl (if_congr Iff.rfl rfl (le16_congr fun i hi => ?_))
  refine copy_of_ne _ _ (.inl ?_)
  simp only [encapSize, ethHlen, iphdrLen, greHdrLen]
  omega

/-- A frame that leaves a node on the way was redirected. -/
theorem forwardOld_eq_ok (hnic : ¬ prefixOf outerVethPrefix hop.g.nicIface)
    (hne : hop.g.srcIp ≠ F.dest) (hbs : Tunnelled F k bs) (h : hop.forwardOld bs = .ok p) :
    ∃ destIndex m, encapIndirection hop.g destIndex hop.topo (hop.receive bs) hop.addr = .ok m ∧
      p.sent = load m hop.addr bs.length := by
  let f : Frame := ⟨hop.addr, bs.length, hbs.length_lt, hop.receive bs⟩
  have hdata : f.data = hop.addr := hop.data_eq
  have hat := hbs.received hop
  have hchk : f.passesChecks := by
    rw [Frame.passesChecks, hdata]
    exact hat.passesChecks
  have houter : f.outerDaddr ≠ hop.g.srcIp := by
    rw [Frame.outerDaddr, hdata, hat.daddr]
    exact hne.symm
  have hcall := @processRxPacketOld_forward hop.g hop.topo f hop.ret hnic hchk houter
  rw [hdata] at hcall
  simp only [Hop.forwardOld, hop.data_eq] at h
  rw [show processRxPacketOld hop.g hop.g.nicIface hop.topo (hop.receive bs) hop.addr bs.length
    hop.addr hop.ret = _ from hcall] at h
  cases hget : mgMapGet hop.g.ipTable (constructDestIp f.innerDaddr) with
  | none =>
    rw [hget] at h
    cases h
  | some x =>
    rw [hget] at h
    simp only at h
    cases hred : encapIndirection hop.g (ipSetIndex hop.g.ipTable x - 1) hop.topo (hop.receive bs)
        hop.addr with
    | error e =>
      rw [hred] at h
      cases h
    | ok m =>
      rw [hred] at h
      cases h
      exact ⟨_, m, hred, rfl⟩

/-- A node on the way leaves the flags alone. -/
theorem forwardOld_flags (hnic : ¬ prefixOf outerVethPrefix hop.g.nicIface)
    (hne : hop.g.srcIp ≠ F.dest) (hbs : Tunnelled F k bs) (h : hop.forwardOld bs = .ok p) :
    Tunnelled F (k + 1) p.sent ∧ flagsOf p.sent = flagsOf bs := by
  have hlen : bs.length = F.bytes.length + 40 := hbs.1
  obtain ⟨destIndex, m, hred, hp⟩ := forwardOld_eq_ok hnic hne hbs h
  obtain ⟨m', hm', hat⟩ := hbs.redirected (encapIndirection_mac hred)
  rw [hred] at hm'
  cases hm'
  rw [hp]
  refine ⟨by rw [hbs.1]; exact hat.sent, ?_⟩
  rw [flagsOf_load (by omega), ← hbs.staleFlags_eq hop]
  refine le16_congr fun i hi => ?_
  simp only [ethHlen, iphdrLen, Nat.add_assoc]
  exact encapIndirection_kept hred (by omega)

theorem forwardAllOld_flags {hops : List Hop} {ps : List Passage}
    (hnic : ∀ h ∈ hops, ¬ prefixOf outerVethPrefix h.g.nicIface)
    (hne : ∀ h ∈ hops, h.g.srcIp ≠ F.dest) (hbs : Tunnelled F k bs)
    (h : forwardAllOld hops bs = .ok ps) :
    Tunnelled F (k + hops.length) (arriving bs ps) ∧ flagsOf (arriving bs ps) = flagsOf bs := by
  induction hops generalizing k bs ps with
  | nil =>
    cases h
    exact ⟨hbs, rfl⟩
  | cons hop hops ih =>
    simp only [forwardAllOld] at h
    cases hp : hop.forwardOld bs with
    | error e =>
      rw [hp] at h
      cases h
    | ok p =>
      rw [hp] at h
      simp only at h
      cases hps : forwardAllOld hops p.sent with
      | error e =>
        rw [hps] at h
        cases h
      | ok qs =>
        rw [hps] at h
        cases h
        obtain ⟨htun, hflags⟩ := forwardOld_flags (hnic hop List.mem_cons_self)
          (hne hop List.mem_cons_self) hbs hp
        obtain ⟨hend, hsame⟩ := ih (fun h' hh' => hnic h' (List.mem_cons_of_mem _ hh'))
          (fun h' hh' => hne h' (List.mem_cons_of_mem _ hh')) htun hps
        refine ⟨?_, hsame.trans hflags⟩
        rw [List.length_cons, Nat.add_comm hops.length, ← Nat.add_assoc]
        exact hend

/-- The last node reads the flags as they arrive. -/
theorem deliverOld_flags (hnic : ¬ prefixOf outerVethPrefix hop.g.nicIface)
    (heq : hop.g.srcIp = F.dest) (hbs : Tunnelled F k bs) (h : hop.deliverOld bs = .ok p) :
    p.ret.whichVeth = flagsOf bs := by
  let f : Frame := ⟨hop.addr, bs.length, hbs.length_lt, hop.receive bs⟩
  have hdata : f.data = hop.addr := hop.data_eq
  have hat := hbs.received hop
  have hchk : f.passesChecks := by
    rw [Frame.passesChecks, hdata]
    exact hat.passesChecks
  have houter : f.outerDaddr = hop.g.srcIp := by
    rw [Frame.outerDaddr, hdata, hat.daddr]
    exact heq.symm
  have hcall := @processRxPacketOld_local hop.g hop.topo f hop.ret hnic hchk houter
  rw [hdata] at hcall
  simp only [Hop.deliverOld, hop.data_eq] at h
  rw [show processRxPacketOld hop.g hop.g.nicIface hop.topo (hop.receive bs) hop.addr bs.length
    hop.addr hop.ret = _ from hcall] at h
  rw [← hbs.staleFlags_eq hop]
  by_cases hlen : innerEth ≤ f.len ∧ f.len < innerEth + 2147483648
  · rw [if_pos hlen] at h
    cases h
    rfl
  · rw [if_neg hlen] at h
    cases h

/-- The interfaces of the namespaces, by what the encoder writes for them. -/
theorem flags_outVethArr (hz : outVethArr[z]? = some iface) (stale : ℕ) :
    z < 8 ∧ prefixOf outerVethPrefix iface ∧
      (if iface = "vethout2" then 0 else if iface = "vethout3" then 1 else stale) =
        if z < 2 then z else stale := by
  have hlt : z < 8 := (List.getElem?_eq_some_iff.1 hz).1
  refine ⟨hlt, ?_⟩
  revert hz
  interval_cases z <;> intro hz <;> cases hz <;> exact ⟨rfl, rfl⟩

end Flags

/-- **The number of the namespace arrives exactly when it is one of the first two, or happens to
stand in the frame or in the chunk where the flags will be.** -/
theorem vethNumber_iff {F : EthFrame} {n z : ℕ} {iface : String} {src dst : Hop} {hops : List Hop}
    {first last : Passage} {ps : List Passage} (hn : z < n) (hz : outVethArr[z]? = some iface)
    (hnic : ∀ h ∈ dst :: hops, ¬ prefixOf outerVethPrefix h.g.nicIface)
    (hne : ∀ h ∈ hops, h.g.srcIp ≠ F.dest) (hdst : dst.g.srcIp = F.dest)
    (hfirst : src.originateOld iface F.bytes = .ok first)
    (hps : forwardAllOld hops first.sent = .ok ps)
    (hlast : dst.deliverOld (arriving first.sent ps) = .ok last) :
    VethCarried n z last.ret ↔ z < 2 ∨ src.staleFlags F.bytes = z := by
  obtain ⟨hlt, hiface, hwritten⟩ := flags_outVethArr hz (src.staleFlags F.bytes)
  obtain ⟨htun, hflags⟩ := originateOld_flags hiface hfirst
  obtain ⟨harr, hsame⟩ := forwardAllOld_flags (fun h hh => hnic h (List.mem_cons_of_mem _ hh)) hne
    htun hps
  have hwhich := deliverOld_flags (hnic dst List.mem_cons_self) hdst harr hlast
  rw [hsame, hflags, hwritten] at hwhich
  have hcarried : VethCarried n z last.ret ↔ last.ret.whichVeth = z := by
    refine ⟨VethCarried.which, fun h => ⟨h, ?_⟩⟩
    simp only [vethSideQueueSize]
    omega
  rw [hcarried, hwhich]
  by_cases h2 : z < 2
  · rw [if_pos h2]
    exact iff_of_true rfl (.inl h2)
  · rw [if_neg h2]
    exact ⟨fun h => .inr (by exact_mod_cast h), fun h => by
      rcases h with h | h
      · exact absurd h h2
      · exact_mod_cast h⟩

theorem addr_4096_inside : 4096 + encapSize < 281474976710656 := by decide

/-- The three nodes, whose chunks are full of ones. -/
def oldSrc : Hop := smallHop 33554442 4096 addr_4096_inside
def oldHop : Hop := smallHop 50331658 256 (by decide)
def oldDst : Hop := smallHop 16777226 512 (by decide)

theorem vethNumber_vethout3 : ∃ first ps last,
    oldSrc.originateOld "vethout3" smallFrame.bytes = .ok first ∧
    forwardAllOld [oldHop] first.sent = .ok ps ∧
    oldDst.deliverOld (arriving first.sent ps) = .ok last ∧
    (VethCarried 3 1 last.ret ↔ 1 < 2 ∨ oldSrc.staleFlags smallFrame.bytes = 1) := by
  obtain ⟨first, hfirst⟩ : ∃ p, oldSrc.originateOld "vethout3" smallFrame.bytes = .ok p := ⟨_, rfl⟩
  obtain ⟨ps, hps⟩ : ∃ ps, forwardAllOld [oldHop] first.sent = .ok ps := by
    cases hfirst
    exact ⟨_, rfl⟩
  obtain ⟨last, hlast⟩ : ∃ p, oldDst.deliverOld (arriving first.sent ps) = .ok p := by
    cases hfirst
    cases hps
    exact ⟨_, rfl⟩
  refine ⟨first, ps, last, hfirst, hps, hlast, ?_⟩
  exact vethNumber_iff (by decide) rfl (by rintro h (_ | ⟨_, _ | ⟨_, ⟨⟩⟩⟩) <;> decide)
    (by rintro h (_ | ⟨_, ⟨⟩⟩); decide) (by decide) hfirst hps hlast

/-- A frame of 34 bytes from the third namespace arrives with the number 65535, far behind the end
of `veth_side_queue`. -/
theorem vethNumber_lost : ∃ first ps last,
    oldSrc.originateOld "vethout4" smallFrame.bytes = .ok first ∧
    forwardAllOld [oldHop] first.sent = .ok ps ∧
    oldDst.deliverOld (arriving first.sent ps) = .ok last ∧
    outVethArr[2]? = some "vethout4" ∧ last.ret.whichVeth = 65535 ∧ ¬ VethCarried 3 2 last.ret := by
  obtain ⟨first, hfirst⟩ : ∃ p, oldSrc.originateOld "vethout4" smallFrame.bytes = .ok p := ⟨_, rfl⟩
  obtain ⟨ps, hps⟩ : ∃ ps, forwardAllOld [oldHop] first.sent = .ok ps := by
    cases hfirst
    exact ⟨_, rfl⟩
  obtain ⟨last, hlast, hwhich⟩ : ∃ p, oldDst.deliverOld (arriving first.sent ps) = .ok p ∧
      p.ret.whichVeth = 65535 := by
    cases hfirst
    cases hps
    exact ⟨_, rfl, by decide⟩
  refine ⟨first, ps, last, hfirst, hps, hlast, rfl, hwhich, fun h => ?_⟩
  have := h.which
  rw [hwhich] at this
  exact absurd this (by decide)

end RotorXdp
