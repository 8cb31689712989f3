import RotorXdp.NicRx
import RotorXdp.OuterHeader

/-!
# The filter in the kernel

`xdp_sock_prog` of `nic_kern.c` decides which frames reach the sockets of the NIC. It checks the
Ethernet and the outer IPv4 header against the end of the frame. `get_queue_index_for_nic_rx` then
reads at fixed offsets up to the inner destination address without looking at the length, and a
UMEM chunk keeps the bytes of the frames it held before.

* `parseEthHdr`, `parseIpHdr`, `xdpSockProg`: the filter;
* `Frame.SameBelow`: two contents of the rest of the chunk;
* `DecidedBelow`: the decision depends on the bytes of the frame only;
* `decidedBelow_iff`: the redirected frames for which it does.
-/

namespace RotorXdp

open Bytes

/-! ### The program -/

/-- The actions `xdp_sock_prog` returns. -/
inductive XdpAction
  | pass
  | redirect (queue : ℕ)
  deriving DecidableEq

/-- `parse_eth_hdr`: the position behind the header, and `h_proto`. -/
def parseEthHdr (m : Mem) (pos dataEnd : ℕ) : Option (ℕ × ℕ) :=
  if dataEnd < pos + ethHlen then none else some (pos + ethHlen, hProto m pos)

/-- `parse_ip_hdr`: the position behind the header, and `protocol`. -/
def parseIpHdr (m : Mem) (pos dataEnd : ℕ) : Option (ℕ × ℕ) :=
  if dataEnd < pos + iphdrLen then none
  else
    let hdrsize := ipIhl m pos * 4
    if hdrsize < iphdrLen then none
    else if dataEnd < pos + hdrsize then none
    else some (pos + hdrsize, ipProtocol m pos)

/-- `xdp_sock_prog`. `xsksMap` says which queues have a socket. -/
def xdpSockProg (xsksMap : ℕ → Bool) (rxQueueIndex : ℕ) (m : Mem) (data dataEnd : ℕ) : XdpAction :=
  match parseEthHdr m data dataEnd with
  | none => .pass
  | some (pos, ethType) =>
    if ethType = ethPIp then
      match parseIpHdr m pos dataEnd with
      | none => .pass
      | some (_, ipType) =>
        if ipType ≠ ipprotoGre then .pass
        else if xsksMap rxQueueIndex then .redirect rxQueueIndex
        else .pass
    else .pass

/-- What the filter has checked of a frame that it redirects. -/
structure Filtered (m : Mem) (data len : ℕ) : Prop where
  ethertype : hProto m data = ethPIp
  ihl : 5 ≤ ipIhl m (data + ethHlen)
  fits : ethHlen + ipIhl m (data + ethHlen) * 4 ≤ len
  protocol : ipProtocol m (data + ethHlen) = ipprotoGre

section Program

variable {xsksMap : ℕ → Bool} {rxQueueIndex data len queue : ℕ} {m : Mem}

theorem filtered_of_redirect
    (h : xdpSockProg xsksMap rxQueueIndex m data (data + len) = .redirect queue) :
    Filtered m data len := by
  have hip : iphdrLen = 20 := rfl
  unfold xdpSockProg parseEthHdr at h
  by_cases heth : data + len < data + ethHlen
  · rw [if_pos heth] at h
    cases h
  rw [if_neg heth] at h
  simp only at h
  by_cases htype : hProto m data = ethPIp
  swap
  · rw [if_neg htype] at h
    cases h
  rw [if_pos htype] at h
  cases hparse : parseIpHdr m (data + ethHlen) (data + len) with
  | none =>
    rw [hparse] at h
    cases h
  | some r =>
    obtain ⟨pos, ipType⟩ := r
    rw [hparse] at h
    simp only at h
    by_cases hgre : ipType = ipprotoGre
    swap
    · rw [if_pos hgre] at h
      cases h
    unfold parseIpHdr at hparse
    split at hparse
    · cases hparse
    simp only at hparse
    split at hparse
    · cases hparse
    split at hparse
    · cases hparse
    cases hparse
    exact ⟨htype, by omega, by omega, hgre⟩

end Program

/-! ### Two contents of a chunk -/

/-- `f'` is `f` with other bytes before its start and behind its end, in the chunk from `c` up to
`e`. -/
structure Frame.SameBelow (f f' : Frame) (c e : ℕ) : Prop where
  addr : f'.addr = f.addr
  len : f'.len = f.len
  umem : ∀ a, a < c ∨ (f.data ≤ a ∧ a < f.data + f.len) ∨ e ≤ a → f'.umem a = f.umem a

/-- What becomes of `f` on NIC RX thread `i` is the same whatever the rest of its chunk holds, and
the length for a veth queue is that of an IPv4 frame which fits in `f`. -/
structure DecidedBelow (g : Globals) (n v i : ℕ) (f : Frame) (c e : ℕ) (t : NicLocals) : Prop where
  start : nicLocals (wiring n v numOfPerDestQueues (n + i)) v = .ok t
  same : ∀ ret, RecordReached g t ret → ∃ verdict, ∀ f', f.SameBelow f' c e →
    ∃ m ret', nicFrame g t ret f' = .ok (m, ret', verdict)
  vethLen : ∀ ret f' m ret' q len, RecordReached g t ret → f.SameBelow f' c e →
    nicFrame g t ret f' = .ok (m, ret', .veth q len) → 34 ≤ len ∧ len ≤ (f.len : ℤ) - 40

/-- Octet `i` of an address. -/
def octet (daddr i : ℕ) : ℕ := daddr / 256 ^ i % 256

/-- The tables send every destination that agrees with the inner one of `f` in the octets within
the frame to the same queue. -/
def Frame.ForwardableBelow (g : Globals) (f : Frame) : Prop :=
  ∃ k, 1 ≤ k ∧ k ≤ numOfPerDestQueues ∧ ∀ daddr < 4294967296,
    (∀ i < 4, innerIp + 16 + i < f.len → octet daddr i = octet f.innerDaddr i) →
    ∃ p, mgMapGet g.ipTable (constructDestIp daddr) = some p ∧ ipSetIndex g.ipTable p = k

/-- What the filter leaves to be checked. -/
structure Frame.CoversReads (g : Globals) (v : ℕ) (f : Frame) : Prop where
  inner : innerIp ≤ f.len
  teb : greProto f.umem (f.data + ethHlen + iphdrLen) = ethPTeb
  ethertype : hProto f.umem (f.data + innerEth) = ethPIp
  forward : f.outerDaddr ≠ g.srcIp → f.ForwardableBelow g
  deliver : f.outerDaddr = g.srcIp → innerIp + iphdrLen ≤ f.len ∧ f.Deliverable v

/-! ### Octets -/

theorem octet_le32 (m : Mem) (a : ℕ) {i : ℕ} (hi : i < 4) :
    octet (le32 m a) i = (m (a + i)).toNat := by
  have h0 := toNat_lt (m a); have h1 := toNat_lt (m (a + 1))
  have h2 := toNat_lt (m (a + 2)); have h3 := toNat_lt (m (a + 3))
  unfold octet le32
  rcases i with _ | _ | _ | _ | i
  · show _ / 1 % 256 = (m a).toNat
    omega
  · show _ / 256 % 256 = (m (a + 1)).toNat
    omega
  · show _ / 65536 % 256 = (m (a + 2)).toNat
    omega
  · show _ / 16777216 % 256 = (m (a + 3)).toNat
    omega
  · omega

/-- A frame with another inner destination address. -/
def Frame.setInnerDaddr (f : Frame) (daddr : ℕ) : Frame :=
  { f with umem := setLe32 f.umem (f.data + innerIp + 16) daddr }

section Contents

variable {g : Globals} {n v i c e : ℕ} {f f' : Frame}

theorem Frame.SameBelow.refl (f : Frame) (c e : ℕ) : f.SameBelow f c e :=
  ⟨rfl, rfl, fun _ _ => rfl⟩

theorem Frame.SameBelow.data (h : f.SameBelow f' c e) : f'.data = f.data := by
  rw [Frame.data, h.addr, Frame.data]

theorem Frame.SameBelow.byte (h : f.SameBelow f' c e) {o : ℕ} (ho : o < f.len) :
    f'.umem (f'.data + o) = f.umem (f.data + o) := by
  rw [h.data]
  exact h.umem _ (.inr (.inl (by omega)))

/-- One byte behind the end may be anything. -/
theorem Frame.sameBelow_set {o : ℕ} (hc : c ≤ f.data) (ho : f.len ≤ o) (he : f.data + o < e)
    (b : UInt8) : f.SameBelow { f with umem := Bytes.set f.umem (f.data + o) b } c e where
  addr := rfl
  len := rfl
  umem a ha := set_of_ne _ _ (by omega)

/-- So may the octets of the inner destination that are behind the end. -/
theorem Frame.sameBelow_setInnerDaddr {daddr : ℕ} (hd : daddr < 4294967296) (hc : c ≤ f.data)
    (he : f.data + innerIp + iphdrLen ≤ e)
    (hoct : ∀ i < 4, innerIp + 16 + i < f.len → octet daddr i = octet f.innerDaddr i) :
    f.SameBelow (f.setInnerDaddr daddr) c e where
  addr := rfl
  len := rfl
  umem a ha := by
    have hsize : iphdrLen = 20 := rfl
    by_cases hin : f.data + innerIp + 16 ≤ a ∧ a < f.data + innerIp + 16 + 4
    · obtain ⟨i, rfl⟩ := Nat.exists_eq_add_of_le hin.1
      have hi : i < 4 := by omega
      have hnew := octet_le32 (setLe32 f.umem (f.data + innerIp + 16) daddr)
        (f.data + innerIp + 16) hi
      rw [le32_setLe32, Nat.mod_eq_of_lt hd, hoct i hi (by omega), Frame.innerDaddr, ipDaddr,
        octet_le32 _ _ hi] at hnew
      exact UInt8.toNat_inj.1 hnew.symm
    · exact setLe32_of_ne _ _ (by omega)

theorem Frame.innerDaddr_setInnerDaddr {daddr : ℕ} (hd : daddr < 4294967296) :
    (f.setInnerDaddr daddr).innerDaddr = daddr := by
  show le32 (setLe32 f.umem (f.data + innerIp + 16) daddr) (f.data + innerIp + 16) = daddr
  rw [le32_setLe32, Nat.mod_eq_of_lt hd]

/-! ### Frames that cover what is read -/

theorem Frame.SameBelow.passesChecks (h : f.SameBelow f' c e) (hlen : innerIp ≤ f.len) :
    f'.passesChecks ↔ f.passesChecks :=
  Frame.passesChecks_congr fun _ ho => h.byte (by omega)

theorem Frame.SameBelow.outerDaddr (h : f.SameBelow f' c e) (hlen : ethHlen + iphdrLen ≤ f.len) :
    f'.outerDaddr = f.outerDaddr :=
  Frame.outerDaddr_congr fun _ ho => h.byte (by omega)

theorem Frame.SameBelow.innerDaddr (h : f.SameBelow f' c e) (hlen : innerIp + iphdrLen ≤ f.len) :
    f'.innerDaddr = f.innerDaddr :=
  Frame.innerDaddr_congr fun _ ho => h.byte (by omega)

/-- The octets within the frame are those of `f`. -/
theorem Frame.SameBelow.octet (h : f.SameBelow f' c e) {i : ℕ} (hi : i < 4)
    (hlen : innerIp + 16 + i < f.len) :
    RotorXdp.octet f'.innerDaddr i = RotorXdp.octet f.innerDaddr i := by
  rw [Frame.innerDaddr, Frame.innerDaddr, ipDaddr, ipDaddr, octet_le32 _ _ hi, octet_le32 _ _ hi]
  have hbyte := h.byte hlen
  simp only [← Nat.add_assoc] at hbyte
  rw [hbyte]

theorem Frame.Deliverable.congr (h : f.Deliverable v) (hlen : f'.len = f.len)
    (hdaddr : f'.innerDaddr = f.innerDaddr) : f'.Deliverable v := by
  unfold Frame.Deliverable at h ⊢
  rwa [hlen, hdaddr]

/-- A frame that covers what is read is decided by its own bytes. -/
theorem Frame.CoversReads.verdict (h : f.CoversReads g v)
    (hflt : Filtered f.umem f.data f.len) :
    ∃ verdict, (∀ q len, verdict = .veth q len → 34 ≤ len ∧ len ≤ (f.len : ℤ) - 40) ∧
      ∀ ret f', f.SameBelow f' c e →
        ∃ m ret', nicFrame g (nicRxLocals v) ret f' = .ok (m, ret', verdict) := by
  have hinner : innerIp = 54 := rfl
  have heth : innerEth = 40 := rfl
  have hip : iphdrLen = 20 := rfl
  have hmac : ethHlen = 14 := rfl
  have hlen := h.inner
  have hchk : f.passesChecks := ⟨hflt.ethertype, hflt.protocol, h.teb, h.ethertype⟩
  by_cases heq : f.outerDaddr = g.srcIp
  · obtain ⟨hcover, hdel⟩ := h.deliver heq
    refine ⟨.veth (fourthOctet f.innerDaddr - 2).toNat (f.len - innerEth : ℕ), ?_, ?_⟩
    · rintro q len ⟨⟩
      omega
    · intro ret f' hf
      have hin := hf.innerDaddr hcover
      have hnic := nicFrame_deliver ((hf.passesChecks hlen).2 hchk)
        ((hf.outerDaddr (by omega)).trans heq) (hdel.congr hf.len hin) ret
      rw [hin, hf.len] at hnic
      exact ⟨_, _, hnic⟩
  · obtain ⟨k, h1, h32, hk⟩ := h.forward heq
    refine ⟨.nonLocal (k - 1) f.len, fun q len hq => (by cases hq), ?_⟩
    intro ret f' hf
    obtain ⟨p, hp, hidx⟩ := hk f'.innerDaddr (le32_lt _ _) fun i hi hlen => hf.octet hi hlen
    have hne : f'.outerDaddr ≠ g.srcIp := by
      rw [hf.outerDaddr (by omega)]
      exact heq
    have hnic := nicFrame_forward ((hf.passesChecks hlen).2 hchk) hne hp (by omega) (by omega) v ret
    have hq : ((ipSetIndex g.ipTable p : ℤ) - 1).toNat = k - 1 := by omega
    rw [hf.len, hq] at hnic
    exact ⟨_, _, hnic⟩

/-! ### Frames that do not -/

/-- A rejected frame goes to a namespace with the length that the record holds. -/
theorem nicFrame_rejected {ret : ReturnProcessRx} (hchk : ¬ f.passesChecks)
    {r : Mem × ReturnProcessRx × Verdict} (h : nicFrame g (nicRxLocals v) ret f = .ok r)
    (hmark : ret.newLen ≠ 1) : ∃ q, r.2.2 = .veth q ret.newLen := by
  obtain ⟨m, ret', verdict⟩ := r
  obtain ⟨hq, hd⟩ := nicFrame_eq_ok.1 h
  rw [getQueueIndexForNicRx_frame, if_pos hchk] at hq
  cases hq
  rw [nicDispatch, if_neg hmark] at hd
  cases he : readEntry (nicRxLocals v).vethSideQueue (nicRxLocals v).vethPortCount
      ret.whichVeth with
  | error err =>
    rw [he] at hd
    cases hd
  | ok o =>
    obtain ⟨h0, hlt, -⟩ := readEntry_eq_ok.1 he
    rw [show (nicRxLocals v).vethPortCount = v from rfl] at hlt hd
    rw [readEntry_veth h0 hlt] at hd
    cases hd
    exact ⟨_, rfl⟩

/-- At the start of a burst that is length 0. -/
theorem nicFrame_rejected_zero (hchk : ¬ f.passesChecks) {r : Mem × ReturnProcessRx × Verdict}
    (h : nicFrame g (nicRxLocals v) .zero f = .ok r) : ∃ q, r.2.2 = .veth q 0 :=
  nicFrame_rejected hchk h (by decide)

/-- Whatever the bytes behind the end, a frame that is decided passes the checks. -/
theorem DecidedBelow.passesChecks (h : DecidedBelow g n v i f c e (nicRxLocals v))
    (hsame : f.SameBelow f' c e) : f'.passesChecks := by
  by_contra hchk
  obtain ⟨verdict, hall⟩ := h.same _ (recordReached_zero g _)
  obtain ⟨m, ret', hnic⟩ := hall f' hsame
  obtain ⟨q, hq⟩ := nicFrame_rejected_zero hchk hnic
  simp only at hq
  subst hq
  have := h.vethLen _ _ _ _ _ _ (recordReached_zero g _) hsame hnic
  omega

theorem DecidedBelow.innerIp_le (h : DecidedBelow g n v i f c e (nicRxLocals v))
    (hc : c ≤ f.data) (he : f.data + innerIp + iphdrLen ≤ e) : innerIp ≤ f.len := by
  have hinner : innerIp = 54 := rfl
  by_contra hlen
  -- the last byte of the inner Ethernet type may be one that fails the check
  have hsame : f.SameBelow { f with umem := Bytes.set f.umem (f.data + 53) 1 } c e :=
    f.sameBelow_set hc (by omega) (by omega) 1
  have hchk := h.passesChecks hsame
  have htype : hProto (Bytes.set f.umem (f.data + 53) 1) (f.data + innerEth) = ethPIp :=
    hchk.2.2.2
  have hbyte : be16 (Bytes.set f.umem (f.data + 53) 1) (f.data + innerEth + 12) % 256 = 1 := by
    have hself : Bytes.set f.umem (f.data + 53) 1 (f.data + innerEth + 12 + 1) = 1 := set_self ..
    rw [be16, hself, Nat.mul_add_mod]
    rfl
  rw [hProto] at htype
  rw [htype] at hbyte
  exact absurd hbyte (by decide)

/-- A frame to be forwarded is looked up by an address of which the octets behind the end may be
anything. -/
theorem DecidedBelow.forwardableBelow (h : DecidedBelow g n v i f c e (nicRxLocals v))
    (hc : c ≤ f.data) (he : f.data + innerIp + iphdrLen ≤ e) (hchk : f.passesChecks)
    (hne : f.outerDaddr ≠ g.srcIp) : f.ForwardableBelow g := by
  obtain ⟨verdict, hall⟩ := h.same _ (recordReached_zero g _)
  have hlook : ∀ daddr < 4294967296,
      (∀ i < 4, innerIp + 16 + i < f.len → octet daddr i = octet f.innerDaddr i) →
      ∃ p, mgMapGet g.ipTable (constructDestIp daddr) = some p ∧
        1 ≤ ipSetIndex g.ipTable p ∧ ipSetIndex g.ipTable p ≤ numOfPerDestQueues ∧
        verdict = .nonLocal (ipSetIndex g.ipTable p - 1).toNat f.len := by
    intro daddr hd hoct
    have hsame := Frame.sameBelow_setInnerDaddr hd hc he hoct
    have hkept : ∀ o < innerIp, f.umem (f.data + o) = (f.setInnerDaddr daddr).umem (f.data + o) :=
      fun o ho => (setLe32_of_ne _ _ (by omega)).symm
    have hchk' : (f.setInnerDaddr daddr).passesChecks := (Frame.passesChecks_congr hkept).1 hchk
    have hne' : (f.setInnerDaddr daddr).outerDaddr ≠ g.srcIp := by
      have hsize : ethHlen + iphdrLen ≤ innerIp := by decide
      rw [← Frame.outerDaddr_congr (f := f) fun o ho => hkept o (Nat.lt_of_lt_of_le ho hsize)]
      exact hne
    obtain ⟨m, ret', hnic⟩ := hall _ hsame
    obtain ⟨p, hp, h1, h32⟩ := forwardable_of_ok hchk' hne' hnic
    have hverdict := nicFrame_forward hchk' hne' hp h1 h32 v .zero
    rw [hverdict] at hnic
    rw [Frame.innerDaddr_setInnerDaddr hd] at hp
    cases hnic
    exact ⟨p, hp, h1, h32, rfl⟩
  obtain ⟨p, -, h1, h32, hverdict⟩ := hlook f.innerDaddr (le32_lt _ _) fun i _ _ => rfl
  refine ⟨(ipSetIndex g.ipTable p).toNat, by omega, by omega, fun daddr hd hoct => ?_⟩
  obtain ⟨p', hp', h1', h32', hverdict'⟩ := hlook daddr hd hoct
  rw [hverdict] at hverdict'
  simp only [Verdict.nonLocal.injEq] at hverdict'
  exact ⟨p', hp', by omega⟩

theorem DecidedBelow.deliver (h : DecidedBelow g n v i f c e (nicRxLocals v))
    (hlen : innerIp ≤ f.len) (hchk : f.passesChecks) (heq : f.outerDaddr = g.srcIp) :
    innerIp + iphdrLen ≤ f.len ∧ f.Deliverable v := by
  have hinner : innerIp = 54 := rfl
  have heth : innerEth = 40 := rfl
  have hip : iphdrLen = 20 := rfl
  obtain ⟨verdict, hall⟩ := h.same _ (recordReached_zero g _)
  obtain ⟨m, ret', hnic⟩ := hall f (.refl f c e)
  obtain ⟨-, -, o, hread, hverdict⟩ := nicFrame_local hchk heq (by omega) hnic
  obtain ⟨h0, hlt, -⟩ := readEntry_eq_ok.1 hread
  have hcount : (nicRxLocals v).vethPortCount = v := rfl
  rw [hcount] at hlt hread
  rw [readEntry_veth h0 hlt] at hread
  cases hread
  subst hverdict
  have hbound := h.vethLen _ _ _ _ _ _ (recordReached_zero g _) (.refl f c e) hnic
  exact ⟨by omega, deliverable_of_veth hchk heq hnic⟩

/-- **The decision depends on the bytes of a redirected frame only exactly when the frame reaches
over what user space reads and its lookups lead to a queue.** -/
theorem decidedBelow_iff (g : Globals) (n v : ℕ) (i : Fin n) (f : Frame) (c e : ℕ)
    (hc : c ≤ f.data) (he : f.data + innerIp + iphdrLen ≤ e) (xsksMap : ℕ → Bool)
    (rxQueueIndex queue : ℕ)
    (hxdp : xdpSockProg xsksMap rxQueueIndex f.umem f.data (f.data + f.len) = .redirect queue) :
    (∃ t, DecidedBelow g n v i f c e t) ↔ v ≤ vethSideQueueSize ∧ f.CoversReads g v := by
  have hflt := filtered_of_redirect hxdp
  constructor
  · rintro ⟨t, h⟩
    obtain ⟨hv, rfl⟩ := (nicLocals_eq_ok i.2).1 h.start
    have hchk : f.passesChecks := h.passesChecks (.refl f c e)
    have hlen := h.innerIp_le hc he
    exact ⟨hv, hlen, hchk.2.2.1, hchk.2.2.2, h.forwardableBelow hc he hchk, h.deliver hlen hchk⟩
  · rintro ⟨hv, hcov⟩
    obtain ⟨verdict, hlen, hall⟩ := hcov.verdict (c := c) (e := e) hflt
    refine ⟨nicRxLocals v, (nicLocals_eq_ok i.2).2 ⟨hv, rfl⟩, fun ret _ => ⟨verdict, hall ret⟩, ?_⟩
    intro ret f' m ret' q len _ hsame hnic
    obtain ⟨m₁, ret₁, h₁⟩ := hall ret f' hsame
    rw [h₁] at hnic
    cases hnic
    exact hlen q len rfl

end Contents

/-! ### A whole frame and a short one -/

theorem decidedBelow_tunnelled :
    ∃ t, DecidedBelow (smallGlobals 16777226) 1 6 0 tunnelledFrame 0 4096 t :=
  (decidedBelow_iff (smallGlobals 16777226) 1 6 0 tunnelledFrame 0 4096 (by decide) (by decide)
    (fun _ => true) 0 0 (by decide)).2 ⟨by decide, by decide, by decide, by decide,
      fun h => absurd (by decide) h,
      fun _ => ⟨by decide, by decide, by decide, by decide, by decide, by decide⟩⟩

/-- The first 60 bytes of `tunnelledFrame`, over the rest of an earlier frame. -/
def shortFrame (lastOctet : UInt8) : Frame :=
  ⟨0, 60, by decide, Bytes.set (store (fun _ => 0) 0 tunnelledBytes) 73 lastOctet⟩

theorem nicFrame_shortFrame {b : UInt8} (hb : b = 7 ∨ b = 8) :
    ∃ m ret, nicFrame (smallGlobals 16777226) (nicRxLocals 8) .zero (shortFrame b) =
      .ok (m, ret, .veth (b.toNat - 2) 20) := by
  rcases hb with rfl | rfl
  · exact ⟨_, _, nicFrame_deliver (g := smallGlobals 16777226) (v := 8) (f := shortFrame 7)
      (by decide) (by decide) ⟨by decide, by decide, by decide, by decide, by decide⟩ .zero⟩
  · exact ⟨_, _, nicFrame_deliver (g := smallGlobals 16777226) (v := 8) (f := shortFrame 8)
      (by decide) (by decide) ⟨by decide, by decide, by decide, by decide, by decide⟩ .zero⟩

/-- Its namespace is the one that the earlier frame was for, and its length is not that of an IPv4
frame. -/
theorem short_frame_not_decided :
    xdpSockProg (fun _ => true) 0 (shortFrame 7).umem 0 60 = .redirect 0 ∧
      (shortFrame 7).SameBelow (shortFrame 8) 0 4096 ∧
      (∃ m ret, nicFrame (smallGlobals 16777226) (nicRxLocals 8) .zero (shortFrame 7) =
        .ok (m, ret, .veth 5 20)) ∧
      (∃ m ret, nicFrame (smallGlobals 16777226) (nicRxLocals 8) .zero (shortFrame 8) =
        .ok (m, ret, .veth 6 20)) ∧
      ¬ ∃ t, DecidedBelow (smallGlobals 16777226) 1 8 0 (shortFrame 7) 0 4096 t := by
  have h7 := nicFrame_shortFrame (.inl rfl)
  have hsame : (shortFrame 7).SameBelow (shortFrame 8) 0 4096 := by
    refine ⟨rfl, rfl, fun a ha => ?_⟩
    have ha' : a < 60 ∨ 4096 ≤ a := by simpa [shortFrame, Frame.data, addOffsetToAddr] using ha
    show Bytes.set _ 73 8 a = Bytes.set _ 73 7 a
    rw [set_of_ne _ _ (by omega), set_of_ne _ _ (by omega)]
  refine ⟨by decide, hsame, h7, nicFrame_shortFrame (.inr rfl), ?_⟩
  rintro ⟨t, h⟩
  obtain ⟨-, rfl⟩ := (nicLocals_eq_ok (by decide)).1 h.start
  obtain ⟨m, ret', hnic⟩ := h7
  have := h.vethLen _ _ _ _ _ _ (recordReached_zero _ _) (.refl _ _ _) hnic
  omega

end RotorXdp
