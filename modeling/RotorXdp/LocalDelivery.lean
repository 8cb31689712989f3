import RotorXdp.NicFilter
import Mathlib.Tactic.IntervalCases

/-!
# Delivery to a namespace

A frame whose outer destination is this node is queued by the last octet of its inner destination,
and the queue is drained to one of the outer veth interfaces. `create_containers.sh` gives the
namespaces their addresses and the interfaces their names, two loops of `main` connect queues to
ports and ports to interfaces. `nic_kern` redirects every GRE packet, whatever it carries and also
with IPv4 options, which user space does not look for.

* `Container`: what the script sets up;
* `Frame.isGre`, `Frame.innerOctet`: the packets that arrive, and the namespace they are for;
* `DeliveredLocally`: the frame reaches the namespace of its last octet, or nothing;
* `deliveredLocally_iff`: the frames for which that holds.
-/

namespace RotorXdp

open Bytes

/-! ### The namespaces -/

/-- Namespace `i` of `create_containers.sh`, counted from 1. -/
structure Container where
  fourthOctet : ℕ
  outsideVeth : String

def container (i : ℕ) : Container :=
  let fouthOctec := 1
  let outVethNumber := i + 1
  ⟨fouthOctec + i, "vethout" ++ toString outVethNumber⟩

/-- The interface that the port of veth queue `q` sits on is the outer peer of the namespace with
last octet `q + 2`. -/
theorem outVethArr_eq {q : ℕ} (h : q < outVethArr.length) :
    outVethArr[q]? = some (container (q + 1)).outsideVeth ∧
      (container (q + 1)).fourthOctet = q + 2 := by
  refine ⟨?_, by simp only [container]; omega⟩
  have hlen : outVethArr.length = 8 := rfl
  rw [hlen] at h
  interval_cases q <;> rfl

/-! ### The frame -/

/-- A GRE packet: what `nic_kern` looks at, and the least length of an IPv4 header. -/
def Frame.isGre (f : Frame) : Prop :=
  hProto f.umem f.data = ethPIp ∧ 5 ≤ ipIhl f.umem (f.data + ethHlen) ∧
    ipProtocol f.umem (f.data + ethHlen) = ipprotoGre

instance (f : Frame) : Decidable f.isGre := inferInstanceAs (Decidable (_ ∧ _ ∧ _))

/-- The filter lets only GRE packets through. -/
theorem Filtered.isGre {f : Frame} (h : Filtered f.umem f.data f.len) : f.isGre :=
  ⟨h.ethertype, h.ihl, h.protocol⟩

/-- The offset of the GRE header and that of the packet in the tunnel. -/
def Frame.greOffset (f : Frame) : ℕ := ethHlen + ipIhl f.umem (f.data + ethHlen) * 4
def Frame.innerOffset (f : Frame) : ℕ := f.greOffset + greHdrLen

/-- The last octet of the inner destination, in a packet that carries an Ethernet frame with an IPv4
header. -/
def Frame.innerOctet (f : Frame) : Option ℕ :=
  if greProto f.umem (f.data + f.greOffset) = ethPTeb ∧
      hProto f.umem (f.data + f.innerOffset) = ethPIp then
    some (ipDaddr f.umem (f.data + f.innerOffset + ethHlen) / 16777216 % 256)
  else none

/-- Without options the octet is where user space reads it. -/
theorem Frame.innerOctet_eq_some {f : Frame} (hgre : f.isGre)
    (hoptions : ipIhl f.umem (f.data + ethHlen) = 5) {o : ℕ} :
    f.innerOctet = some o ↔ f.passesChecks ∧ o = f.innerDaddr / 16777216 % 256 := by
  have hoffset : f.greOffset = ethHlen + iphdrLen := by rw [Frame.greOffset, hoptions]; rfl
  have hinner : f.innerOffset = innerEth := by rw [Frame.innerOffset, hoffset]; rfl
  have hchk : f.passesChecks ↔ greProto f.umem (f.data + f.greOffset) = ethPTeb ∧
      hProto f.umem (f.data + f.innerOffset) = ethPIp := by
    rw [hoffset, hinner, ← Nat.add_assoc]
    exact ⟨fun h => ⟨h.2.2.1, h.2.2.2⟩, fun h => ⟨hgre.1, hgre.2.2, h.1, h.2⟩⟩
  have hdaddr : ipDaddr f.umem (f.data + f.innerOffset + ethHlen) = f.innerDaddr := by
    rw [hinner]
    rfl
  unfold Frame.innerOctet
  rw [hdaddr]
  by_cases h : f.passesChecks
  · rw [if_pos (hchk.1 h), Option.some.injEq]
    exact ⟨fun ho => ⟨h, ho.symm⟩, fun ho => ho.2.symm⟩
  · rw [if_neg (mt hchk.2 h)]
    constructor
    · intro ho
      cases ho
    · intro ho
      exact absurd ho.1 h

/-- The signed `char` that holds the octet. -/
theorem fourthOctet_of_lt {d : ℕ} (h : d / 16777216 % 256 < 128) :
    fourthOctet d = (d / 16777216 % 256 : ℕ) := by
  simp only [fourthOctet, if_pos h]

/-- Every thread that drains veth queue `q` transmits on a port whose interface is the outer peer of
the namespace with last octet `q + 2`, and there is such a thread. -/
def DrainedTo (nicIface : String) (n v q : ℕ) : Prop :=
  (∃ j < v, (wiring n v numOfPerDestQueues (2 * n + v + j)).vethSideQueueArray 0 = some q) ∧
    ∀ j < v, (wiring n v numOfPerDestQueues (2 * n + v + j)).vethSideQueueArray 0 = some q →
      ∃ port i, (wiring n v numOfPerDestQueues (2 * n + v + j)).portsTx 0 = some port ∧
        ifaces nicIface n v port = outVethArr[q]? ∧
        (container i).fourthOctet = q + 2 ∧ outVethArr[q]? = some (container i).outsideVeth

/-- A GRE packet for this node, received by NIC RX thread `i`, reaches the namespace of its last
octet, or nothing. -/
structure DeliveredLocally (g : Globals) (n v i : ℕ) (f : Frame) (t : NicLocals) : Prop where
  start : nicLocals (wiring n v numOfPerDestQueues (n + i)) v = .ok t
  /-- no array is indexed outside its bounds -/
  handled : ∀ ret, RecordReached g t ret → ∃ r, nicFrame g t ret f = .ok r
  owned : ∀ o, f.innerOctet = some o → 2 ≤ o → o < 2 + v → ∀ ret m ret' verdict,
    RecordReached g t ret → nicFrame g t ret f = .ok (m, ret', verdict) →
    verdict = .veth (o - 2) ((f.len : ℤ) - f.innerOffset) ∧
      (∀ k < f.len - f.innerOffset, m (f.addr + k) = f.umem (f.addr + f.innerOffset + k)) ∧
      DrainedTo g.nicIface n v (o - 2)
  other : (∀ o, f.innerOctet = some o → ¬ (2 ≤ o ∧ o < 2 + v)) → ∀ ret m ret' verdict,
    RecordReached g t ret → nicFrame g t ret f = .ok (m, ret', verdict) → verdict = .dropped

/-! ### The condition -/

variable {nicIface : String} {n v q : ℕ} {f : Frame}

/-- Veth queue `q` is drained by the TX thread of port `n + q` only. -/
theorem drainedTo_iff : DrainedTo nicIface n v q ↔ q < v ∧ q < outVethArr.length := by
  have hqueue : ∀ j < v, ((wiring n v numOfPerDestQueues (2 * n + v + j)).vethSideQueueArray 0 =
      some q ↔ q = j) := by
    intro j hj
    rw [wiring_vethTx hj, vethTxThread, filled_eq_some]
    simp
  constructor
  · rintro ⟨⟨j, hj, hq⟩, hall⟩
    obtain rfl := (hqueue j hj).1 hq
    obtain ⟨port, i, -, -, -, hname⟩ := hall q hj hq
    exact ⟨hj, (List.getElem?_eq_some_iff.1 hname).1⟩
  · rintro ⟨hv, hlen⟩
    refine ⟨⟨q, hv, (hqueue q hv).2 rfl⟩, fun j hj hq => ?_⟩
    obtain rfl := (hqueue j hj).1 hq
    obtain ⟨hname, hoctet⟩ := outVethArr_eq hlen
    refine ⟨n + q, q + 1, ?_, ?_, hoctet, hname⟩
    · rw [wiring_vethTx hj, vethTxThread, filled_eq_some]
      simp
    · rw [ifaces_eq, if_neg (by omega), if_pos (by omega), Nat.add_sub_cancel_left]

/-- A packet that the checks reject is handed over with what the record says, or it is handed over
nowhere: never to one and the same namespace with one and the same length. -/
theorem DeliveredLocally.passesChecks {g : Globals} {i : ℕ} {f : Frame}
    (h : DeliveredLocally g n v i f (nicRxLocals v)) (hlocal : f.outerDaddr = g.srcIp) :
    f.passesChecks := by
  by_contra hchk
  have hzero := recordReached_zero g (nicRxLocals v)
  obtain ⟨⟨m, ret', verdict⟩, hf⟩ := h.handled _ hzero
  obtain ⟨q, hq⟩ := nicFrame_rejected_zero hchk hf
  simp only at hq
  subst hq
  by_cases hown : ∃ o, f.innerOctet = some o ∧ 2 ≤ o ∧ o < 2 + v
  · obtain ⟨o, ho, h2, hov⟩ := hown
    -- the same frame behind one that is delivered to the first namespace
    have hlen : 74 < 4294967296 := by decide
    have hoct : fourthOctet 33554432 = 2 := by decide
    have hinner := tunnelTo_innerDaddr g.srcIp 33554432 hlen (by decide)
    have hsrc : g.srcIp < 4294967296 := by
      rw [← hlocal]
      exact le32_lt _ _
    have hdel : (tunnelTo g.srcIp 33554432 hlen).Deliverable v := by
      refine ⟨by show 40 ≤ 74; omega, by show 74 < 40 + _; omega, by show 74 ≠ 41; omega, ?_, ?_⟩
      · rw [hinner, hoct]
      · rw [hinner, hoct]
        omega
    have hbefore := nicFrame_deliver (tunnelTo_passesChecks g.srcIp 33554432 hlen)
      (tunnelTo_outerDaddr g.srcIp 33554432 hlen hsrc) hdel .zero
    have hret := recordReached_of_frame hbefore
    obtain ⟨⟨m₁, ret₁, verdict₁⟩, hf₁⟩ := h.handled _ hret
    obtain ⟨hv, -, -⟩ := h.owned o ho h2 hov _ _ _ _ hzero hf
    obtain ⟨hv₁, -, -⟩ := h.owned o ho h2 hov _ _ _ _ hret hf₁
    obtain ⟨q₁, hq₁⟩ := nicFrame_rejected hchk hf₁ (by show ((74 - 40 : ℕ) : ℤ) ≠ 1; omega)
    rw [hv₁, ← hv] at hq₁
    cases hq₁
  · have hdrop := h.other (fun o ho hr => hown ⟨o, ho, hr⟩) _ _ _ _ hzero hf
    cases hdrop

/-- **A GRE packet for this node reaches the namespace of its last octet or nothing exactly when it
has no IPv4 options, it carries an Ethernet frame with an IPv4 packet, its last octet is a
namespace's with an interface, and its length without the outer headers is neither negative
nor 1.** -/
theorem deliveredLocally_iff {g : Globals} {i : Fin n} (hgre : f.isGre)
    (hlocal : f.outerDaddr = g.srcIp) :
    (∃ t, DeliveredLocally g n v i f t) ↔
      v ≤ vethSideQueueSize ∧ ipIhl f.umem (f.data + ethHlen) = 5 ∧
        (∃ o, f.innerOctet = some o ∧ 2 ≤ o ∧ o < 2 + v ∧ o < 2 + outVethArr.length) ∧
        innerEth ≤ f.len ∧ f.len < innerEth + 2147483648 ∧ f.len ≠ innerEth + 1 := by
  have hsize : innerEth = 40 := rfl
  constructor
  · rintro ⟨t, h⟩
    obtain ⟨hv, rfl⟩ := (nicLocals_eq_ok i.2).1 h.start
    have hzero := recordReached_zero g (nicRxLocals v)
    have hchk := h.passesChecks hlocal
    obtain ⟨⟨m, ret', verdict⟩, hf⟩ := h.handled _ hzero
    by_cases hown : ∃ o, f.innerOctet = some o ∧ 2 ≤ o ∧ o < 2 + v
    · obtain ⟨o, ho, h2, hov⟩ := hown
      obtain ⟨rfl, -, hdrain⟩ := h.owned o ho h2 hov _ _ _ _ hzero hf
      obtain ⟨hmin, hmax, hne, -⟩ := deliverable_of_veth hchk hlocal hf
      obtain ⟨-, -, o', -, hverdict⟩ := nicFrame_local hchk hlocal hne hf
      have holen := (drainedTo_iff.1 hdrain).2
      -- what was taken off has the length of headers without options
      have hoptions : ipIhl f.umem (f.data + ethHlen) = 5 := by
        have hoffset : f.innerOffset = 14 + ipIhl f.umem (f.data + ethHlen) * 4 + 6 := rfl
        cases o' with
        | none => cases hverdict
        | some q' =>
          simp only [Option.elim, Verdict.veth.injEq] at hverdict
          omega
      exact ⟨hv, hoptions, ⟨o, ho, h2, hov, by omega⟩, hmin, hmax, hne⟩
    · have hdrop := h.other (fun o ho hr => hown ⟨o, ho, hr⟩) _ _ _ _ hzero hf
      subst hdrop
      exact absurd (nicFrame_eq_ok.1 hf).2 nicDispatch_ne_dropped
  · rintro ⟨hv, hoptions, ⟨o, ho, h2, hov, holen⟩, hmin, hmax, hne⟩
    obtain ⟨hchk, hoeq⟩ := (f.innerOctet_eq_some hgre hoptions).1 ho
    have hinner : f.innerOffset = innerEth := by
      rw [Frame.innerOffset, Frame.greOffset, hoptions]
      rfl
    have hv13 : vethSideQueueSize = 13 := rfl
    have hfo : fourthOctet f.innerDaddr = o := by
      rw [fourthOctet_of_lt (by omega), ← hoeq]
    have hdel : f.Deliverable v := ⟨hmin, hmax, hne, by omega, by omega⟩
    have hframe := nicFrame_deliver hchk hlocal hdel
    refine ⟨nicRxLocals v, (nicLocals_eq_ok i.2).2 ⟨hv, rfl⟩, fun ret _ => ⟨_, hframe ret⟩, ?_, ?_⟩
    · intro o' ho' _ _ ret m ret' verdict _ hf
      obtain rfl : o' = o := Option.some.inj (ho'.symm.trans ho)
      rw [hframe ret] at hf
      cases hf
      rw [hinner]
      refine ⟨?_, fun k hk => copy_inside _ _ _ hk, drainedTo_iff.2 ⟨by omega, by omega⟩⟩
      have htoNat : (fourthOctet f.innerDaddr - 2).toNat = o' - 2 := by omega
      rw [htoNat, Nat.cast_sub hmin]
    · intro hnone
      exact absurd ⟨h2, hov⟩ (hnone o ho)

/-- `tunnelledFrame` on a node with six namespaces. -/
theorem deliveredLocally_tunnelled :
    ∃ t, DeliveredLocally (smallGlobals 16777226) 1 6 0 tunnelledFrame t := by
  have hxdp : xdpSockProg (fun _ => true) 0 tunnelledFrame.umem tunnelledFrame.data
      (tunnelledFrame.data + tunnelledFrame.len) = .redirect 0 := by decide
  exact (deliveredLocally_iff (g := smallGlobals 16777226) (v := 6) (i := (0 : Fin 1))
    (f := tunnelledFrame) (filtered_of_redirect hxdp).isGre (by decide)).2
    ⟨by decide, by decide, ⟨7, by decide, by decide, by decide, by decide⟩, by decide, by decide,
      by decide⟩

/-- The same frame on a node with two namespaces: the veth queue array is indexed at 5. -/
theorem tunnelled_out_of_bounds :
    nicFrame (smallGlobals 16777226) (nicRxLocals 2) .zero tunnelledFrame = .error .outOfBounds ∧
    ¬ ∃ t, DeliveredLocally (smallGlobals 16777226) 1 2 0 tunnelledFrame t := by
  have hf : nicFrame (smallGlobals 16777226) (nicRxLocals 2) .zero tunnelledFrame =
      .error .outOfBounds := rfl
  refine ⟨hf, ?_⟩
  rintro ⟨t, h⟩
  obtain ⟨-, rfl⟩ := (nicLocals_eq_ok (by decide)).1 h.start
  obtain ⟨r, hr⟩ := h.handled _ (recordReached_zero _ _)
  rw [hf] at hr
  exact absurd hr (by simp)

end RotorXdp
