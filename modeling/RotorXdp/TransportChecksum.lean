import RotorXdp.OuterHeader

/-!
# The checksums of the transport protocols

`compute_ip_checksum`, `compute_tcp_checksum` and `compute_udp_checksum` of `calculate_checksum.h`
sum little-endian words and put the complement into the packet. A receiver sums big-endian words,
the checksum among them, and accepts a packet whose sum is all ones. `iph` is the IPv4 header, `seg`
the segment behind it.

* `computeTcpChecksum`, `computeUdpChecksum`: the functions;
* `Protected`: the receiver accepts the bytes, and no longer does when one of them is changed;
* `checksums_protect`: what the functions leave is protected.
-/

namespace RotorXdp

open Bytes Checksum

/-- `saddr` of the IPv4 header at `p`. -/
def ipSaddr (m : Mem) (p : ℕ) : ℕ := le32 m (p + 12)

/-- The sum over the pseudo header; `lenWord` is the length as it stands in the packet. -/
def pseudoSum (m : Mem) (iph ipproto lenWord : ℕ) : ℕ :=
  ipSaddr m iph / 65536 % 65536 + ipSaddr m iph % 65536 +
    (ipDaddr m iph / 65536 % 65536 + ipDaddr m iph % 65536) + htons ipproto + lenWord

/-- `tcpLen` of `compute_tcp_checksum`. -/
def tcpLen (m : Mem) (iph : ℕ) : ℕ := (ipTotLen m iph + 65536 - ipIhl m iph * 4) % 65536

/-- `compute_tcp_checksum`. -/
def computeTcpChecksum (m : Mem) (iph seg : ℕ) : Mem :=
  let len := tcpLen m iph
  let sum := pseudoSum m iph ipprotoTcp (htons len)
  let m := setLe16 m (seg + 16) 0
  setLe16 m (seg + 16) (65535 - fold (sum + sumWords m seg len))

/-- `udpLen` of `compute_udp_checksum`. -/
def udpLen (m : Mem) (seg : ℕ) : ℕ := htons (le16 m (seg + 4))

/-- `compute_udp_checksum`. -/
def computeUdpChecksum (m : Mem) (iph seg : ℕ) : Mem :=
  let len := udpLen m seg
  let sum := pseudoSum m iph ipprotoUdp (le16 m (seg + 4))
  let m := setLe16 m (seg + 6) 0
  let check := 65535 - fold (sum + sumWords m seg len)
  setLe16 m (seg + 6) (if check = 0 then 65535 else check)

/-! ### The receiver -/

/-- The words of the pseudo header in network byte order. -/
def pseudoWords (m : Mem) (iph ipproto len : ℕ) : ℕ :=
  be16 m (iph + 12) + be16 m (iph + 14) + (be16 m (iph + 16) + be16 m (iph + 18)) + ipproto + len

/-- The words of the `len` bytes at `a`, and `base` from elsewhere, sum up to all ones. -/
def Verifies (base : ℕ) (m : Mem) (a len : ℕ) : Prop := fold (base + sumWordsBe m a len) = 65535

/-- The `len` bytes at `a` are accepted, and are not with any one of them changed. The receiver sums
the same bytes and the same `base`, also where the byte is one of a length. -/
structure Protected (base : ℕ) (m : Mem) (a len : ℕ) : Prop where
  verifies : Verifies base m a len
  detects : ∀ i < len, ∀ b, b ≠ m (a + i) → ¬ Verifies base (set m (a + i) b) a len

section Receiver

variable {m : Mem} {iph seg base a len k v ipproto lenWord : ℕ}

theorem verifies_iff (hpos : 0 < base + sumWordsBe m a len) :
    Verifies base m a len ↔ base + sumWordsBe m a len ≡ 0 [MOD 65535] :=
  fold_eq_max_iff hpos

/-- A changed byte changes the sum by less than 65535. -/
theorem Protected.of_verifies (h : Verifies base m a len) : Protected base m a len where
  verifies := h
  detects i hi b hb hbad := by
    have hpos : ∀ m', Verifies base m' a len → 0 < base + sumWordsBe m' a len := by
      intro m' hv
      by_contra hzero
      rw [Verifies, Nat.eq_zero_of_not_pos hzero, fold_of_lt (by decide)] at hv
      cases hv
    have hgood := (verifies_iff (hpos m h)).1 h
    have hbad' := (verifies_iff (hpos _ hbad)).1 hbad
    obtain ⟨w, hw, hsum⟩ := sumWordsBe_set m b (Nat.le_add_right a i) (Nat.add_lt_add_left hi a)
    have hold := toNat_lt (m (a + i))
    have hnew := toNat_lt b
    have hne : b.toNat ≠ (m (a + i)).toNat := fun he => hb (UInt8.toNat_inj.1 he)
    unfold Nat.ModEq at hgood hbad'
    rcases hw with rfl | rfl <;> omega

/-- A host that has started from `sum` and puts the complement into word `k` of the block makes the
receiver's sum all ones. -/
theorem verifies_of_complement {sum check : ℕ} (hfit : 2 * k + 2 ≤ len)
    (hbase : base ≡ 256 * sum [MOD 65535])
    (hcheck : check ≡ 65535 - fold (sum + sumWords (setLe16 m (a + 2 * k) 0) a len) [MOD 65535])
    (hlt : check < 65536) (hpos : 0 < base + sumWordsBe (setLe16 m (a + 2 * k) check) a len) :
    Verifies base (setLe16 m (a + 2 * k) check) a len := by
  rw [verifies_iff hpos]
  have hsum := sumWords_setLe16 m (a := a) hlt hfit
  have htotal := add_complement (sum + sumWords (setLe16 m (a + 2 * k) 0) a len)
  calc base + sumWordsBe (setLe16 m (a + 2 * k) check) a len
      ≡ 256 * sum + 256 * sumWords (setLe16 m (a + 2 * k) check) a len [MOD 65535] :=
        hbase.add (sumWordsBe_modEq _ _ _)
    _ = 256 * (sum + sumWords (setLe16 m (a + 2 * k) 0) a len + check) := by
        rw [hsum]
        omega
    _ ≡ 256 * (sum + sumWords (setLe16 m (a + 2 * k) 0) a len +
          (65535 - fold (sum + sumWords (setLe16 m (a + 2 * k) 0) a len))) [MOD 65535] :=
        (hcheck.add_left _).mul_left 256
    _ ≡ 0 [MOD 65535] := htotal.mul_left 256

theorem pseudoWords_modEq (m : Mem) (iph ipproto len : ℕ) :
    pseudoWords m iph ipproto len ≡ 256 * pseudoSum m iph ipproto (htons len) [MOD 65535] := by
  have hwords : ∀ a, le32 m a / 65536 % 65536 = le16 m (a + 2) ∧
      le32 m a % 65536 = le16 m a := by
    intro a
    have h0 := le16_lt m a
    have h2 := le16_lt m (a + 2)
    rw [le32_eq_words]
    omega
  unfold pseudoWords pseudoSum ipSaddr ipDaddr
  rw [(hwords _).1, (hwords _).2, (hwords _).1, (hwords _).2]
  have h12 := be16_modEq m (iph + 12)
  have h14 := be16_modEq m (iph + 14)
  have h16 := be16_modEq m (iph + 16)
  have h18 := be16_modEq m (iph + 18)
  have hproto := htons_modEq ipproto
  have hlen := htons_modEq len
  rw [show iph + 12 + 2 = iph + 14 from rfl, show iph + 16 + 2 = iph + 18 from rfl]
  unfold Nat.ModEq at *
  omega

/-- The pseudo header is not part of the segment. -/
theorem pseudoWords_setLe16 (hsep : iph + iphdrLen ≤ a) :
    pseudoWords (setLe16 m a v) iph ipproto len = pseudoWords m iph ipproto len := by
  have hsize : iphdrLen = 20 := rfl
  have hword : ∀ o, o + 2 ≤ 20 → be16 (setLe16 m a v) (iph + o) = be16 m (iph + o) := fun o ho =>
    be16_setLe16_of_ne m v (by omega)
  unfold pseudoWords
  rw [hword 12 (by omega), hword 14 (by omega), hword 16 (by omega), hword 18 (by omega)]

/-- A base of its own keeps the receiver's sum from being zero. -/
theorem pseudoWords_pos (m : Mem) (iph len : ℕ) (hproto : 0 < ipproto) :
    0 < pseudoWords m iph ipproto len := by
  unfold pseudoWords
  omega

end Receiver

/-- **The checksums protect what they cover.** After `compute_ip_checksum` the header is accepted by
every receiver, and is not once a byte of it has changed; the same holds of the segment after
`compute_tcp_checksum`, and after `compute_udp_checksum`, which never writes the zero that stands
for no checksum. The segments must be long enough to hold their checksum. -/
theorem checksums_protect (m : Mem) {iph seg : ℕ} (hsep : iph + iphdrLen ≤ seg) :
    (iphdrLen ≤ ipIhl m iph * 4 →
      Protected 0 (computeIpChecksum m iph) iph (ipIhl m iph * 4)) ∧
    (18 ≤ tcpLen m iph →
      Protected (pseudoWords (computeTcpChecksum m iph seg) iph ipprotoTcp (tcpLen m iph))
        (computeTcpChecksum m iph seg) seg (tcpLen m iph)) ∧
    (8 ≤ udpLen m seg →
      Protected (pseudoWords (computeUdpChecksum m iph seg) iph ipprotoUdp (udpLen m seg))
        (computeUdpChecksum m iph seg) seg (udpLen m seg) ∧
      le16 (computeUdpChecksum m iph seg) (seg + 6) ≠ 0) := by
  have hsize : iphdrLen = 20 := rfl
  have hle : ∀ s, 65535 - fold s < 65536 := fun s => by omega
  refine ⟨fun hlen => .of_verifies ?_, fun hlen => .of_verifies ?_,
    fun hlen => ⟨.of_verifies ?_, ?_⟩⟩
  · -- a header of zeros only would have the checksum 65535
    have hihl : ipIhl (setLe16 m (iph + 10) 0) iph = ipIhl m iph := by
      unfold ipIhl
      rw [setLe16_of_ne _ _ (by omega)]
    have hsum := sumWords_setLe16 m (a := iph) (k := 5)
      (hle (0 + sumWords (setLe16 m (iph + 2 * 5) 0) iph (ipIhl m iph * 4)))
      (show 2 * 5 + 2 ≤ ipIhl m iph * 4 by omega)
    unfold computeIpChecksum computeChecksum
    simp only
    rw [setLe16_setLe16, hihl, ← Nat.zero_add (sumWords _ _ _)]
    refine verifies_of_complement (k := 5) (by omega) (Nat.ModEq.refl 0) (Nat.ModEq.refl _)
      (hle _) ?_
    by_contra hzero
    rw [Nat.zero_add] at hzero
    have hnone := sumWords_eq_zero (Nat.eq_zero_of_not_pos hzero)
    rw [hnone] at hsum
    have hlow : 0 + sumWords (setLe16 m (iph + 2 * 5) 0) iph (ipIhl m iph * 4) = 0 := by omega
    rw [hlow, fold_of_lt (by decide)] at hsum
    omega
  · have hpos : 0 < pseudoWords m iph ipprotoTcp (tcpLen m iph) :=
      pseudoWords_pos m iph _ (by decide)
    unfold computeTcpChecksum
    simp only
    rw [setLe16_setLe16, pseudoWords_setLe16 (by omega)]
    exact verifies_of_complement (k := 8) hlen (pseudoWords_modEq m iph _ _) (Nat.ModEq.refl _)
      (hle _) (by omega)
  · have hpos : 0 < pseudoWords m iph ipprotoUdp (udpLen m seg) :=
      pseudoWords_pos m iph _ (by decide)
    have hword : htons (udpLen m seg) = le16 m (seg + 4) := by
      have := le16_lt m (seg + 4)
      unfold udpLen htons
      omega
    unfold computeUdpChecksum
    simp only
    rw [setLe16_setLe16, pseudoWords_setLe16 (by omega), ← hword]
    refine verifies_of_complement (k := 3) hlen (pseudoWords_modEq m iph _ _) ?_ ?_ (by omega)
    · split
      · rename_i hzero
        rw [hzero]
        rfl
      · rfl
    · split
      · decide
      · exact hle _
  · unfold computeUdpChecksum
    simp only
    rw [le16_setLe16]
    have hlt := hle (pseudoSum m iph ipprotoUdp (le16 m (seg + 4)) +
      sumWords (setLe16 m (seg + 6) 0) seg (udpLen m seg))
    split
    · decide
    · omega

/-- An IPv4 header and a TCP segment of 21 bytes. -/
def oddSegment : Mem :=
  store (fun _ => 0) 0 ([69, 0, 0, 41, 0, 0, 0, 0, 64, 6, 0, 0, 10, 0, 1, 2, 10, 0, 0, 7] ++
    [0, 80, 4, 210, 0, 0, 0, 1, 0, 0, 0, 2, 80, 16, 1, 0, 255, 255, 0, 0, 42])

theorem checksums_protect_odd :
    Verifies (pseudoWords (computeTcpChecksum oddSegment 0 20) 0 ipprotoTcp 21)
      (computeTcpChecksum oddSegment 0 20) 20 21 ∧
    ¬ Verifies (pseudoWords (computeTcpChecksum oddSegment 0 20) 0 ipprotoTcp 21)
      (set (computeTcpChecksum oddSegment 0 20) (20 + 20) 43) 20 21 := by
  have hlen : tcpLen oddSegment 0 = 21 := by decide
  have h := (checksums_protect oddSegment (show 0 + iphdrLen ≤ 20 by decide)).2.1
    (by rw [hlen]; decide)
  rw [hlen] at h
  refine ⟨h.verifies, h.detects 20 (by decide) 43 ?_⟩
  have hlast : computeTcpChecksum oddSegment 0 20 (20 + 20) = 42 := by
    unfold computeTcpChecksum
    rw [setLe16_of_ne _ _ (by omega), setLe16_of_ne _ _ (by omega)]
    rfl
  rw [hlast]
  decide

end RotorXdp
