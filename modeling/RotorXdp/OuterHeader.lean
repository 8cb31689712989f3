import RotorXdp.Tunnel
import RotorXdp.Lib.Checksum

/-!
# The outer IPv4 header

`encap_veth` copies the first 20 bytes of the inner IPv4 header in front of the frame and rewrites
three of its fields; nothing recomputes the checksum. The source has the function for it,
`compute_ip_checksum` of `calculate_checksum.h`, which states here what a correct checksum is.

* `encapVeth_outer`: the outer header byte for byte;
* `Onward`: the frame on its way; the outer header stays as it was put there (`Onward.outer`);
* `OuterFrom.checksum_iff`: when the copied checksum happens to fit;
* `outer_header_wrong`: `tot_len` leaves out the outer header itself, on every frame.
-/

namespace RotorXdp

open Bytes Checksum

/-! ### A valid IPv4 header -/

/-- `version`, `ihl` and `check` of the IPv4 header at `p`. -/
def ipVersion (m : Mem) (p : ℕ) : ℕ := (m p).toNat / 16
def ipIhl (m : Mem) (p : ℕ) : ℕ := (m p).toNat % 16
def ipCheck (m : Mem) (p : ℕ) : ℕ := le16 m (p + 10)

/-- `compute_checksum`. -/
def computeChecksum (m : Mem) (addr count : ℕ) : ℕ := 65535 - fold (sumWords m addr count)

/-- `compute_ip_checksum`. -/
def computeIpChecksum (m : Mem) (p : ℕ) : Mem :=
  let m := setLe16 m (p + 10) 0
  setLe16 m (p + 10) (computeChecksum m p (ipIhl m p * 4))

/-- The header checksum is the one `compute_ip_checksum` would write. -/
def ChecksumOk (m : Mem) (p : ℕ) : Prop := ipCheck (computeIpChecksum m p) p = ipCheck m p

instance (m : Mem) (p : ℕ) : Decidable (ChecksumOk m p) := inferInstanceAs (Decidable (_ = _))

/-- A frame of `len` bytes at `data` whose IPv4 header is valid. -/
structure ValidInner (m : Mem) (data len : ℕ) : Prop where
  version : ipVersion m (data + ethHlen) = 4
  ihl : 5 ≤ ipIhl m (data + ethHlen)
  fits : ethHlen + ipIhl m (data + ethHlen) * 4 ≤ len
  totLen : ipTotLen m (data + ethHlen) + ethHlen = len
  check : ChecksumOk m (data + ethHlen)

/-- The outer IPv4 header of an encapsulated frame of `len` bytes describes that frame. -/
structure OuterOk (m : Mem) (data len : ℕ) : Prop where
  ihl : ipIhl m (data + ethHlen) * 4 = iphdrLen
  totLen : ipTotLen m (data + ethHlen) + ethHlen = len
  check : ChecksumOk m (data + ethHlen)

/-! ### What is written -/

section Calls

variable {m m' : Mem} {data len addr : ℕ} {g : Globals} {destIndex newLen : ℤ} {topo : ℕ}

/-- A call of `encap_veth` that returns has found its MAC address. -/
theorem encapVeth_inv (hdata : addOffsetToAddr (addr + encapSize) = data + encapSize)
    (h : encapVeth g destIndex topo m data len addr = .ok (m', newLen)) :
    newLen = toInt32 ((len + encapSize) % 4294967296) ∧ ∃ mac, Encapsulated m m' data len mac := by
  cases hmac : nextHopMac g destIndex topo with
  | error e =>
    simp only [encapVeth, hmac] at h
    cases h
  | ok mac =>
    obtain ⟨m₁, hm₁, henc⟩ := encapVeth_spec m len hdata hmac
    rw [hm₁] at h
    cases h
    exact ⟨rfl, mac, henc⟩

end Calls

/-! ### On the way -/

/-- The outer header of `m'` at `data'` as `encap_veth` makes it from the inner header of `m` at
`data`; `inner` says that it carries the node of the inner frame behind it. -/
structure OuterFrom (m m' : Mem) (data data' : ℕ) : Prop where
  kept : ∀ i, 14 ≤ i → i < 30 → (i < 16 ∨ 18 ≤ i) → i ≠ 23 → m' (data' + i) = m (data + i)
  protocol : m' (data' + 23) = 47
  totLen : ipTotLen m' (data' + ethHlen) = (20 + ipTotLen m (data + ethHlen)) % 65536
  daddr : ipDaddr m' (data' + ethHlen) = constructDestIp (ipDaddr m (data + ethHlen))
  inner : constructDestIp (ipDaddr m' (data' + innerIp)) = ipDaddr m' (data' + ethHlen)

/-- A frame of `n` bytes on its way: it is received in another UMEM, or `encap_indirection`
redirects it where it is. -/
inductive Onward (n : ℕ) (m : Mem) (data : ℕ) : Mem → ℕ → Prop
  | start : Onward n m data m data
  | received {m₁ m₂ : Mem} {data₁ data₂ : ℕ} : Onward n m data m₁ data₁ →
      (∀ i < n, m₂ (data₂ + i) = m₁ (data₁ + i)) → Onward n m data m₂ data₂
  | redirected {m₁ m₂ : Mem} {data₁ : ℕ} {g : Globals} {destIndex : ℤ} {topo : ℕ} :
      Onward n m data m₁ data₁ → encapIndirection g destIndex topo m₁ data₁ = .ok m₂ →
      Onward n m data m₂ data₁

section Way

variable {m m₁ m₂ : Mem} {data data₁ data₂ len addr n : ℕ} {g : Globals} {destIndex newLen : ℤ}
  {topo : ℕ}

theorem encapVeth_outer (hlen : 34 ≤ len)
    (hdata : addOffsetToAddr (addr + encapSize) = data + encapSize)
    (h : encapVeth g destIndex topo m data len addr = .ok (m₁, newLen)) :
    OuterFrom m m₁ data data := by
  obtain ⟨-, mac, henc⟩ := encapVeth_inv hdata h
  refine ⟨fun i h1 h2 h3 h4 => encapVeth_kept hdata h (by omega), ?_, henc.totLen, henc.daddr, ?_⟩
  · exact UInt8.toNat_inj.1 henc.protocol
  · rw [henc.daddr]
    -- the frame itself has moved behind the new headers
    refine congrArg constructDestIp (le32_congr fun i hi => ?_)
    have hin := henc.inner (30 + i) (by omega)
    have hoff : data + encapSize + (30 + i) = data + innerIp + 16 + i := by
      simp only [encapSize, innerIp, innerEth, ethHlen, iphdrLen, greHdrLen]; omega
    have hoff' : data + (30 + i) = data + ethHlen + 16 + i := by
      simp only [ethHlen]; omega
    rwa [hoff, hoff'] at hin

/-- The inner destination stands 70 bytes into an encapsulated frame. -/
theorem innerDest_congr (h : ∀ i < 4, m₂ (data₂ + (70 + i)) = m₁ (data₁ + (70 + i))) :
    ipDaddr m₂ (data₂ + innerIp) = ipDaddr m₁ (data₁ + innerIp) := by
  apply le32_congr
  intro i hi
  show m₂ (data₂ + 70 + i) = m₁ (data₁ + 70 + i)
  rw [Nat.add_assoc, Nat.add_assoc]
  exact h i hi

/-- The outer header depends on the bytes of the frame only. -/
theorem OuterFrom.received (h : OuterFrom m m₁ data data₁)
    (heq : ∀ i < 74, m₂ (data₂ + i) = m₁ (data₁ + i)) : OuterFrom m m₂ data data₂ := by
  have hdaddr : ipDaddr m₂ (data₂ + ethHlen) = ipDaddr m₁ (data₁ + ethHlen) :=
    le32_congr fun i hi => by
      simpa only [ethHlen, Nat.add_assoc] using heq (14 + (16 + i)) (by omega)
  have hinner : ipDaddr m₂ (data₂ + innerIp) = ipDaddr m₁ (data₁ + innerIp) :=
    innerDest_congr fun i hi => heq _ (by omega)
  constructor
  · intro i h1 h2 h3 h4
    rw [heq i (by omega), h.kept i h1 h2 h3 h4]
  · rw [heq 23 (by omega), h.protocol]
  · rw [← h.totLen]
    exact be16_congr fun i hi => by
      simpa only [ethHlen, Nat.add_assoc] using heq (14 + (2 + i)) (by omega)
  · rw [hdaddr, h.daddr]
  · rw [hdaddr, hinner, h.inner]

theorem OuterFrom.redirected (h : OuterFrom m m₁ data data₁)
    (hcall : encapIndirection g destIndex topo m₁ data₁ = .ok m₂) :
    OuterFrom m m₂ data data₁ := by
  have hkept : ∀ i, 12 ≤ i ∧ i < 30 ∨ 34 ≤ i ∧ i < 38 ∨ 40 ≤ i →
      m₂ (data₁ + i) = m₁ (data₁ + i) := fun i hi => encapIndirection_kept hcall hi
  have hinner : ipDaddr m₂ (data₁ + innerIp) = ipDaddr m₁ (data₁ + innerIp) :=
    innerDest_congr fun i hi => hkept _ (by omega)
  have hdaddr : ipDaddr m₂ (data₁ + ethHlen) = ipDaddr m₁ (data₁ + ethHlen) := by
    cases hmac : nextHopMac g destIndex topo with
    | error e => simp only [encapIndirection, hmac] at hcall; cases hcall
    | ok mac =>
      obtain ⟨m', hm', hred⟩ := encapIndirection_spec m₁ data₁ hmac
      rw [hm'] at hcall
      cases hcall
      -- the address written is made from the inner one again
      rw [hred.daddr, h.inner]
  constructor
  · intro i h1 h2 h3 h4
    rw [hkept i (by omega), h.kept i h1 h2 h3 h4]
  · rw [hkept 23 (by omega), h.protocol]
  · rw [← h.totLen]
    exact be16_congr fun i hi => by
      simpa only [ethHlen, Nat.add_assoc] using hkept (14 + (2 + i)) (by omega)
  · rw [hdaddr, h.daddr]
  · rw [hdaddr, hinner, h.inner]

/-- The outer header of a frame that `encap_veth` has made is the same at the end of the way. -/
theorem Onward.outer (hway : Onward n m₁ data₁ m₂ data₂) (hn : 74 ≤ n)
    (h : OuterFrom m m₁ data data₁) : OuterFrom m m₂ data data₂ := by
  induction hway with
  | start => exact h
  | received _ heq ih => exact ih.received fun i hi => heq i (by omega)
  | redirected _ hcall ih => exact ih.redirected hcall

end Way

/-! ### The checksum -/

section HeaderSum

variable {m m' : Mem} {p p' data data' : ℕ}

/-- The sum of the words of a header of 20 bytes, the checksum left out. -/
def headerSum (m : Mem) (p : ℕ) : ℕ :=
  le16 m p + le16 m (p + 2) + le16 m (p + 4) + le16 m (p + 6) + le16 m (p + 8) +
    le16 m (p + 12) + le16 m (p + 14) + le16 m (p + 16) + le16 m (p + 18)

theorem checksumOk_iff (hihl : ipIhl m p = 5) :
    ChecksumOk m p ↔ ipCheck m p = 65535 - fold (headerSum m p) := by
  have hkeep : ∀ o, o + 2 ≤ 10 ∨ 12 ≤ o →
      le16 (setLe16 m (p + 10) 0) (p + o) = le16 m (p + o) := fun o ho =>
    le16_congr fun i hi => setLe16_of_ne _ _ (by omega)
  -- the header is summed with its checksum set to 0
  have hihl' : ipIhl (setLe16 m (p + 10) 0) p = 5 := by
    rw [← hihl, ipIhl, setLe16_of_ne _ _ (by omega), ipIhl]
  have hsum : sumWords (setLe16 m (p + 10) 0) p 20 = headerSum m p := by
    have h0 : le16 (setLe16 m (p + 10) 0) p = le16 m p := hkeep 0 (by omega)
    have h10 : le16 (setLe16 m (p + 10) 0) (p + 10) = 0 := le16_setLe16 ..
    simp only [sumWords, Nat.add_assoc, Nat.reduceAdd, h0, h10, hkeep 2 (by omega),
      hkeep 4 (by omega), hkeep 6 (by omega), hkeep 8 (by omega), hkeep 12 (by omega),
      hkeep 14 (by omega), hkeep 16 (by omega), hkeep 18 (by omega)]
    unfold headerSum
    omega
  have hlt := fold_lt (headerSum m p)
  unfold ChecksumOk computeIpChecksum computeChecksum
  simp only [hihl', Nat.reduceMul, hsum]
  rw [ipCheck, le16_setLe16, Nat.mod_eq_of_lt (by omega), eq_comm]

/-- The words of the outer header that are words of the inner one. -/
theorem OuterFrom.word (h : OuterFrom m m' data data') {o : ℕ}
    (ho : o = 0 ∨ o = 4 ∨ o = 6 ∨ o = 10 ∨ o = 12 ∨ o = 14) :
    le16 m' (data' + ethHlen + o) = le16 m (data + ethHlen + o) := by
  apply le16_congr
  intro i hi
  have hsize : ethHlen = 14 := rfl
  simp only [hsize, Nat.add_assoc]
  exact h.kept _ (by omega) (by omega) (by omega) (by omega)

theorem OuterFrom.ihl_eq (h : OuterFrom m m' data data') :
    ipIhl m' (data' + ethHlen) = ipIhl m (data + ethHlen) := by
  have h0 := h.kept 14 (by omega) (by omega) (by omega) (by omega)
  exact congrArg (fun b : UInt8 => b.toNat % 16) h0

/-- Adding 20 to a big-endian word adds 20 · 256 to the little-endian one, less one end-around
carry when the low byte carries, and one 256 less when the word wraps. -/
theorem swapped_add_twenty {hi lo hi' lo' : ℕ} (hlo : lo < 256) (hlo' : lo' < 256) (hhi : hi < 256)
    (h : 256 * hi' + lo' = (20 + (256 * hi + lo)) % 65536) :
    ∃ e, hi' + 256 * lo' + 65535 * e =
      hi + 256 * lo + 256 * if 256 * hi + lo + 20 < 65536 then 20 else 19 := by
  by_cases hwrap : 256 * hi + lo + 20 < 65536
  · rw [if_pos hwrap]
    rw [Nat.mod_eq_of_lt (by omega)] at h
    by_cases hcarry : lo + 20 < 256
    · exact ⟨0, by omega⟩
    · exact ⟨1, by omega⟩
  · rw [if_neg hwrap]
    exact ⟨1, by omega⟩

/-- 256 is invertible modulo 65535. -/
theorem modEq_iff_of_words {s t q c e : ℕ} (hq : q < 65535) (hc : c < 65535)
    (h : s + 256 * q + 65535 * e = t + 256 * c) : s ≡ t [MOD 65535] ↔ q = c := by
  constructor
  · intro hst
    have hsum : s + 256 * q ≡ t + 256 * c [MOD 65535] := by
      unfold Nat.ModEq
      omega
    have hmul : 256 * q ≡ 256 * c [MOD 65535] := hst.add_left_cancel hsum
    -- 65535 = 3 · 5 · 17 · 257
    have hqc : q ≡ c [MOD 65535] := hmul.cancel_left_of_coprime (by decide)
    exact hqc.eq_of_lt_of_lt hq hc
  · intro hqc
    unfold Nat.ModEq
    omega

/-- The sums of the outer and of the inner header modulo 65535: `tot_len` has grown by 20, the
protocol is 47 and the last octet of the destination is 1. -/
theorem OuterFrom.headerSum_modEq_iff (h : OuterFrom m m' data data') :
    headerSum m' (data' + ethHlen) ≡ headerSum m (data + ethHlen) [MOD 65535] ↔
      ipProtocol m (data + ethHlen) + ipDaddr m (data + ethHlen) / 16777216 =
        if ipTotLen m (data + ethHlen) + 20 < 65536 then 68 else 67 := by
  obtain ⟨p, hp⟩ : ∃ p, p = data + ethHlen := ⟨_, rfl⟩
  obtain ⟨p', hp'⟩ : ∃ p', p' = data' + ethHlen := ⟨_, rfl⟩
  have hw : ∀ o, o = 0 ∨ o = 4 ∨ o = 6 ∨ o = 10 ∨ o = 12 ∨ o = 14 →
      le16 m' (p' + o) = le16 m (p + o) := fun o ho => by rw [hp, hp']; exact h.word ho
  have h0 : le16 m' p' = le16 m p := hw 0 (by omega)
  have httl : m' (p' + 8) = m (p + 8) := by
    rw [hp, hp', Nat.add_assoc, Nat.add_assoc]
    exact h.kept 22 (by omega) (by omega) (by omega) (by omega)
  have hproto : m' (p' + 8 + 1) = 47 := by rw [hp']; exact h.protocol
  have hlen := h.totLen
  have hdaddr := h.daddr
  rw [← hp, ← hp'] at hlen hdaddr ⊢
  -- the three words that differ, by their bytes
  have hw8 : le16 m' (p' + 8) = (m (p + 8)).toNat + 256 * 47 := by
    rw [le16, httl, hproto]
    rfl
  have hi8 : le16 m (p + 8) = (m (p + 8)).toNat + 256 * ipProtocol m p := rfl
  have hw2 : be16 m' (p' + 2) = (20 + be16 m (p + 2)) % 65536 := hlen
  rw [ipDaddr, ipDaddr, le32_eq_words, le32_eq_words, constructDestIp] at hdaddr
  rw [ipDaddr, le32_div]
  have hb := le16_lt m' (p' + 16); have hb' := le16_lt m (p + 16)
  have hb18 := le16_lt m' (p' + 18); have hb18' := le16_lt m (p + 18)
  have hprot := toNat_lt (m (p + 9))
  have h2 := toNat_lt (m (p + 2)); have h3 := toNat_lt (m (p + 2 + 1))
  have h2' := toNat_lt (m' (p' + 2)); have h3' := toNat_lt (m' (p' + 2 + 1))
  simp only [Nat.add_assoc, Nat.reduceAdd] at hdaddr ⊢
  -- `construct_dest_ip` changes the last octet only
  have hw16 : le16 m' (p' + 16) = le16 m (p + 16) := by omega
  have hw18 : le16 m' (p' + 18) = le16 m (p + 18) % 256 + 256 := by omega
  obtain ⟨e, hswap⟩ := swapped_add_twenty h3 h3' h2 hw2
  change le16 m' (p' + 2) + 65535 * e = le16 m (p + 2) + 256 * ite (ipTotLen m p + 20 < 65536) 20 19
    at hswap
  have hsum : headerSum m' p' + (le16 m (p + 2) + 256 * ipProtocol m p + le16 m (p + 18)) =
      headerSum m p + (le16 m' (p' + 2) + 256 * 47 + (le16 m (p + 18) % 256 + 256)) := by
    unfold headerSum
    rw [h0, hw 4 (by omega), hw 6 (by omega), hw 12 (by omega), hw 14 (by omega), hw8, hi8, hw16,
      hw18]
    omega
  have hprot' : ipProtocol m p < 256 := hprot
  refine modEq_iff_of_words (e := e) (by omega) (by split <;> omega) ?_
  by_cases hwrap : ipTotLen m p + 20 < 65536
  · rw [if_pos hwrap] at hswap ⊢
    omega
  · rw [if_neg hwrap] at hswap ⊢
    omega

/-- The copied checksum fits the outer header by coincidence only: for TCP to the host .62, say. -/
theorem OuterFrom.checksum_iff (h : OuterFrom m m' data data') (hihl : ipIhl m (data + ethHlen) = 5)
    (hok : ChecksumOk m (data + ethHlen)) :
    ChecksumOk m' (data' + ethHlen) ↔
      ipProtocol m (data + ethHlen) + ipDaddr m (data + ethHlen) / 16777216 =
        if ipTotLen m (data + ethHlen) + 20 < 65536 then 68 else 67 := by
  have hpos : ∀ {m : Mem} {p : ℕ}, ipIhl m p = 5 → 0 < headerSum m p := fun {m p} hp => by
    unfold ipIhl at hp
    unfold headerSum le16
    omega
  have hihl' : ipIhl m' (data' + ethHlen) = 5 := h.ihl_eq.trans hihl
  have hcheck : ipCheck m' (data' + ethHlen) = ipCheck m (data + ethHlen) := h.word (by omega)
  have hlt := fold_lt (headerSum m (data + ethHlen))
  have hlt' := fold_lt (headerSum m' (data' + ethHlen))
  -- equal checksums are equal folds, and these are sums modulo 65535
  rw [← h.headerSum_modEq_iff, ← fold_eq_iff (hpos hihl') (hpos hihl), checksumOk_iff hihl',
    hcheck, (checksumOk_iff hihl).1 hok]
  omega

end HeaderSum

/-! ### The whole way -/

/-- **The outer header never describes the frame**: its `tot_len` counts the Ethernet and the GRE
header but not itself, whatever nodes the frame has passed. -/
theorem outer_header_wrong {m m₁ m₂ : Mem} {data data₂ len addr : ℕ} {g : Globals}
    {destIndex newLen : ℤ} {topo : ℕ} (hin : ValidInner m data len)
    (hdata : addOffsetToAddr (addr + encapSize) = data + encapSize)
    (h : encapVeth g destIndex topo m data len addr = .ok (m₁, newLen))
    (hway : Onward (len + encapSize) m₁ data m₂ data₂) :
    newLen = (len + encapSize : ℕ) ∧
      ipIhl m₂ (data₂ + ethHlen) = ipIhl m (data + ethHlen) ∧
      ipTotLen m₂ (data₂ + ethHlen) = (len + 6) % 65536 ∧
      ¬ OuterOk m₂ data₂ (len + encapSize) := by
  have hoff : encapSize = 40 := rfl
  have hsize : ethHlen = 14 := rfl
  have hihl := hin.ihl
  have hfits := hin.fits
  have hlen := hin.totLen
  have htot : ipTotLen m (data + ethHlen) < 65536 := be16_lt _ _
  obtain ⟨hnew, -⟩ := encapVeth_inv hdata h
  have hmade : OuterFrom m m₁ data data := encapVeth_outer (by omega) hdata h
  have hend : OuterFrom m m₂ data data₂ := hway.outer (by omega) hmade
  have htot₂ : ipTotLen m₂ (data₂ + ethHlen) = (len + 6) % 65536 := by
    rw [hend.totLen]
    congr 1
    omega
  -- `tot_len` is 20 short, also when it wraps
  refine ⟨?_, hend.ihl_eq, htot₂, fun hok => ?_⟩
  · rw [hnew, Nat.mod_eq_of_lt (by omega), toInt32, if_pos (by omega)]
  · have := hok.totLen
    omega

/-- 34 bytes with a correct checksum. -/
def smallMem : Mem := store (fun _ => 0) 0
  [1, 2, 3, 4, 5, 6, 7, 8, 9, 10, 11, 12, 8, 0,
    69, 0, 0, 20, 0, 0, 0, 0, 64, 6, 101, 220, 10, 0, 1, 2, 10, 0, 0, 7]

theorem smallMem_valid : ValidInner smallMem 0 34 where
  version := by decide
  ihl := by decide
  fits := by decide
  totLen := by decide
  check := by
    rw [checksumOk_iff (by decide), show headerSum smallMem (0 + ethHlen) = 9114 by decide,
      fold_of_lt (by omega)]
    decide

theorem outer_header_wrong_small :
    ∃ m₁ m₂, encapVeth (smallGlobals 0) 2 1 smallMem 0 34 0 = .ok (m₁, 74) ∧
      Onward 74 m₁ 0 m₂ 0 ∧ ¬ OuterOk m₂ 0 74 := by
  obtain ⟨m₁, h₁⟩ : ∃ m₁, encapVeth (smallGlobals 0) 2 1 smallMem 0 34 0 = .ok (m₁, 74) := ⟨_, rfl⟩
  obtain ⟨m₂, h₂⟩ : ∃ m₂, encapIndirection (smallGlobals 0) 2 1 m₁ 0 = .ok m₂ := ⟨_, rfl⟩
  have hway : Onward 74 m₁ 0 m₂ 0 := .redirected .start h₂
  exact ⟨m₁, m₂, h₁, hway, (outer_header_wrong smallMem_valid rfl h₁ hway).2.2.2⟩

/-- 40 where the frame has 60 bytes behind its Ethernet header. -/
theorem outer_header_wrong_forty :
    ValidInner smallMem 0 34 ∧ ∃ m₁, encapVeth (smallGlobals 0) 2 1 smallMem 0 34 0 = .ok (m₁, 74) ∧
      ipTotLen m₁ ethHlen = 40 ∧ ¬ OuterOk m₁ 0 (34 + encapSize) := by
  refine ⟨smallMem_valid, _, rfl, by decide, fun hok => ?_⟩
  exact absurd hok.totLen (by decide)

end RotorXdp
