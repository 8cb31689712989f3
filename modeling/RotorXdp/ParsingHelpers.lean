import RotorXdp.Lib.Cursor
import RotorXdp.OuterHeader

/-!
# The parsing helpers of the kernel programs

`parsing_helpers.h`, which every program that runs in the kernel includes. A helper parses one
header from the cursor on, and answers with the type of what the header carries, or with its length.
`parse_ethhdr` skips up to two VLAN tags.

* `Helper`, `Helper.parse`: the helpers;
* `helpers_stay_inside`: programs made of them stay inside the frame;
* `Tagged`, `parse_ethhdr_vlan_iff`: the frames that `parse_ethhdr_vlan` takes apart, and how.
-/

namespace RotorXdp

open Bytes Cursor Function

/-! ### The helpers -/

/-- `sizeof` of `struct vlan_hdr`, `ipv6hdr`, `icmphdr`, `icmphdr_common`, `udphdr` and `tcphdr`. -/
def vlanHdrLen : ℕ := 4
def ipv6hdrLen : ℕ := 40
def icmphdrLen : ℕ := 8
def icmphdrCommonLen : ℕ := 4
def udphdrLen : ℕ := 8
def tcphdrLen : ℕ := 20

/-- `VLAN_MAX_DEPTH`. -/
def vlanMaxDepth : ℕ := 2

/-- `VLAN_VID_MASK`, as the number of identifiers. -/
def vlanVids : ℕ := 0x1000

def ethP8021Q : ℕ := 0x8100
def ethP8021AD : ℕ := 0x88A8

/-- `proto_is_vlan`. -/
def protoIsVlan (hProto : ℕ) : Bool := hProto == ethP8021Q || hProto == ethP8021AD

/-- The variables of the loop of `parse_ethhdr_vlan`. -/
structure VlanLoop where
  hProto : ℕ
  vlh : ℕ
  vlans : Option (ℕ → ℕ)

/-- The loop from round `i` on, with `n` rounds left. -/
def vlanLoop (m : Mem) (dataEnd : ℕ) : ℕ → ℕ → VlanLoop → VlanLoop
  | 0, _, s => s
  | n + 1, i, s =>
    if !protoIsVlan s.hProto then s
    else if dataEnd < s.vlh + vlanHdrLen then s
    else vlanLoop m dataEnd n (i + 1)
      { hProto := be16 m (s.vlh + 2)
        vlh := s.vlh + vlanHdrLen
        vlans := s.vlans.map fun ids => update ids i (be16 m s.vlh % vlanVids) }

/-- `parse_ethhdr_vlan`, with the identifiers that are collected. It returns the protocol as it
stands in the frame; `ret` is `bpf_ntohs` of that. -/
def parseEthhdrVlan (m : Mem) (pos dataEnd : ℕ) (vlans : Option (ℕ → ℕ)) :
    Parsed × Option (ℕ → ℕ) :=
  if dataEnd < pos + ethHlen then (fail pos, vlans)
  else
    let s := vlanLoop m dataEnd vlanMaxDepth 0 ⟨hProto m pos, pos + ethHlen, vlans⟩
    (⟨s.hProto, some pos, s.vlh⟩, s.vlans)

/-- `parse_ethhdr`. -/
def parseEthhdr : Parser := fun m pos dataEnd => (parseEthhdrVlan m pos dataEnd none).1

/-- `parse_ip6hdr`: `nexthdr`. -/
def parseIp6hdr : Parser := fixed ipv6hdrLen fun m pos => (m (pos + 6)).toNat

/-- `parse_iphdr`: the header says its length, and what it carries. -/
def parseIphdr : Parser :=
  sized iphdrLen (fun m pos => ipIhl m pos * 4) fun m pos => ipProtocol m pos

/-- `parse_icmp6hdr`, `parse_icmphdr` and `parse_icmphdr_common`: the type. -/
def parseIcmp6hdr : Parser := fixed icmphdrLen fun m pos => (m (pos + 0)).toNat
def parseIcmphdr : Parser := fixed icmphdrLen fun m pos => (m (pos + 0)).toNat
def parseIcmphdrCommon : Parser := fixed icmphdrCommonLen fun m pos => (m (pos + 0)).toNat

/-- `parse_udphdr`: the length of the payload. The cursor moves before the length is looked at. -/
def parseUdphdr : Parser := fixed udphdrLen fun m pos =>
  let len : ℤ := be16 m (pos + 4) - udphdrLen
  if len < 0 then -1 else len

/-- `doff` of the TCP header at `p`. -/
def tcpDoff (m : Mem) (p : ℕ) : ℕ := (m (p + 12)).toNat / 16

/-- `parse_tcphdr`: the length of the header. -/
def parseTcphdr : Parser :=
  sized tcphdrLen (fun m pos => tcpDoff m pos * 4) fun m pos => (tcpDoff m pos * 4 : ℕ)

/-- The helpers; `parse_ethhdr_vlan` is handed the identifiers collected so far. -/
inductive Helper
  | ethhdrVlan (vlans : Option (ℕ → ℕ))
  | ethhdr
  | ip6hdr
  | iphdr
  | icmp6hdr
  | icmphdr
  | icmphdrCommon
  | udphdr
  | tcphdr

def Helper.parse : Helper → Collector (Option (ℕ → ℕ))
  | .ethhdrVlan vlans => fun m pos dataEnd => parseEthhdrVlan m pos dataEnd vlans
  | .ethhdr => silent parseEthhdr none
  | .ip6hdr => silent parseIp6hdr none
  | .iphdr => silent parseIphdr none
  | .icmp6hdr => silent parseIcmp6hdr none
  | .icmphdr => silent parseIcmphdr none
  | .icmphdrCommon => silent parseIcmphdrCommon none
  | .udphdr => silent parseUdphdr none
  | .tcphdr => silent parseTcphdr none

/-- The size of the structure that a helper hands out. -/
def Helper.size : Helper → ℕ
  | .ethhdrVlan _ => ethHlen
  | .ethhdr => ethHlen
  | .ip6hdr => ipv6hdrLen
  | .iphdr => iphdrLen
  | .icmp6hdr => icmphdrLen
  | .icmphdr => icmphdrLen
  | .icmphdrCommon => icmphdrCommonLen
  | .udphdr => udphdrLen
  | .tcphdr => tcphdrLen

/-! ### Inside the frame -/

section Inside

variable {m m' : Mem} {pos dataEnd n i : ℕ} {s : VlanLoop}

/-- The loop moves forward, up to the end of the data. -/
theorem vlanLoop_moves (h : s.vlh ≤ dataEnd) :
    s.vlh ≤ (vlanLoop m dataEnd n i s).vlh ∧ (vlanLoop m dataEnd n i s).vlh ≤ dataEnd := by
  induction n generalizing i s with
  | zero => exact ⟨Nat.le_refl _, h⟩
  | succ n ih =>
    rw [vlanLoop]
    split_ifs with hproto hend
    · exact ⟨Nat.le_refl _, h⟩
    · exact ⟨Nat.le_refl _, h⟩
    · obtain ⟨h1, h2⟩ := ih (i := i + 1)
        (s := ⟨be16 m (s.vlh + 2), s.vlh + vlanHdrLen, s.vlans.map fun ids =>
          update ids i (be16 m s.vlh % vlanVids)⟩) (Nat.le_of_not_lt hend)
      exact ⟨Nat.le_trans (Nat.le_add_right _ _) h1, h2⟩

theorem vlanLoop_congr (h : SameOn m m' s.vlh dataEnd) :
    vlanLoop m dataEnd n i s = vlanLoop m' dataEnd n i s := by
  induction n generalizing i s with
  | zero => rfl
  | succ n ih =>
    rw [vlanLoop, vlanLoop]
    split_ifs with hproto hend
    · rfl
    · rfl
    · have hsame : SameOn m m' s.vlh (s.vlh + vlanHdrLen) :=
        h.mono (Nat.le_refl _) (Nat.le_of_not_lt hend)
      have htci : be16 m s.vlh = be16 m' s.vlh := hsame.be16 (o := 0) (by decide)
      have hproto : be16 m (s.vlh + 2) = be16 m' (s.vlh + 2) := hsame.be16 (by decide)
      rw [htci, hproto]
      exact ih (h.mono (Nat.le_add_right _ _) (Nat.le_refl _))

theorem parseEthhdrVlan_collects (vlans : Option (ℕ → ℕ)) :
    Collects ethHlen fun m pos dataEnd => parseEthhdrVlan m pos dataEnd vlans := by
  have hcongr : ∀ {m m' pos dataEnd}, SameOn m m' pos dataEnd →
      parseEthhdrVlan m pos dataEnd vlans = parseEthhdrVlan m' pos dataEnd vlans := by
    intro m m' pos dataEnd h
    unfold parseEthhdrVlan
    split
    · rfl
    · rename_i hfit
      have hsame := h.mono (Nat.le_refl pos) (show pos + ethHlen ≤ dataEnd by omega)
      have hproto : hProto m pos = hProto m' pos := hsame.be16 (by decide)
      rw [hproto, vlanLoop_congr (h.mono (Nat.le_add_right _ _) (Nat.le_refl _))]
  refine ⟨⟨fun h => congrArg Prod.fst (hcongr h), ?_, ?_⟩, hcongr⟩
  · intro m pos dataEnd h
    unfold parseEthhdrVlan at h ⊢
    split at h
    · rw [if_pos ‹_›]
      exact ⟨rfl, rfl⟩
    · exact absurd h (by simp)
  · intro m pos dataEnd q h
    unfold parseEthhdrVlan at h ⊢
    split at h
    · exact absurd h (by simp [fail])
    · rename_i hfit
      rw [if_neg hfit]
      obtain ⟨h1, h2⟩ := vlanLoop_moves (m := m) (n := vlanMaxDepth) (i := 0)
        (s := ⟨hProto m pos, pos + ethHlen, vlans⟩) (Nat.le_of_not_lt hfit)
      exact ⟨(Option.some.inj h).symm, h1, h2⟩

theorem readsBelow_byte {size o : ℕ} (ho : o < size) :
    ReadsBelow size fun m pos => ((m (pos + o)).toNat : ℤ) :=
  fun m m' pos h => by simp only [h.byte ho]

/-- **Every helper stays between the cursor and the end of the data.** -/
theorem Helper.collects (h : Helper) : Collects h.size h.parse := by
  have hdoff : ReadsBelow tcphdrLen fun m pos => tcpDoff m pos * 4 := fun m m' pos h => by
    simp only [tcpDoff, h.byte (show 12 < tcphdrLen by decide)]
  cases h with
  | ethhdrVlan vlans => exact parseEthhdrVlan_collects vlans
  | ethhdr => exact (parseEthhdrVlan_collects none).guarded.silent none
  | ip6hdr => exact (fixed_guarded (readsBelow_byte (by decide))).silent none
  | iphdr =>
    refine (sized_guarded (fun m m' pos h => ?_) (readsBelow_byte (by decide))).silent none
    have hbyte := h.byte (show 0 < iphdrLen by decide)
    rw [Nat.add_zero] at hbyte
    simp only [ipIhl, hbyte]
  | icmp6hdr => exact (fixed_guarded (readsBelow_byte (by decide))).silent none
  | icmphdr => exact (fixed_guarded (readsBelow_byte (by decide))).silent none
  | icmphdrCommon => exact (fixed_guarded (readsBelow_byte (by decide))).silent none
  | udphdr =>
    refine (fixed_guarded fun m m' pos h => ?_).silent none
    simp only [h.be16 (show 4 + 2 ≤ udphdrLen by decide)]
  | tcphdr =>
    refine (sized_guarded hdoff fun m m' pos h => ?_).silent none
    exact congrArg Nat.cast (hdoff m m' pos h)

end Inside

/-- **Programs made of the helpers stay inside the frame**, whatever they call next on what the
calls before have returned and collected: two frames with the same bytes are treated alike, every
header that is handed out lies in the frame whole, and behind the headers handed out before it. -/
theorem helpers_stay_inside {R : Type*} (P : Program Helper (Option (ℕ → ℕ)) R) (m : Mem)
    (data len : ℕ) :
    (∀ m', SameOn m m' data (data + len) →
      P.run Helper.parse m (data + len) data = P.run Helper.parse m' (data + len) data) ∧
    (∀ c ∈ (P.run Helper.parse m (data + len) data).1,
      data ≤ c.got.pos ∧ c.got.pos ≤ data + len ∧
      ∀ q, c.got.hdr = some q → data ≤ q ∧ q + c.parser.size ≤ c.got.pos) ∧
    (P.run Helper.parse m (data + len) data).1.Pairwise fun c d =>
      c.got.pos ≤ d.got.pos ∧ ∀ q, d.got.hdr = some q → c.got.pos ≤ q := by
  have hdata : data ≤ data + len := Nat.le_add_right _ _
  obtain ⟨hall, hpair⟩ := P.inside Helper.collects m hdata
  exact ⟨fun m' h => P.congr Helper.collects hdata h, hall, hpair⟩

/-! ### Tagged frames -/

/-- A VLAN tag: the protocol number that announces it, and its control information. -/
structure VlanTag where
  tpid : ℕ
  tci : ℕ
  tpid_vlan : protoIsVlan tpid = true
  tci_lt : tci < 65536

def VlanTag.bytes (t : VlanTag) : List UInt8 := be16Bytes t.tpid ++ be16Bytes t.tci

/-- The bytes from the first protocol field on, up to the payload. -/
def typeBytes (tags : List VlanTag) (proto : ℕ) : List UInt8 :=
  tags.flatMap VlanTag.bytes ++ be16Bytes proto

/-- Nothing more is taken off behind `count` tags. -/
def StopsAt (depth count proto : ℕ) (payload : List UInt8) : Prop :=
  count = depth ∨ protoIsVlan proto = false ∨ payload.length < vlanHdrLen

/-- A frame is two addresses, the tags that are skipped, the protocol behind them, and the rest. -/
structure Tagged (bs : List UInt8) (tags : List VlanTag) (proto : ℕ) (payload : List UInt8) :
    Prop where
  bytes : ∃ addrs, addrs.length = 12 ∧ bs = addrs ++ (typeBytes tags proto ++ payload)
  proto_lt : proto < 65536
  depth : tags.length ≤ vlanMaxDepth
  stops : StopsAt vlanMaxDepth tags.length proto payload

/-- The identifiers of the tags from entry `i` on; the other entries stay. -/
def vlanIds (i : ℕ) (tags : List VlanTag) (ids : ℕ → ℕ) : ℕ → ℕ := fun j =>
  if j < i then ids j else (tags[j - i]?.map fun t => t.tci % vlanVids).getD (ids j)

section Tags

variable {m : Mem} {a n len proto : ℕ} {tags : List VlanTag} {payload : List UInt8}

theorem typeBytes_cons (t : VlanTag) (tags : List VlanTag) (proto : ℕ) :
    typeBytes (t :: tags) proto =
      be16Bytes t.tpid ++ (be16Bytes t.tci ++ typeBytes tags proto) := by
  simp only [typeBytes, List.flatMap_cons, VlanTag.bytes, List.append_assoc]

theorem length_typeBytes (tags : List VlanTag) (proto : ℕ) :
    (typeBytes tags proto).length = vlanHdrLen * tags.length + 2 := by
  induction tags with
  | nil => rfl
  | cons t tags ih =>
    simp only [typeBytes_cons, List.length_append, ih, length_be16Bytes, List.length_cons,
      vlanHdrLen]
    omega

theorem protoIsVlan_lt (h : protoIsVlan proto = true) : proto < 65536 := by
  simp only [protoIsVlan, Bool.or_eq_true, beq_iff_eq, ethP8021Q, ethP8021AD] at h
  omega

theorem vlanIds_nil (i : ℕ) (ids : ℕ → ℕ) : vlanIds i [] ids = ids := by
  funext j
  simp [vlanIds]

theorem vlanIds_cons (i : ℕ) (t : VlanTag) (tags : List VlanTag) (ids : ℕ → ℕ) :
    vlanIds (i + 1) tags (update ids i (t.tci % vlanVids)) = vlanIds i (t :: tags) ids := by
  funext j
  unfold vlanIds
  rcases Nat.lt_trichotomy j i with hlt | rfl | hgt
  · rw [if_pos (by omega), if_pos hlt, update_of_ne (by omega)]
  · rw [if_pos (by omega), if_neg (by omega), update_self, Nat.sub_self]
    rfl
  · rw [if_neg (by omega), if_neg (by omega), update_of_ne (by omega),
      show j - i = (j - (i + 1)) + 1 by omega, List.getElem?_cons_succ]

/-- The loop takes the tags off one by one. -/
theorem vlanLoop_tags {i : ℕ} (vlans : Option (ℕ → ℕ)) (hproto : proto < 65536)
    (hload : load m a (typeBytes tags proto ++ payload).length =
      typeBytes tags proto ++ payload)
    (hdepth : tags.length ≤ n) (hstop : StopsAt n tags.length proto payload) :
    vlanLoop m (a + (typeBytes tags proto ++ payload).length) n i
        ⟨be16 m a, a + 2, vlans⟩ =
      ⟨proto, a + 2 + vlanHdrLen * tags.length, vlans.map (vlanIds i tags)⟩ := by
  have hsize : vlanHdrLen = 4 := rfl
  induction tags generalizing n i a vlans with
  | nil =>
    have hfirst : be16 m a = proto := be16_of_load hproto (load_append hload).1
    have hids : vlans.map (vlanIds i []) = vlans := by
      rw [funext (vlanIds_nil i)]
      exact Option.map_id'
    rw [hfirst, hids]
    cases n with
    | zero => rfl
    | succ n =>
      rcases hstop with hcount | hvlan | hshort
      · exact absurd hcount (by simp)
      · rw [vlanLoop, if_pos (by simp only [hvlan]; rfl)]
        rfl
      · have hend : a + (typeBytes [] proto ++ payload).length < a + 2 + vlanHdrLen := by
          simp only [List.length_append, length_typeBytes, List.length_nil]
          omega
        rw [vlanLoop, if_pos hend, ite_self]
        rfl
  | cons t tags ih =>
    rw [typeBytes_cons, List.append_assoc, List.append_assoc] at hload
    obtain ⟨htpid, hload⟩ := load_append hload
    obtain ⟨htci, hload⟩ := load_append hload
    have hfirst : be16 m a = t.tpid := be16_of_load (protoIsVlan_lt t.tpid_vlan) htpid
    have hsecond : be16 m (a + 2) = t.tci := be16_of_load t.tci_lt htci
    cases n with
    | zero => exact absurd hdepth (by simp)
    | succ n =>
      have hlen : (typeBytes (t :: tags) proto ++ payload).length =
          4 + (typeBytes tags proto ++ payload).length := by
        simp only [List.length_append, length_typeBytes, List.length_cons, hsize]
        omega
      have hfit : ¬ a + (typeBytes (t :: tags) proto ++ payload).length <
          a + 2 + vlanHdrLen := by
        rw [hlen, List.length_append, length_typeBytes]
        omega
      rw [vlanLoop, if_neg (by simp only [hfirst, t.tpid_vlan]; decide), if_neg hfit]
      simp only [hsecond]
      rw [show a + (typeBytes (t :: tags) proto ++ payload).length =
        a + 2 + 2 + (typeBytes tags proto ++ payload).length by omega]
      rw [show a + 2 + vlanHdrLen = a + 2 + 2 + 2 by omega]
      refine (ih (a := a + 2 + 2) (n := n) (i := i + 1) _ hload (Nat.le_of_succ_le_succ hdepth)
        (hstop.imp_left Nat.succ.inj)).trans ?_
      rw [Option.map_map, List.length_cons, ← funext (vlanIds_cons i t tags)]
      refine congrArg₂ (fun v w => VlanLoop.mk proto v w) ?_ rfl
      rw [hsize]
      omega

/-- A block from which no tag is taken. -/
theorem exists_no_tags (m : Mem) (hlen : 2 ≤ len)
    (hn : n = 0 ∨ protoIsVlan (be16 m a) = false ∨ len < 2 + vlanHdrLen) :
    ∃ payload, load m a len = typeBytes [] (be16 m a) ++ payload ∧
      StopsAt n 0 (be16 m a) payload := by
  refine ⟨load m (a + 2) (len - 2), ?_, ?_⟩
  · rw [show len = 2 + (len - 2) by omega, load_add, load_two, Nat.add_sub_cancel_left]
    rfl
  · rcases hn with rfl | hvlan | hshort
    · exact .inl rfl
    · exact .inr (.inl hvlan)
    · refine .inr (.inr ?_)
      rw [load_length]
      omega

/-- Every block that starts with a protocol field is made of tags, a protocol and the rest. -/
theorem exists_tags (m : Mem) (n a len : ℕ) (hlen : 2 ≤ len) :
    ∃ tags proto payload, load m a len = typeBytes tags proto ++ payload ∧
      proto < 65536 ∧ tags.length ≤ n ∧ StopsAt n tags.length proto payload := by
  induction n generalizing a len with
  | zero =>
    obtain ⟨payload, hload, hstop⟩ := exists_no_tags (a := a) (n := 0) m hlen (.inl rfl)
    exact ⟨[], _, payload, hload, be16_lt m a, Nat.le_refl 0, hstop⟩
  | succ n ih =>
    by_cases hmore : protoIsVlan (be16 m a) = true ∧ 2 + vlanHdrLen ≤ len
    · obtain ⟨hvlan, hfit⟩ := hmore
      have hsize : vlanHdrLen = 4 := rfl
      obtain ⟨tags, proto, payload, hload, hlt, hdepth, hrest⟩ :=
        ih (a + 2 + 2) (len - 4) (by omega)
      refine ⟨⟨be16 m a, be16 m (a + 2), hvlan, be16_lt m _⟩ :: tags, proto, payload, ?_, hlt,
        Nat.succ_le_succ hdepth, hrest.imp_left (congrArg Nat.succ)⟩
      rw [typeBytes_cons, show len = 2 + (2 + (len - 4)) by omega, load_add, load_add, load_two,
        load_two, hload]
      simp only [List.append_assoc]
    · have hnone : protoIsVlan (be16 m a) = false ∨ len < 2 + vlanHdrLen := by
        rcases Bool.eq_false_or_eq_true (protoIsVlan (be16 m a)) with hvlan | hvlan
        · exact .inr (Nat.lt_of_not_le fun h => hmore ⟨hvlan, h⟩)
        · exact .inl hvlan
      obtain ⟨payload, hload, hstop⟩ := exists_no_tags (n := n + 1) m hlen (.inr hnone)
      exact ⟨[], _, payload, hload, be16_lt m a, Nat.zero_le _, hstop⟩

/-- Two addresses come first. -/
theorem load_addresses (m : Mem) (pos : ℕ) (hlen : ethHlen ≤ len) :
    load m pos len = load m pos 12 ++ load m (pos + 12) (len - 12) := by
  have hsize : ethHlen = 14 := rfl
  rw [← load_add, Nat.add_sub_cancel' (by omega)]

/-- **How `parse_ethhdr_vlan` takes a frame apart.** A frame shorter than an Ethernet header fails.
Every other frame is two addresses, at most two tags, the protocol behind them and the rest; the
cursor is moved to the rest, the protocol is returned and the identifiers of the tags are
collected. -/
theorem parse_ethhdr_vlan_iff (m : Mem) (pos len : ℕ) (vlans : Option (ℕ → ℕ))
    (r : Parsed × Option (ℕ → ℕ)) :
    parseEthhdrVlan m pos (pos + len) vlans = r ↔
      (len < ethHlen ∧ r = (fail pos, vlans)) ∨
      ∃ tags proto payload, Tagged (load m pos len) tags proto payload ∧
        r = (⟨proto, some pos, pos + ethHlen + vlanHdrLen * tags.length⟩,
          vlans.map (vlanIds 0 tags)) := by
  have hsize : ethHlen = 14 := rfl
  have htagged : ∀ {tags proto payload}, Tagged (load m pos len) tags proto payload →
      parseEthhdrVlan m pos (pos + len) vlans =
        (⟨proto, some pos, pos + ethHlen + vlanHdrLen * tags.length⟩,
          vlans.map (vlanIds 0 tags)) := by
    rintro tags proto payload ⟨⟨addrs, haddrs, hbytes⟩, hlt, hdepth, hstop⟩
    have hlength := congrArg List.length hbytes
    rw [load_length, List.length_append, haddrs] at hlength
    have htype : 2 ≤ (typeBytes tags proto ++ payload).length := by
      rw [List.length_append, length_typeBytes]
      omega
    have hload : load m (pos + 12) (typeBytes tags proto ++ payload).length =
        typeBytes tags proto ++ payload := by
      rw [load_addresses m pos (by omega)] at hbytes
      have hrest := (List.append_inj hbytes (by rw [load_length, haddrs])).2
      rwa [show len - 12 = (typeBytes tags proto ++ payload).length by omega] at hrest
    have hloop := vlanLoop_tags (i := 0) vlans hlt hload hdepth hstop
    rw [parseEthhdrVlan, if_neg (by omega),
      show pos + len = pos + 12 + (typeBytes tags proto ++ payload).length by omega,
      show pos + ethHlen = pos + 12 + 2 by omega]
    simp only [hProto, hloop]
  constructor
  · rintro rfl
    by_cases hshort : len < ethHlen
    · refine .inl ⟨hshort, ?_⟩
      rw [parseEthhdrVlan, if_pos (by omega)]
    · obtain ⟨tags, proto, payload, hload, hlt, hdepth, hstop⟩ :=
        exists_tags m vlanMaxDepth (pos + 12) (len - 12) (by omega)
      have htag : Tagged (load m pos len) tags proto payload :=
        ⟨⟨load m pos 12, load_length _ _ _, by
          rw [load_addresses m pos (Nat.le_of_not_lt hshort), hload]⟩, hlt, hdepth, hstop⟩
      exact .inr ⟨tags, proto, payload, htag, htagged htag⟩
  · rintro (⟨hshort, rfl⟩ | ⟨tags, proto, payload, htag, rfl⟩)
    · rw [parseEthhdrVlan, if_pos (by omega)]
    · exact htagged htag

end Tags

end RotorXdp
