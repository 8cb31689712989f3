import RotorXdp.Tunnel
import RotorXdp.Wiring

/-!
# Frames from the NIC

The loop body of `thread_func_nic`. One result record serves all frames of all bursts: a burst
resets two of its fields, and `get_queue_index_for_nic_rx` returns without writing it on a frame
that it rejects. The record's `new_len` is at once the length of a delivered frame and the mark
of a forwarded one.

* `nicFrame`, `nicFrames`, `nicBursts`: one frame, a burst, the bursts since the thread started;
* `DecidedByFrame`: what becomes of a frame is decided by the frame alone;
* `decidedByFrame_iff`: the frames for which it is.
-/

namespace RotorXdp

open Bytes

/-- A received frame: the descriptor and the memory as it stands in the frame's own chunk. -/
structure Frame where
  addr : ℕ
  len : ℕ
  len_lt : len < 4294967296
  umem : Mem

/-- Where the frame starts. -/
def Frame.data (f : Frame) : ℕ := addOffsetToAddr f.addr

/-- The frame passes the checks of the receive side. -/
def Frame.passesChecks (f : Frame) : Prop := RotorXdp.passesChecks f.umem f.data

instance (f : Frame) : Decidable f.passesChecks :=
  inferInstanceAs (Decidable (RotorXdp.passesChecks _ _))

/-- The destination addresses of the outer and of the inner IPv4 header. -/
def Frame.outerDaddr (f : Frame) : ℕ := ipDaddr f.umem (f.data + ethHlen)
def Frame.innerDaddr (f : Frame) : ℕ := ipDaddr f.umem (f.data + innerIp)

/-- The destination address of a frame from a namespace. -/
def Frame.daddr (f : Frame) : ℕ := ipDaddr f.umem (f.data + ethHlen)

/-! The checks and the addresses depend on the bytes they are read from. -/

theorem Frame.passesChecks_congr {f f' : Frame}
    (h : ∀ o < innerIp, f.umem (f.data + o) = f'.umem (f'.data + o)) :
    f.passesChecks ↔ f'.passesChecks := by
  have hsize : innerIp = 54 := rfl
  rw [hsize] at h
  have hbe : ∀ o, o + 2 ≤ 54 → be16 f.umem (f.data + o) = be16 f'.umem (f'.data + o) :=
    fun o ho => be16_congr fun i hi => by
      rw [Nat.add_assoc, Nat.add_assoc]
      exact h (o + i) (by omega)
  have h1 : hProto f.umem f.data = hProto f'.umem f'.data := hbe 12 (by omega)
  have h2 : ipProtocol f.umem (f.data + ethHlen) = ipProtocol f'.umem (f'.data + ethHlen) :=
    congrArg UInt8.toNat (h 23 (by omega))
  have h3 : greProto f.umem (f.data + ethHlen + iphdrLen) =
      greProto f'.umem (f'.data + ethHlen + iphdrLen) := hbe 36 (by omega)
  have h4 : hProto f.umem (f.data + innerEth) = hProto f'.umem (f'.data + innerEth) :=
    hbe 52 (by omega)
  unfold Frame.passesChecks RotorXdp.passesChecks
  rw [h1, h2, h3, h4]

theorem Frame.outerDaddr_congr {f f' : Frame}
    (h : ∀ o < ethHlen + iphdrLen, f.umem (f.data + o) = f'.umem (f'.data + o)) :
    f.outerDaddr = f'.outerDaddr :=
  le32_congr fun i hi => by
    have hsize : ethHlen + iphdrLen = 34 := rfl
    have ho := h (ethHlen + 16 + i) (by have : ethHlen = 14 := rfl; omega)
    simpa only [Nat.add_assoc] using ho

theorem Frame.innerDaddr_congr {f f' : Frame}
    (h : ∀ o < innerIp + iphdrLen, f.umem (f.data + o) = f'.umem (f'.data + o)) :
    f.innerDaddr = f'.innerDaddr :=
  le32_congr fun i hi => by
    have ho := h (innerIp + 16 + i) (by have : iphdrLen = 20 := rfl; omega)
    simpa only [Nat.add_assoc] using ho

/-- What becomes of a received frame. -/
inductive Verdict
  /-- offered to a non-local queue with a length -/
  | nonLocal (queue : ℕ) (len : ℕ)
  /-- offered to a veth queue with a length -/
  | veth (queue : ℕ) (len : ℤ)
  /-- the queue pointer is `NULL`: nothing is done -/
  | noQueue
  /-- the buffer is given back to the cache of the port -/
  | dropped
  deriving DecidableEq

/-- The local arrays of `thread_func_nic`, filled up to their bounds. -/
structure NicLocals where
  nonLocalDestQueue : ℕ → Option ℕ
  vethSideQueue : ℕ → Option ℕ
  vethPortCount : ℕ

/-- `struct mpmc_queue *veth_side_queue[13]`. -/
def vethSideQueueSize : ℕ := 13

/-- The start of `thread_func_nic`: more namespaces than entries overrun `veth_side_queue`. -/
def nicLocals (t : ThreadData) (v : ℕ) : Except Fault NicLocals :=
  if vethSideQueueSize < v then .error .outOfBounds
  else .ok ⟨t.nonLocalDestQueueArray, t.vethSideQueueArray, v⟩

/-- `a[i]` of a local array of which the first `n` entries are initialised. -/
def readEntry (a : ℕ → Option ℕ) (n : ℕ) (i : ℤ) : Except Fault (Option ℕ) :=
  if 0 ≤ i ∧ i < n then .ok (a i.toNat) else .error .outOfBounds

/-- The queue for a frame of length `len` under the result record. -/
def nicDispatch (t : NicLocals) (ret : ReturnProcessRx) (len : ℕ) : Except Fault Verdict :=
  if ret.newLen = 1 then
    match readEntry t.nonLocalDestQueue numOfPerDestQueues ret.ringBufIndex with
    | .error e => .error e
    | .ok none => .ok .noQueue
    | .ok (some q) => .ok (.nonLocal q len)
  else
    match readEntry t.vethSideQueue t.vethPortCount ret.whichVeth with
    | .error e => .error e
    | .ok none => .ok .noQueue
    | .ok (some q) => .ok (.veth q ret.newLen)

/-- One frame of a burst: the memory, the result record and the verdict. -/
def nicFrame (g : Globals) (t : NicLocals) (ret : ReturnProcessRx) (f : Frame) :
    Except Fault (Mem × ReturnProcessRx × Verdict) :=
  match getQueueIndexForNicRx g g.nicIface f.umem f.data f.len f.addr ret with
  | .error e => .error e
  | .ok (m, ret) =>
    match nicDispatch t ret f.len with
    | .error e => .error e
    | .ok verdict => .ok (m, ret, verdict)

/-- The frames of a burst in turn. -/
def nicFrames (g : Globals) (t : NicLocals) :
    ReturnProcessRx → List Frame → Except Fault (ReturnProcessRx × List Verdict)
  | ret, [] => .ok (ret, [])
  | ret, f :: fs =>
    match nicFrame g t ret f with
    | .error e => .error e
    | .ok (_, ret, verdict) =>
      match nicFrames g t ret fs with
      | .error e => .error e
      | .ok (ret, verdicts) => .ok (ret, verdict :: verdicts)

/-- The record at the start of a burst. -/
def ReturnProcessRx.reset (ret : ReturnProcessRx) : ReturnProcessRx :=
  { ret with newLen := 0, ringBufIndex := 0 }

/-- The record as `calloc` returns it. -/
def ReturnProcessRx.zero : ReturnProcessRx := ⟨0, 0, 0⟩

/-- Burst after burst. -/
def nicBursts (g : Globals) (t : NicLocals) :
    ReturnProcessRx → List (List Frame) → Except Fault (ReturnProcessRx × List (List Verdict))
  | ret, [] => .ok (ret, [])
  | ret, fs :: bs =>
    match nicFrames g t ret.reset fs with
    | .error e => .error e
    | .ok (ret, verdicts) =>
      match nicBursts g t ret bs with
      | .error e => .error e
      | .ok (ret, out) => .ok (ret, verdicts :: out)

/-- The record may be `ret` when the thread turns to a frame: after any bursts and any frames
before it in its own burst. -/
def RecordReached (g : Globals) (t : NicLocals) (ret : ReturnProcessRx) : Prop :=
  ∃ bs before ret₀ out verdicts, nicBursts g t .zero bs = .ok (ret₀, out) ∧
    nicFrames g t ret₀.reset before = .ok (ret, verdicts)

/-- What becomes of `f` on NIC RX thread `i` is decided by `f` alone. -/
structure DecidedByFrame (g : Globals) (n v i : ℕ) (f : Frame) (t : NicLocals) : Prop where
  start : nicLocals (wiring n v numOfPerDestQueues (n + i)) v = .ok t
  handled : ∀ ret, RecordReached g t ret → ∃ r, nicFrame g t ret f = .ok r
  nonLocal : ∀ ret m ret' verdict, RecordReached g t ret →
    nicFrame g t ret f = .ok (m, ret', verdict) →
    ((∃ q len, verdict = .nonLocal q len) ↔ f.passesChecks ∧ f.outerDaddr ≠ g.srcIp)
  veth : ∀ ret m ret' verdict, RecordReached g t ret →
    nicFrame g t ret f = .ok (m, ret', verdict) →
    ((∃ q len, verdict = .veth q len) ↔ f.passesChecks ∧ f.outerDaddr = g.srcIp)
  dropped : ∀ ret m ret' verdict, RecordReached g t ret →
    nicFrame g t ret f = .ok (m, ret', verdict) → (verdict = .dropped ↔ ¬ f.passesChecks)
  same : ∀ ret₁ ret₂ m₁ m₂ ret₁' ret₂' verdict₁ verdict₂, RecordReached g t ret₁ →
    RecordReached g t ret₂ → nicFrame g t ret₁ f = .ok (m₁, ret₁', verdict₁) →
    nicFrame g t ret₂ f = .ok (m₂, ret₂', verdict₂) → verdict₁ = verdict₂

/-- The frames that are to be forwarded and can be. -/
def Frame.Forwardable (g : Globals) (f : Frame) : Prop :=
  ∃ p, mgMapGet g.ipTable (constructDestIp f.innerDaddr) = some p ∧
    1 ≤ ipSetIndex g.ipTable p ∧ ipSetIndex g.ipTable p ≤ numOfPerDestQueues

/-- The frames that are to be delivered here and can be: the length without the outer headers is
neither negative nor the mark of a forwarded frame, and the last octet is a namespace's. -/
def Frame.Deliverable (v : ℕ) (f : Frame) : Prop :=
  innerEth ≤ f.len ∧ f.len < innerEth + 2147483648 ∧ f.len ≠ innerEth + 1 ∧
    2 ≤ fourthOctet f.innerDaddr ∧ fourthOctet f.innerDaddr < 2 + v

/-! ### One frame -/

variable {g : Globals} {n v i : ℕ} {f : Frame} {t : NicLocals} {ret : ReturnProcessRx}

theorem readEntry_eq_ok {a : ℕ → Option ℕ} {k : ℕ} {j : ℤ} {o : Option ℕ} :
    readEntry a k j = .ok o ↔ 0 ≤ j ∧ j < k ∧ a j.toNat = o := by
  unfold readEntry
  by_cases h : 0 ≤ j ∧ j < k
  · rw [if_pos h]
    simp [h.1, h.2]
  · rw [if_neg h]
    constructor
    · intro h'; exact absurd h' (by simp)
    · intro h'; exact absurd ⟨h'.1, h'.2.1⟩ h

/-- The local arrays as the set-up fills them. -/
def nicRxLocals (v : ℕ) : NicLocals where
  nonLocalDestQueue := Loops.filled (fun _ => none) some 0 numOfPerDestQueues
  vethSideQueue := Loops.filled (fun _ => none) some 0 v
  vethPortCount := v

theorem nicLocals_eq_ok (hi : i < n) :
    nicLocals (wiring n v numOfPerDestQueues (n + i)) v = .ok t ↔
      v ≤ vethSideQueueSize ∧ t = nicRxLocals v := by
  rw [nicLocals, wiring_nicRx hi]
  by_cases hv : vethSideQueueSize < v
  · rw [if_pos hv]
    constructor
    · intro h; exact absurd h (by simp)
    · rintro ⟨hle, -⟩; exact absurd hv (by omega)
  · rw [if_neg hv]
    constructor
    · rintro ⟨⟩; exact ⟨by omega, rfl⟩
    · rintro ⟨-, rfl⟩; rfl

theorem readEntry_nonLocal {j : ℤ} (h0 : 0 ≤ j) (h : j < numOfPerDestQueues) :
    readEntry (nicRxLocals v).nonLocalDestQueue numOfPerDestQueues j = .ok (some j.toNat) := by
  rw [readEntry_eq_ok]
  refine ⟨h0, h, ?_⟩
  show Loops.filled (fun _ => none) some 0 numOfPerDestQueues j.toNat = _
  rw [filled_some _ _ _ (by omega), Nat.zero_add]

theorem readEntry_veth {j : ℤ} (h0 : 0 ≤ j) (h : j < v) :
    readEntry (nicRxLocals v).vethSideQueue v j = .ok (some j.toNat) := by
  rw [readEntry_eq_ok]
  refine ⟨h0, h, ?_⟩
  show Loops.filled (fun _ => none) some 0 v j.toNat = _
  rw [filled_some _ _ _ (by omega), Nat.zero_add]

/-- No branch gives a buffer back before its frame has been offered to a queue. -/
theorem nicDispatch_ne_dropped {len : ℕ} : nicDispatch t ret len ≠ .ok .dropped := by
  unfold nicDispatch
  split <;> split <;> simp

theorem nicFrame_eq_ok {m : Mem} {ret' : ReturnProcessRx} {verdict : Verdict} :
    nicFrame g t ret f = .ok (m, ret', verdict) ↔
      getQueueIndexForNicRx g g.nicIface f.umem f.data f.len f.addr ret = .ok (m, ret') ∧
        nicDispatch t ret' f.len = .ok verdict := by
  unfold nicFrame
  cases hq : getQueueIndexForNicRx g g.nicIface f.umem f.data f.len f.addr ret with
  | error e => simp
  | ok r =>
    obtain ⟨m₁, ret₁⟩ := r
    cases hd : nicDispatch t ret₁ f.len with
    | error e =>
      simp only [hd, reduceCtorEq, Except.ok.injEq, Prod.mk.injEq, false_iff, not_and]
      rintro ⟨rfl, rfl⟩ h
      rw [hd] at h
      exact absurd h (by simp)
    | ok verdict₁ =>
      simp only [hd, Except.ok.injEq, Prod.mk.injEq]
      constructor
      · rintro ⟨rfl, rfl, rfl⟩; exact ⟨⟨rfl, rfl⟩, hd⟩
      · rintro ⟨⟨rfl, rfl⟩, h⟩
        rw [hd] at h
        exact ⟨rfl, rfl, Except.ok.inj h⟩

/-- The call on a frame, in the frame's own terms. -/
theorem getQueueIndexForNicRx_frame (g : Globals) (f : Frame) (ret : ReturnProcessRx) :
    getQueueIndexForNicRx g g.nicIface f.umem f.data f.len f.addr ret =
      if ¬ f.passesChecks then .ok (f.umem, ret)
      else if g.srcIp ≠ f.outerDaddr then
        match mgMapGet g.ipTable (constructDestIp f.innerDaddr) with
        | none => .error .nullDeref
        | some p =>
          .ok (f.umem, { ret with ringBufIndex := ipSetIndex g.ipTable p - 1, newLen := 1 })
      else
        let newLen := toInt32 ((f.len + 4294967296 - innerEth) % 4294967296)
        if newLen < 0 then .error .badLength
        else
          .ok (copy f.umem f.addr (f.addr + innerEth) newLen.toNat,
            { ret with whichVeth := fourthOctet f.innerDaddr - 2, newLen := newLen }) := by
  rw [getQueueIndexForNicRx, if_pos rfl]
  rfl

/-- A frame to be forwarded goes to the queue of its destination. -/
theorem nicFrame_forward (hchk : f.passesChecks) (hne : f.outerDaddr ≠ g.srcIp) {p : ℕ}
    (hp : mgMapGet g.ipTable (constructDestIp f.innerDaddr) = some p)
    (h1 : 1 ≤ ipSetIndex g.ipTable p) (h32 : ipSetIndex g.ipTable p ≤ numOfPerDestQueues)
    (v : ℕ) (ret : ReturnProcessRx) :
    nicFrame g (nicRxLocals v) ret f = .ok (f.umem,
      { ret with ringBufIndex := ipSetIndex g.ipTable p - 1, newLen := 1 },
      .nonLocal (ipSetIndex g.ipTable p - 1).toNat f.len) := by
  rw [nicFrame_eq_ok]
  refine ⟨getQueueIndexForNicRx_forward _ _ _ hchk (Ne.symm hne) hp, ?_⟩
  rw [nicDispatch, if_pos rfl]
  simp only
  rw [readEntry_nonLocal (by omega) (by omega)]

/-- What becomes of a frame for another node, when the call returns. -/
theorem nicFrame_remote (hchk : f.passesChecks) (hne : f.outerDaddr ≠ g.srcIp) {m : Mem}
    {ret' : ReturnProcessRx} {verdict : Verdict} (h : nicFrame g t ret f = .ok (m, ret', verdict)) :
    ∃ p o, mgMapGet g.ipTable (constructDestIp f.innerDaddr) = some p ∧
      readEntry t.nonLocalDestQueue numOfPerDestQueues (ipSetIndex g.ipTable p - 1) = .ok o ∧
      verdict = o.elim .noQueue fun q => .nonLocal q f.len := by
  obtain ⟨hq, hd⟩ := nicFrame_eq_ok.1 h
  cases hp : mgMapGet g.ipTable (constructDestIp f.innerDaddr) with
  | none =>
    rw [getQueueIndexForNicRx_frame, if_neg (not_not.2 hchk), if_pos (Ne.symm hne), hp] at hq
    cases hq
  | some p =>
    rw [getQueueIndexForNicRx_forward _ _ _ hchk (Ne.symm hne) hp] at hq
    cases hq
    rw [nicDispatch, if_pos rfl] at hd
    cases he : readEntry t.nonLocalDestQueue numOfPerDestQueues (ipSetIndex g.ipTable p - 1) with
    | error e =>
      rw [he] at hd
      cases hd
    | ok o =>
      rw [he] at hd
      refine ⟨p, o, rfl, he, ?_⟩
      cases o <;> exact (Except.ok.inj hd).symm

theorem forwardable_of_ok (hchk : f.passesChecks) (hne : f.outerDaddr ≠ g.srcIp)
    {r : Mem × ReturnProcessRx × Verdict} (h : nicFrame g t ret f = .ok r) :
    f.Forwardable g := by
  obtain ⟨p, o, hp, he, -⟩ := nicFrame_remote hchk hne h
  obtain ⟨h0, hlt, -⟩ := readEntry_eq_ok.1 he
  exact ⟨p, hp, by omega, by omega⟩

/-- The new length is the length without the outer headers when that is not negative. -/
theorem newLen_nonneg_iff (f : Frame) :
    0 ≤ toInt32 ((f.len + 4294967296 - innerEth) % 4294967296) ↔
      innerEth ≤ f.len ∧ f.len < innerEth + 2147483648 := by
  have hlt := f.len_lt
  have hoff : innerEth = 40 := rfl
  rw [hoff, toInt32]
  split <;> omega

/-- The call on a frame for this node. -/
theorem getQueueIndexForNicRx_local (hchk : f.passesChecks) (heq : f.outerDaddr = g.srcIp)
    (ret : ReturnProcessRx) :
    getQueueIndexForNicRx g g.nicIface f.umem f.data f.len f.addr ret =
      if innerEth ≤ f.len ∧ f.len < innerEth + 2147483648 then
        .ok (copy f.umem f.addr (f.addr + innerEth) (f.len - innerEth),
          { ret with
            whichVeth := fourthOctet f.innerDaddr - 2
            newLen := (f.len - innerEth : ℕ) })
      else .error .badLength := by
  rw [getQueueIndexForNicRx_frame, if_neg (not_not.2 hchk), if_neg (not_not.2 (Eq.symm heq))]
  by_cases hlen : innerEth ≤ f.len ∧ f.len < innerEth + 2147483648
  · rw [if_pos hlen]
    simp only [newLen_eq hlen.1 hlen.2]
    rw [if_neg (by omega), Int.toNat_natCast]
  · rw [if_neg hlen]
    have hneg := mt (newLen_nonneg_iff f).1 hlen
    simp only
    rw [if_pos (by omega)]

/-- A frame for this node goes to the veth queue of its last octet, moved down over its outer
headers. -/
theorem nicFrame_deliver (hchk : f.passesChecks) (heq : f.outerDaddr = g.srcIp)
    (hdel : f.Deliverable v) (ret : ReturnProcessRx) :
    nicFrame g (nicRxLocals v) ret f =
      .ok (copy f.umem f.addr (f.addr + innerEth) (f.len - innerEth),
        { ret with
          whichVeth := fourthOctet f.innerDaddr - 2
          newLen := (f.len - innerEth : ℕ) },
        .veth (fourthOctet f.innerDaddr - 2).toNat (f.len - innerEth : ℕ)) := by
  obtain ⟨hmin, hmax, hne, h2, hv⟩ := hdel
  rw [nicFrame_eq_ok, getQueueIndexForNicRx_local hchk heq, if_pos ⟨hmin, hmax⟩]
  refine ⟨rfl, ?_⟩
  have hmark : ((f.len - innerEth : ℕ) : ℤ) ≠ 1 := by omega
  rw [nicDispatch, if_neg hmark]
  have hread := readEntry_veth (v := v) (j := fourthOctet f.innerDaddr - 2) (by omega) (by omega)
  simp only
  rw [show (nicRxLocals v).vethPortCount = v from rfl, hread]

/-- What becomes of a frame for this node, when the call returns and the new length is not the mark
of a frame to be forwarded. -/
theorem nicFrame_local (hchk : f.passesChecks) (heq : f.outerDaddr = g.srcIp)
    (hmark : f.len ≠ innerEth + 1) {m : Mem} {ret' : ReturnProcessRx} {verdict : Verdict}
    (h : nicFrame g t ret f = .ok (m, ret', verdict)) :
    innerEth ≤ f.len ∧ f.len < innerEth + 2147483648 ∧ ∃ o,
      readEntry t.vethSideQueue t.vethPortCount (fourthOctet f.innerDaddr - 2) = .ok o ∧
      verdict = o.elim .noQueue fun q => .veth q (f.len - innerEth : ℕ) := by
  obtain ⟨hq, hd⟩ := nicFrame_eq_ok.1 h
  rw [getQueueIndexForNicRx_local hchk heq] at hq
  by_cases hlen : innerEth ≤ f.len ∧ f.len < innerEth + 2147483648
  · rw [if_pos hlen] at hq
    cases hq
    have hnew : ((f.len - innerEth : ℕ) : ℤ) ≠ 1 := by omega
    rw [nicDispatch, if_neg hnew] at hd
    simp only at hd
    cases he : readEntry t.vethSideQueue t.vethPortCount (fourthOctet f.innerDaddr - 2) with
    | error e =>
      rw [he] at hd
      cases hd
    | ok o =>
      rw [he] at hd
      refine ⟨hlen.1, hlen.2, o, rfl, ?_⟩
      cases o <;> exact (Except.ok.inj hd).symm
  · rw [if_neg hlen] at hq
    cases hq

/-- A frame for this node of one byte is not offered to a veth queue. -/
theorem len_ne_of_veth (hchk : f.passesChecks) (heq : f.outerDaddr = g.srcIp) {m : Mem}
    {ret' : ReturnProcessRx} {q : ℕ} {len : ℤ}
    (h : nicFrame g t ret f = .ok (m, ret', .veth q len)) : f.len ≠ innerEth + 1 := by
  intro hlen
  obtain ⟨hq, hd⟩ := nicFrame_eq_ok.1 h
  rw [getQueueIndexForNicRx_local hchk heq, if_pos (by omega)] at hq
  cases hq
  have hmark : ((f.len - innerEth : ℕ) : ℤ) = 1 := by omega
  -- taken for a frame to be forwarded
  rw [nicDispatch, if_pos hmark] at hd
  split at hd <;> cases hd

theorem deliverable_of_veth (hchk : f.passesChecks) (heq : f.outerDaddr = g.srcIp) {m : Mem}
    {ret' : ReturnProcessRx} {q : ℕ} {len : ℤ}
    (h : nicFrame g (nicRxLocals v) ret f = .ok (m, ret', .veth q len)) : f.Deliverable v := by
  have hne := len_ne_of_veth hchk heq h
  obtain ⟨hmin, hmax, o, he, -⟩ := nicFrame_local hchk heq hne h
  obtain ⟨h0, hlt, -⟩ := readEntry_eq_ok.1 he
  have hcount : (nicRxLocals v).vethPortCount = v := rfl
  rw [hcount] at hlt
  exact ⟨hmin, hmax, hne, by omega, by omega⟩

/-! ### The frames that are decided by themselves -/

theorem recordReached_zero (g : Globals) (t : NicLocals) : RecordReached g t .zero :=
  ⟨[], [], .zero, [], [], rfl, rfl⟩

/-- The record that the first frame of all leaves. -/
theorem recordReached_of_frame {m : Mem} {verdict : Verdict}
    (h : nicFrame g t .zero f = .ok (m, ret, verdict)) : RecordReached g t ret := by
  refine ⟨[], [f], .zero, [], [verdict], rfl, ?_⟩
  show nicFrames g t .zero [f] = _
  rw [nicFrames, h]
  rfl

theorem DecidedByFrame.of_const {r : Verdict} (hv : v ≤ vethSideQueueSize) (hi : i < n)
    (h : ∀ ret, ∃ m ret', nicFrame g (nicRxLocals v) ret f = .ok (m, ret', r))
    (hnonLocal : (∃ q len, r = .nonLocal q len) ↔ f.passesChecks ∧ f.outerDaddr ≠ g.srcIp)
    (hveth : (∃ q len, r = .veth q len) ↔ f.passesChecks ∧ f.outerDaddr = g.srcIp)
    (hdropped : r = .dropped ↔ ¬ f.passesChecks) :
    DecidedByFrame g n v i f (nicRxLocals v) := by
  have hr : ∀ {ret m ret' verdict}, nicFrame g (nicRxLocals v) ret f = .ok (m, ret', verdict) →
      verdict = r := by
    intro ret m ret' verdict hf
    obtain ⟨m₁, ret₁, h₁⟩ := h ret
    rw [h₁] at hf
    cases hf
    rfl
  refine ⟨(nicLocals_eq_ok hi).2 ⟨hv, rfl⟩, fun ret _ => ?_, ?_, ?_, ?_, ?_⟩
  · obtain ⟨m, ret', h'⟩ := h ret
    exact ⟨_, h'⟩
  · intro ret m ret' verdict _ hf
    rw [hr hf]; exact hnonLocal
  · intro ret m ret' verdict _ hf
    rw [hr hf]; exact hveth
  · intro ret m ret' verdict _ hf
    rw [hr hf]; exact hdropped
  · intro ret₁ ret₂ m₁ m₂ ret₁' ret₂' verdict₁ verdict₂ _ _ h₁ h₂
    rw [hr h₁, hr h₂]

/-- **What becomes of a frame is decided by the frame alone exactly when the frame passes the
checks and its lookup, its length and its last octet lead to a queue.** -/
theorem decidedByFrame_iff (g : Globals) (n v : ℕ) (i : Fin n) (f : Frame) :
    (∃ t, DecidedByFrame g n v i f t) ↔
      v ≤ vethSideQueueSize ∧ f.passesChecks ∧ (f.outerDaddr ≠ g.srcIp → f.Forwardable g) ∧
        (f.outerDaddr = g.srcIp → f.Deliverable v) := by
  constructor
  · rintro ⟨t, h⟩
    obtain ⟨hv, rfl⟩ := (nicLocals_eq_ok i.2).1 h.start
    obtain ⟨⟨m, ret', verdict⟩, hf⟩ := h.handled _ (recordReached_zero g _)
    have hnd : verdict ≠ .dropped := by
      rintro rfl
      exact nicDispatch_ne_dropped (nicFrame_eq_ok.1 hf).2
    have hchk : f.passesChecks := by
      by_contra hchk
      exact hnd ((h.dropped _ _ _ _ (recordReached_zero g _) hf).2 hchk)
    refine ⟨hv, hchk, fun hne => forwardable_of_ok hchk hne hf, fun heq => ?_⟩
    obtain ⟨q, len, rfl⟩ := (h.veth _ _ _ _ (recordReached_zero g _) hf).2 ⟨hchk, heq⟩
    exact deliverable_of_veth hchk heq hf
  · rintro ⟨hv, hchk, hfwd, hdel⟩
    refine ⟨nicRxLocals v, ?_⟩
    by_cases heq : f.outerDaddr = g.srcIp
    · refine .of_const hv i.2 (fun ret => ⟨_, _, nicFrame_deliver hchk heq (hdel heq) ret⟩) ?_ ?_ ?_
      · simp [heq]
      · simp [hchk, heq]
      · simp [hchk]
    · obtain ⟨p, hp, h1, h32⟩ := hfwd heq
      refine .of_const hv i.2
        (fun ret => ⟨_, _, nicFrame_forward hchk heq hp h1 h32 v ret⟩) ?_ ?_ ?_
      · simp [hchk, heq]
      · simp [heq]
      · simp [hchk]

/-! ### Two frames of one burst -/

/-- A frame of at most 2048 bytes at the start of the UMEM. -/
def frameOf (bs : List UInt8) (h : bs.length < 4294967296) : Frame :=
  ⟨0, bs.length, h, store (fun _ => 0) 0 bs⟩

/-- `smallFrame` in a UMEM. -/
def smallVethFrame : Frame := ⟨4096, 34, by decide, store (fun _ => 0) 4096 smallFrame.bytes⟩

/-- `smallFrame` in its tunnel, on its way to 10.0.0.1. -/
def tunnelledBytes : List UInt8 :=
  [6, 6, 6, 6, 6, 6, 2, 2, 2, 2, 2, 2, 8, 0,
    69, 0, 0, 40, 0, 0, 0, 0, 64, 47, 0, 0, 10, 0, 1, 2, 10, 0, 0, 1,
    0, 0, 101, 88, 0, 0] ++ smallFrame.bytes

theorem tunnelledBytes_length_lt : tunnelledBytes.length < 4294967296 := by decide

def tunnelledFrame : Frame := frameOf tunnelledBytes tunnelledBytes_length_lt

/-- `tunnelledFrame` with other addresses in both headers and another length. -/
def tunnelTo (outer inner : ℕ) {len : ℕ} (h : len < 4294967296) : Frame :=
  ⟨0, len, h, setLe32 (setLe32 (store (fun _ => 0) 0 tunnelledBytes) 30 outer) 70 inner⟩

section TunnelTo

variable (outer inner : ℕ) {len : ℕ} (h : len < 4294967296)

theorem tunnelTo_data : (tunnelTo outer inner h).data = 0 := by
  have hzero : addOffsetToAddr 0 = 0 := by decide
  exact hzero

theorem tunnelTo_passesChecks : (tunnelTo outer inner h).passesChecks := by
  rw [Frame.passesChecks, RotorXdp.passesChecks, tunnelTo_data]
  simp only [hProto, ipProtocol, greProto, ethHlen, iphdrLen, innerEth, greHdrLen, Nat.reduceAdd]
  rw [tunnelTo]
  simp (disch := omega) only [be16_setLe32_of_ne, setLe32_of_ne]
  decide

theorem tunnelTo_outerDaddr (ho : outer < 4294967296) :
    (tunnelTo outer inner h).outerDaddr = outer := by
  rw [Frame.outerDaddr, tunnelTo_data, ipDaddr, tunnelTo]
  simp only [ethHlen, Nat.reduceAdd]
  rw [le32_congr fun i hi => setLe32_of_ne _ _ (by omega), le32_setLe32, Nat.mod_eq_of_lt ho]

theorem tunnelTo_innerDaddr (hi : inner < 4294967296) :
    (tunnelTo outer inner h).innerDaddr = inner := by
  rw [Frame.innerDaddr, tunnelTo_data, ipDaddr, tunnelTo]
  simp only [innerIp, innerEth, ethHlen, iphdrLen, greHdrLen, Nat.reduceAdd]
  rw [le32_setLe32, Nat.mod_eq_of_lt hi]

end TunnelTo

/-- An IPv4 packet in a GRE tunnel without an Ethernet header of its own. `nic_kern` redirects it,
since it looks at the IPv4 protocol only. -/
def greFrame : Frame :=
  frameOf ([6, 6, 6, 6, 6, 6, 2, 2, 2, 2, 2, 2, 8, 0,
    69, 0, 0, 44, 0, 0, 0, 0, 64, 47, 0, 0, 10, 0, 1, 2, 10, 0, 0, 1,
    0, 0, 8, 0] ++ smallFrame.bytes.drop 14) (by decide)

/-- The GRE packet is forwarded after the tunnelled frame, and on its own it is offered to the
first namespace with length 0. It is never given back. -/
theorem gre_follows_tunnelled :
    nicBursts (smallGlobals 33554442) (nicRxLocals 2) .zero [[tunnelledFrame, greFrame]] =
      .ok (⟨1, 2, 0⟩, [[.nonLocal 2 74, .nonLocal 2 58]]) ∧
    nicBursts (smallGlobals 33554442) (nicRxLocals 2) .zero [[greFrame]] =
      .ok (⟨0, 0, 0⟩, [[.veth 0 0]]) ∧
    ¬ ∃ t, DecidedByFrame (smallGlobals 33554442) 1 2 0 greFrame t := by
  have hchk : ¬ greFrame.passesChecks := by decide
  refine ⟨rfl, rfl, ?_⟩
  rintro ⟨t, h⟩
  obtain ⟨-, rfl⟩ := (nicLocals_eq_ok (by decide)).1 h.start
  have hf : nicFrame (smallGlobals 33554442) (nicRxLocals 2) .zero greFrame =
      .ok (greFrame.umem, .zero, .veth 0 0) := rfl
  exact absurd ((h.dropped _ _ _ _ (recordReached_zero _ _) hf).2 hchk) (by simp)

end RotorXdp
