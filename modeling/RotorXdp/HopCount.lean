import RotorXdp.Tunnel
import RotorXdp.Lib.Walk

/-!
# Hop counts

`topo_analysis.py` follows the route tables of all nodes from a source to a destination at one
topology slot and counts the hops. The emulator does the same hop by hop, with the count in the
GRE header of the frame.

* `getNextNode`, `getPathPerTopoBody`: the analysis;
* `Network`: nodes with their tables, and the wire between them;
* `Arrives`: where a frame is after a number of hops;
* `hop_count_agrees`: both follow the same walk.
-/

namespace RotorXdp

open Bytes Walks Function

/-! ### The analysis -/

/-- A data frame: `iloc` row, column label. -/
abbrev DataFrame := ℤ → ℤ → ℤ

/-- Ways in which the script is left by an exception. -/
inductive PyError
  | keyError
  /-- the recursion limit of the interpreter is reached -/
  | recursionError
  deriving DecidableEq

/-- `topo_hop_dict`: the hop count by topology slot. -/
abbrev TopoHopDict := ℤ → Option ℕ

/-- `get_next_node`. `depth` is the number of calls that the interpreter has room for. -/
def getNextNode (dataframeCollection : ℤ → Option DataFrame) :
    ℕ → ℤ → ℤ → ℤ → ℕ → TopoHopDict → Except PyError TopoHopDict
  | 0, _, _, _, _, _ => .error .recursionError
  | depth + 1, src, dst, topo, numHops, topoHopDict =>
    let numHops := numHops + 1
    match dataframeCollection src with
    | none => .error .keyError
    | some srcDf =>
      let dstRow := srcDf (dst - 1)
      if dstRow (topo - 1) = dst then
        let numHops := numHops + 1
        .ok (update topoHopDict topo (some numHops))
      else getNextNode dataframeCollection depth (dstRow (topo - 1)) dst topo numHops topoHopDict

/-- The loop body of `get_path_per_topo`, on the row of the destination. -/
def getPathPerTopoBody (dataframeCollection : ℤ → Option DataFrame) (depth : ℕ) (dstRow : ℤ → ℤ)
    (dst : ℤ) (topoHopDict : TopoHopDict) (num : ℕ) : Except PyError TopoHopDict :=
  let numHops := 0
  if dstRow num = dst then
    let numHops := numHops + 1
    .ok (update topoHopDict (num + 1) (some numHops))
  else getNextNode dataframeCollection depth (dstRow num) dst (num + 1) numHops topoHopDict

/-- `get_path_per_topo`. -/
def getPathPerTopo (dataframeCollection : ℤ → Option DataFrame) (depth : ℕ) (src dst : ℤ)
    (topoHopDict : TopoHopDict) : Except PyError TopoHopDict :=
  match dataframeCollection src with
  | none => .error .keyError
  | some srcDf =>
    (List.range 32).foldlM (getPathPerTopoBody dataframeCollection depth (srcDf (dst - 1)) dst)
      topoHopDict

/-! ### The network -/

/-- Nodes 1 … `size` at topology slot `topo`. Node `i` is index `i` in every table, and the route
matrices hold the files that the analysis reads. -/
structure Network where
  size : ℕ
  topo : ℕ
  node : ℤ → Globals
  ip : ℤ → ℕ
  mac : ℤ → List UInt8
  table : ℤ → DataFrame
  srcIp : ∀ i : ℤ, 1 ≤ i → i ≤ size → (node i).srcIp = ip i
  ipIndex : ∀ i j : ℤ, 1 ≤ i → i ≤ size → 1 ≤ j → j ≤ size →
    ∃ p, mgMapGet (node i).ipTable (ip j) = some p ∧ ipSetIndex (node i).ipTable p = j
  macIndex : ∀ i j : ℤ, 1 ≤ i → i ≤ size → 1 ≤ j → j ≤ size →
    ∃ p, mgMapGet (node i).macTable j.toNat = some p ∧ macAddrBytes (node i).macTable p = mac j
  mac_inj : ∀ i j : ℤ, 1 ≤ i → i ≤ size → 1 ≤ j → j ≤ size → mac i = mac j → i = j
  route : ∀ i j : ℤ, 1 ≤ i → i ≤ size → 1 ≤ j → j ≤ size →
    (getRouteElement (node i).routeTable j topo).2 = some (table i (j - 1) (topo - 1))
  entry : ∀ i j : ℤ, 1 ≤ i → i ≤ size → 1 ≤ j → j ≤ size →
    1 ≤ table i (j - 1) (topo - 1) ∧ table i (j - 1) (topo - 1) ≤ size

namespace Network

variable (W : Network)

/-- `i` is the number of a node. -/
def IsNode (i : ℤ) : Prop := 1 ≤ i ∧ i ≤ W.size

instance (i : ℤ) : Decidable (W.IsNode i) := inferInstanceAs (Decidable (_ ∧ _))

/-- `dataframe_collection` after `load_data` for these nodes. -/
def dataframeCollection (i : ℤ) : Option DataFrame := if W.IsNode i then some (W.table i) else none

/-- The next node on the way from `i` to `dst`. -/
def next (dst i : ℤ) : ℤ := W.table i (dst - 1) (W.topo - 1)

end Network

/-- How a node meets a frame: its UMEM, the address of the frame and the result record. -/
structure Visit where
  umem : Mem
  addr : ℕ
  addr_lt : addr + encapSize < 281474976710656
  ret : ReturnProcessRx

/-- What a node does with a frame from the NIC. -/
inductive Handled
  | forwarded (p : Passage)
  | delivered (p : Passage)

namespace Network

variable (W : Network)

/-- Node `i` as it meets the frame, with the frame in queue `destIndex`. -/
def hop (i : ℤ) (x : Visit) (destIndex : ℤ) : Hop :=
  ⟨W.node i, W.topo, destIndex, x.umem, x.addr, x.addr_lt, x.ret⟩

/-- A frame from interface `iface` of a namespace: `get_destination_queue_index` and
`encap_veth`. -/
def emit (i : ℤ) (x : Visit) (iface : String) (bs : List UInt8) : Except Fault Passage :=
  match getDestinationQueueIndex (W.node i) iface ((W.hop i x 0).receive bs)
      (addOffsetToAddr x.addr) with
  | .error e => .error e
  | .ok destIndex => (W.hop i x destIndex).originate bs

/-- A frame from the NIC: `get_queue_index_for_nic_rx`, and `encap_indirection` for the queue it
names when the frame is marked to be forwarded. -/
def handle (i : ℤ) (x : Visit) (bs : List UInt8) : Except Fault Handled :=
  match getQueueIndexForNicRx (W.node i) (W.node i).nicIface ((W.hop i x 0).receive bs)
      (addOffsetToAddr x.addr) bs.length x.addr x.ret with
  | .error e => .error e
  | .ok (_, ret) =>
    if ret.newLen = 1 then
      match (W.hop i x ret.ringBufIndex).forward bs with
      | .error e => .error e
      | .ok p => .ok (.forwarded p)
    else
      match (W.hop i x 0).deliver bs with
      | .error e => .error e
      | .ok p => .ok (.delivered p)

/-- The wire takes a frame to the node with its destination address. -/
def Wire (bs : List UInt8) (j : ℤ) : Prop := W.IsNode j ∧ bs.take 6 = W.mac j

/-- The frame that interface `iface` of node `src` has sent as `bs₀` is at node `i` as `bs` after
`k` hops. Visit `k` is the one after `k` hops. -/
inductive Arrives (src : ℤ) (iface : String) (bs₀ : List UInt8) (visit : ℕ → Visit) :
    ℕ → ℤ → List UInt8 → Prop
  | first {p : Passage} {j : ℤ} : W.emit src (visit 0) iface bs₀ = .ok p → W.Wire p.sent j →
      Arrives src iface bs₀ visit 1 j p.sent
  | next {k : ℕ} {i j : ℤ} {bs : List UInt8} {p : Passage} :
      Arrives src iface bs₀ visit k i bs → W.handle i (visit k) bs = .ok (.forwarded p) →
      W.Wire p.sent j → Arrives src iface bs₀ visit (k + 1) j p.sent

/-! ### Tables -/

section Tables

variable {W} {src dst i j : ℤ}

theorem IsNode.index (hi : W.IsNode i) (hj : W.IsNode j) :
    ∃ p, mgMapGet (W.node i).ipTable (W.ip j) = some p ∧ ipSetIndex (W.node i).ipTable p = j :=
  W.ipIndex i j hi.1 hi.2 hj.1 hj.2

theorem IsNode.next (hi : W.IsNode i) (hdst : W.IsNode dst) : W.IsNode (W.next dst i) :=
  W.entry i dst hi.1 hi.2 hdst.1 hdst.2

theorem IsNode.iterate (hi : W.IsNode i) (hdst : W.IsNode dst) (k : ℕ) :
    W.IsNode ((W.next dst)^[k] i) := by
  induction k with
  | zero => exact hi
  | succ k ih =>
    rw [iterate_succ_apply']
    exact ih.next hdst

/-- Node `i` is index `i`, so nodes have different addresses. -/
theorem ip_inj (hi : W.IsNode i) (hj : W.IsNode j) (h : W.ip i = W.ip j) : i = j := by
  obtain ⟨p, hp, hpi⟩ := hi.index hi
  obtain ⟨q, hq, hqj⟩ := hi.index hj
  rw [h, hq] at hp
  cases hp
  rw [← hpi, hqj]

/-- An index is an `int`. -/
theorem IsNode.lt (hi : W.IsNode i) : i < 2147483648 := by
  obtain ⟨p, -, hp⟩ := hi.index hi
  have := le32_lt (W.node i).ipTable.mem p
  rw [← hp, ipSetIndex, toInt32]
  split <;> omega

/-- The MAC address that node `i` finds for the row of `dst` is that of the next node. -/
theorem nextHopMac_eq (hi : W.IsNode i) (hdst : W.IsNode dst) :
    nextHopMac (W.node i) (dst - 1) W.topo = .ok (W.mac (W.next dst i)) := by
  have hnext := hi.next hdst
  have hlt := hnext.lt
  have hroute := W.route i dst hi.1 hi.2 hdst.1 hdst.2
  obtain ⟨p, hp, hmac⟩ := W.macIndex i _ hi.1 hi.2 hnext.1 hnext.2
  have hkey : (W.next dst i % 4294967296).toNat = (W.next dst i).toNat := by
    have h1 := hnext.1
    omega
  rw [nextHopMac, Int.sub_add_cancel, hroute]
  simp only
  rw [show W.table i (dst - 1) (W.topo - 1) = W.next dst i from rfl, hkey, hp]
  simp only
  rw [hmac]

theorem one_le_topo (hi : W.IsNode i) : 1 ≤ W.topo := by
  have hroute := W.route i i hi.1 hi.2 hi.1 hi.2
  by_contra htopo
  rw [getRouteElement_outside (.inr (.inr (.inl (by omega))))] at hroute
  cases hroute

end Tables

/-! ### What the analysis records -/

section Analysis

variable {W} {src dst i : ℤ} {d d' : TopoHopDict}

/-- A call for node `i` goes on to the first hit of the walk behind it. -/
theorem getNextNode_ok (hdst : W.IsNode dst) {depth numHops : ℕ} (hi : W.IsNode i) :
    getNextNode W.dataframeCollection depth i dst W.topo numHops d = .ok d' ↔
      ∃ h < depth, FirstHit (W.next dst) dst (W.next dst i) h ∧
        d' = update d (W.topo : ℤ) (some (numHops + 2 + h)) := by
  induction depth generalizing i numHops with
  | zero =>
    constructor
    · intro h
      cases h
    · rintro ⟨h, hlt, -⟩
      exact absurd hlt (Nat.not_lt_zero h)
  | succ depth ih =>
    have hnext := hi.next hdst
    rw [getNextNode, dataframeCollection, if_pos hi]
    simp only
    rw [show W.table i (dst - 1) (W.topo - 1) = W.next dst i from rfl]
    by_cases heq : W.next dst i = dst
    · rw [if_pos heq, Except.ok.injEq]
      constructor
      · rintro rfl
        exact ⟨0, Nat.succ_pos depth, firstHit_zero.2 heq, rfl⟩
      · rintro ⟨h, -, hhit, rfl⟩
        rw [hhit.unique (firstHit_zero.2 heq)]
    · rw [if_neg heq, ih hnext]
      constructor
      · rintro ⟨h, hlt, hhit, rfl⟩
        -- the call counts its own hop before it goes on
        exact ⟨h + 1, Nat.succ_lt_succ hlt, firstHit_succ.2 ⟨heq, hhit⟩, by congr 2; omega⟩
      · rintro ⟨h, hlt, hhit, rfl⟩
        cases h with
        | zero => exact absurd (firstHit_zero.1 hhit) heq
        | succ h =>
          exact ⟨h, Nat.lt_of_succ_lt_succ hlt, (firstHit_succ.1 hhit).2, by congr 2; omega⟩

/-- The loop body for slot `topo` records the number of hops of the walk. -/
theorem getPathPerTopoBody_ok (hsrc : W.IsNode src) (hdst : W.IsNode dst) (hne : src ≠ dst)
    {depth : ℕ} :
    getPathPerTopoBody W.dataframeCollection depth (W.table src (dst - 1)) dst d (W.topo - 1) =
        .ok d' ↔
      ∃ h ≤ depth + 1, FirstHit (W.next dst) dst src h ∧ d' = update d (W.topo : ℤ) (some h) := by
  have htopo := one_le_topo hsrc
  have hcast : ((W.topo - 1 : ℕ) : ℤ) = W.topo - 1 := by omega
  rw [getPathPerTopoBody, hcast, Int.sub_add_cancel]
  simp only
  rw [show W.table src (dst - 1) (W.topo - 1) = W.next dst src from rfl]
  by_cases heq : W.next dst src = dst
  · have hone : FirstHit (W.next dst) dst src 1 := firstHit_succ.2 ⟨hne, firstHit_zero.2 heq⟩
    rw [if_pos heq, Except.ok.injEq]
    constructor
    · rintro rfl
      exact ⟨1, Nat.le_add_left 1 depth, hone, rfl⟩
    · rintro ⟨h, -, hhit, rfl⟩
      rw [hhit.unique hone]
  · rw [if_neg heq, getNextNode_ok hdst (hsrc.next hdst)]
    constructor
    · rintro ⟨h, hlt, hhit, rfl⟩
      -- one hop before the recursion and one that its base case adds
      refine ⟨h + 2, by omega, ?_, by congr 2; omega⟩
      exact firstHit_succ.2 ⟨hne, firstHit_succ.2 ⟨heq, hhit⟩⟩
    · rintro ⟨h, hle, hhit, rfl⟩
      rcases h with _ | _ | h
      · exact absurd (firstHit_zero.1 hhit) hne
      · exact absurd (firstHit_zero.1 (firstHit_succ.1 hhit).2) heq
      · have hrest := (firstHit_succ.1 (firstHit_succ.1 hhit).2).2
        exact ⟨h, by omega, hrest, by congr 2; omega⟩

/-- A call writes the entry of its own slot only. -/
theorem getNextNode_other {dfs : ℤ → Option DataFrame} {depth numHops : ℕ} {topo key : ℤ}
    (h : getNextNode dfs depth i dst topo numHops d = .ok d') (hkey : key ≠ topo) :
    d' key = d key := by
  induction depth generalizing i numHops with
  | zero => cases h
  | succ depth ih =>
    rw [getNextNode] at h
    cases hdf : dfs i with
    | none =>
      rw [hdf] at h
      cases h
    | some df =>
      rw [hdf] at h
      simp only at h
      split at h
      · cases h
        exact update_of_ne hkey _ _
      · exact ih h

theorem getPathPerTopoBody_other {dfs : ℤ → Option DataFrame} {depth num : ℕ} {dstRow : ℤ → ℤ}
    {key : ℤ} (h : getPathPerTopoBody dfs depth dstRow dst d num = .ok d') (hkey : key ≠ num + 1) :
    d' key = d key := by
  rw [getPathPerTopoBody] at h
  simp only at h
  split at h
  · cases h
    exact update_of_ne hkey _ _
  · exact getNextNode_other h hkey

/-- The entry of a slot is the one that its own round of the loop leaves. -/
theorem foldlM_body {dfs : ℤ → Option DataFrame} {depth num : ℕ} {dstRow : ℤ → ℤ} {l : List ℕ}
    (hnodup : l.Nodup) (hnum : num ∈ l)
    (h : l.foldlM (getPathPerTopoBody dfs depth dstRow dst) d = .ok d') :
    ∃ d₁ d₂, getPathPerTopoBody dfs depth dstRow dst d₁ num = .ok d₂ ∧
      d' (num + 1) = d₂ (num + 1) := by
  have hkept : ∀ {l : List ℕ} {d d' : TopoHopDict}, num ∉ l →
      l.foldlM (getPathPerTopoBody dfs depth dstRow dst) d = .ok d' →
      d' (num + 1) = d (num + 1) := by
    intro l
    induction l with
    | nil =>
      intro d d' _ h
      cases h
      rfl
    | cons a l ih =>
      intro d d' hnot h
      rw [List.foldlM_cons] at h
      cases hbody : getPathPerTopoBody dfs depth dstRow dst d a with
      | error e =>
        rw [hbody] at h
        cases h
      | ok d₁ =>
        rw [hbody] at h
        have hne : (num : ℤ) + 1 ≠ a + 1 := by
          intro heq
          exact hnot (List.mem_cons.2 (.inl (by omega)))
        rw [ih (fun hmem => hnot (List.mem_cons_of_mem _ hmem)) h,
          getPathPerTopoBody_other hbody hne]
  induction l generalizing d with
  | nil => exact absurd hnum List.not_mem_nil
  | cons a l ih =>
    rw [List.foldlM_cons] at h
    cases hbody : getPathPerTopoBody dfs depth dstRow dst d a with
    | error e =>
      rw [hbody] at h
      cases h
    | ok d₁ =>
      rw [hbody] at h
      obtain ⟨hnot, hnodup'⟩ := List.nodup_cons.1 hnodup
      rcases List.mem_cons.1 hnum with rfl | hmem
      · exact ⟨d, d₁, hbody, hkept hnot h⟩
      · exact ih hnodup' hmem h

/-- **`get_path_per_topo` records the number of hops of the walk at each slot.** -/
theorem getPathPerTopo_ok (hsrc : W.IsNode src) (hdst : W.IsNode dst) (hne : src ≠ dst) {depth : ℕ}
    (htopo : W.topo ≤ 32)
    (h : getPathPerTopo W.dataframeCollection depth src dst d = .ok d') :
    ∃ h ≤ depth + 1, FirstHit (W.next dst) dst src h ∧ d' W.topo = some h := by
  rw [getPathPerTopo, dataframeCollection, if_pos hsrc] at h
  have hpos := one_le_topo hsrc
  obtain ⟨d₁, d₂, hbody, hd'⟩ := foldlM_body List.nodup_range
    (List.mem_range.2 (by omega : W.topo - 1 < 32)) h
  obtain ⟨k, hk, hhit, rfl⟩ := (getPathPerTopoBody_ok hsrc hdst hne).1 hbody
  have hcast : ((W.topo - 1 : ℕ) : ℤ) + 1 = W.topo := by omega
  rw [hcast, update_self] at hd'
  exact ⟨k, hk, hhit, hd'⟩

end Analysis

/-! ### One node -/

section Node

variable {W} {src dst i : ℤ} {F : EthFrame} {bs : List UInt8} {x : Visit} {iface : String} {k : ℕ}

/-- A frame starts with the MAC address that the node has looked up. -/
theorem originate_mac {hop : Hop} {p : Passage} (h : hop.originate bs = .ok p)
    (hlen : 6 ≤ p.sent.length) :
    nextHopMac hop.g hop.destIndex hop.topo = .ok (p.sent.take 6) := by
  unfold Hop.originate at h
  simp only at h
  split at h
  · cases h
  · next m newLen hencap =>
    cases h
    rw [load_length] at hlen
    rw [take_load _ _ hlen]
    exact encapVeth_mac hencap

theorem forward_mac {hop : Hop} {p : Passage} (h : hop.forward bs = .ok p)
    (hlen : 6 ≤ p.sent.length) :
    nextHopMac hop.g hop.destIndex hop.topo = .ok (p.sent.take 6) := by
  unfold Hop.forward at h
  simp only at h
  split at h
  · cases h
  · split at h
    · cases h
    · next m hencap =>
      cases h
      rw [load_length] at hlen
      rw [take_load _ _ hlen]
      exact encapIndirection_mac hencap

/-- The wire takes a frame with the address that the node has looked up to the next node. -/
theorem wire_of_lookup (hi : W.IsNode i) (hdst : W.IsNode dst)
    (hlook : nextHopMac (W.node i) (dst - 1) W.topo = .ok (bs.take 6)) :
    W.Wire bs (W.next dst i) := by
  rw [nextHopMac_eq hi hdst] at hlook
  exact ⟨hi.next hdst, (Except.ok.inj hlook).symm⟩

theorem six_le_length (htun : Tunnelled F k bs) : 6 ≤ bs.length := by
  rw [htun.1]
  exact Nat.le_add_left_of_le (by decide)

/-- The destination of a frame from a namespace, where it has been received. -/
theorem receive_dest (F : EthFrame) (hop : Hop) :
    constructDestIp (ipDaddr (hop.receive F.bytes) (addOffsetToAddr hop.addr + ethHlen)) =
      F.dest := by
  have hmin := F.min_len
  have hlen : ethHlen + iphdrLen = 34 := rfl
  refine congrArg constructDestIp (le32_congr fun j hj => ?_)
  rw [hop.data_eq]
  show hop.receive F.bytes (hop.addr + 14 + 16 + j) = store (fun _ => 0) 0 F.bytes (14 + 16 + j)
  rw [Nat.add_assoc, Nat.add_assoc, hop.receive_inside (by omega), Nat.add_assoc]

/-- The source sends the frame to the next node of its destination. -/
theorem emit_spec (hi : W.IsNode i) (hdst : W.IsNode dst) (hF : F.dest = W.ip dst)
    (hiface : prefixOf outerVethPrefix iface) (x : Visit) :
    ∃ p, W.emit i x iface F.bytes = .ok p ∧ Tunnelled F 0 p.sent ∧
      W.Wire p.sent (W.next dst i) := by
  obtain ⟨q, hq, hidx⟩ := hi.index hdst
  have hrow : nextHopMac (W.hop i x (dst - 1)).g (dst - 1) W.topo = _ := nextHopMac_eq hi hdst
  obtain ⟨p, hp, htun⟩ : ∃ p, (W.hop i x (dst - 1)).originate F.bytes = .ok p ∧
      Tunnelled F 0 p.sent := Hop.originate_spec hrow
  refine ⟨p, ?_, htun, wire_of_lookup hi hdst (originate_mac hp (six_le_length htun))⟩
  rw [emit, getDestinationQueueIndex, if_pos hiface,
    show addOffsetToAddr x.addr = addOffsetToAddr (W.hop i x 0).addr from rfl,
    receive_dest F (W.hop i x 0), hF, hq]
  simp only
  rw [hidx, hp]

/-- A node on the way counts the hop and sends the frame on. -/
theorem handle_forward (hi : W.IsNode i) (hdst : W.IsNode dst) (hne : i ≠ dst)
    (hF : F.dest = W.ip dst) (htun : Tunnelled F k bs) (x : Visit) :
    ∃ p, W.handle i x bs = .ok (.forwarded p) ∧ Tunnelled F (k + 1) p.sent ∧
      W.Wire p.sent (W.next dst i) := by
  obtain ⟨q, hq, hidx⟩ := hi.index hdst
  have hat := htun.received (W.hop i x 0)
  have hsrc : (W.node i).srcIp ≠ F.dest := by
    rw [W.srcIp i hi.1 hi.2, hF]
    exact fun h => hne (ip_inj hi hdst h)
  have hget := getQueueIndexForNicRx_forward bs.length x.addr x.ret hat.passesChecks
    (by rw [hat.daddr]; exact hsrc) (by rw [hat.inner_dest, hF]; exact hq)
  have hrow : nextHopMac (W.hop i x (dst - 1)).g (dst - 1) W.topo = _ := nextHopMac_eq hi hdst
  obtain ⟨p, hp, htun', -, -⟩ := Hop.forward_spec htun hrow (by rw [hF]; exact hq) hsrc
  refine ⟨p, ?_, htun', wire_of_lookup hi hdst (forward_mac hp (six_le_length htun'))⟩
  rw [handle, show addOffsetToAddr x.addr = (W.hop i x 0).addr from (W.hop i x 0).data_eq]
  rw [show getQueueIndexForNicRx (W.node i) _ _ _ _ _ _ = _ from hget]
  simp only
  rw [if_pos trivial, hidx, hp]

/-- The destination delivers the frame that the source has been given. -/
theorem handle_deliver (hdst : W.IsNode dst) (hF : F.dest = W.ip dst) (htun : Tunnelled F k bs)
    (x : Visit) :
    ∃ p, W.handle dst x bs = .ok (.delivered p) ∧ p.sent = F.bytes := by
  have hmin := F.min_len
  have hmax := F.max_len
  have hlen : ethHlen + iphdrLen = 34 := rfl
  have hoff : encapSize = innerEth := rfl
  have hat := htun.received (W.hop dst x 0)
  have hsrc : (W.node dst).srcIp = F.dest := (W.srcIp dst hdst.1 hdst.2).trans hF.symm
  have hsub : bs.length - innerEth = F.bytes.length := by
    rw [htun.1]
    exact Nat.add_sub_cancel _ _
  have hmin' : innerEth ≤ bs.length := by
    rw [htun.1]
    exact Nat.le_add_left _ _
  have hmax' : bs.length < 2147483648 := by
    rw [htun.1]
    exact hmax
  have hget := getQueueIndexForNicRx_deliver x.addr x.ret hat.passesChecks
    (by rw [hat.daddr]; exact hsrc) hmin' hmax'
  have hown : (W.hop dst x 0).g.srcIp = F.dest := hsrc
  obtain ⟨p, hp, -, hsent⟩ := Hop.deliver_spec htun hown
  refine ⟨p, ?_, hsent⟩
  rw [handle, show addOffsetToAddr x.addr = (W.hop dst x 0).addr from (W.hop dst x 0).data_eq]
  rw [show getQueueIndexForNicRx (W.node dst) _ _ _ _ _ _ = _ from hget]
  simp only [hsub]
  -- the length of an IPv4 frame is not the mark of a forwarded one
  rw [if_neg (by omega), hp]

end Node

/-! ### The whole way -/

section Way

variable {W} {src dst i : ℤ} {F : EthFrame} {bs : List UInt8} {visit : ℕ → Visit} {iface : String}
  {n : ℕ}

/-- The wire takes a frame to one node only. -/
theorem Wire.unique {j j' : ℤ} (h : W.Wire bs j) (h' : W.Wire bs j') : j = j' :=
  W.mac_inj j j' h.1.1 h.1.2 h'.1.1 h'.1.2 (h.2.symm.trans h'.2)

/-- A frame is where the walk is after as many hops, and counts the hops behind the first. -/
theorem Arrives.inv (hsrc : W.IsNode src) (hdst : W.IsNode dst) (hne : src ≠ dst)
    (hF : F.dest = W.ip dst) (hiface : prefixOf outerVethPrefix iface)
    (h : W.Arrives src iface F.bytes visit n i bs) :
    ∃ k, n = k + 1 ∧ i = (W.next dst)^[k + 1] src ∧ (∀ j ≤ k, (W.next dst)^[j] src ≠ dst) ∧
      Tunnelled F k bs := by
  induction h with
  | first hemit hwire =>
    obtain ⟨p, hp, htun, hwire'⟩ := emit_spec hsrc hdst hF hiface (visit 0)
    rw [hp] at hemit
    cases hemit
    refine ⟨0, rfl, hwire.unique hwire', fun j hj => ?_, htun⟩
    rw [Nat.le_zero.1 hj]
    exact hne
  | next harr hhandle hwire ih =>
    obtain ⟨k, rfl, rfl, hbefore, htun⟩ := ih
    have hnode := hsrc.iterate hdst (k + 1)
    have hnot : (W.next dst)^[k + 1] src ≠ dst := by
      intro heq
      -- at its destination the frame would have been delivered
      obtain ⟨p, hp, -⟩ := handle_deliver hdst hF htun (visit (k + 1))
      rw [heq, hp] at hhandle
      cases hhandle
    obtain ⟨p, hp, htun', hwire'⟩ := handle_forward hnode hdst hnot hF htun (visit (k + 1))
    rw [hp] at hhandle
    cases hhandle
    refine ⟨k + 1, rfl, ?_, fun j hj => ?_, htun'⟩
    · rw [iterate_succ_apply']
      exact hwire.unique hwire'
    · rcases Nat.lt_or_eq_of_le hj with hlt | heq
      · exact hbefore j (Nat.le_of_lt_succ hlt)
      · rw [heq]
        exact hnot

/-- A frame that has not been at its destination goes on. -/
theorem arrives_of_not_hit (hsrc : W.IsNode src) (hdst : W.IsNode dst) (hF : F.dest = W.ip dst)
    (hiface : prefixOf outerVethPrefix iface) (visit : ℕ → Visit) {k : ℕ}
    (hbefore : ∀ j ≤ k, (W.next dst)^[j] src ≠ dst) :
    ∃ bs, W.Arrives src iface F.bytes visit (k + 1) ((W.next dst)^[k + 1] src) bs := by
  have hne : src ≠ dst := hbefore 0 (Nat.zero_le k)
  induction k with
  | zero =>
    obtain ⟨p, hp, -, hwire⟩ := emit_spec hsrc hdst hF hiface (visit 0)
    exact ⟨p.sent, .first hp hwire⟩
  | succ k ih =>
    obtain ⟨bs, harr⟩ := ih fun j hj => hbefore j (Nat.le_succ_of_le hj)
    obtain ⟨k', hk', -, -, htun⟩ := harr.inv hsrc hdst hne hF hiface
    obtain ⟨p, hp, -, hwire⟩ := handle_forward (hsrc.iterate hdst (k + 1)) hdst
      (hbefore (k + 1) (Nat.le_refl _)) hF htun (visit (k + 1))
    rw [iterate_succ_apply']
    exact ⟨p.sent, .next harr hp hwire⟩

end Way

/-- The frame is encapsulated at the source, redirected at each node between on the walk of `h` hops
and delivered at its end. -/
structure FollowsWalk (src dst : ℤ) (iface : String) (F : EthFrame) (visit : ℕ → Visit) (h : ℕ) :
    Prop where
  emitted : ∃ p, W.emit src (visit 0) iface F.bytes = .ok p ∧ W.Wire p.sent (W.next dst src)
  forwarded : ∀ k, 0 < k → k < h → ∃ bs p,
    W.Arrives src iface F.bytes visit k ((W.next dst)^[k] src) bs ∧
      W.handle ((W.next dst)^[k] src) (visit k) bs = .ok (.forwarded p)
  delivered : ∃ bs p, W.Arrives src iface F.bytes visit h dst bs ∧
    W.handle dst (visit h) bs = .ok (.delivered p) ∧ p.sent = F.bytes ∧
      hopcountOf bs = (h - 1) % 65536
  only : ∀ k i bs, W.Arrives src iface F.bytes visit k i bs → k ≤ h ∧ i = (W.next dst)^[k] src

/-- The frame is redirected at each node on the walk, for ever. -/
structure NeverDelivered (src dst : ℤ) (iface : String) (F : EthFrame) (visit : ℕ → Visit) :
    Prop where
  arrives : ∀ k, 0 < k → ∃ bs, W.Arrives src iface F.bytes visit k ((W.next dst)^[k] src) bs
  forwarded : ∀ k i bs, W.Arrives src iface F.bytes visit k i bs →
    ∃ p, W.handle i (visit k) bs = .ok (.forwarded p)

variable {W} in
theorem followsWalk {src dst : ℤ} {iface : String} {F : EthFrame} {h : ℕ} (hsrc : W.IsNode src)
    (hdst : W.IsNode dst) (hne : src ≠ dst) (hF : F.dest = W.ip dst)
    (hiface : prefixOf outerVethPrefix iface) (visit : ℕ → Visit)
    (hhit : FirstHit (W.next dst) dst src h) : W.FollowsWalk src dst iface F visit h := by
  cases h with
  | zero => exact absurd (firstHit_zero.1 hhit) hne
  | succ k =>
    constructor
    · obtain ⟨p, hp, -, hwire⟩ := emit_spec hsrc hdst hF hiface (visit 0)
      exact ⟨p, hp, hwire⟩
    · intro n hpos hlt
      obtain ⟨m, rfl⟩ := Nat.exists_eq_add_of_le' hpos
      obtain ⟨bs, harr⟩ := arrives_of_not_hit hsrc hdst hF hiface visit (k := m)
        fun j hj => hhit.first j (by omega)
      obtain ⟨k', -, -, -, htun⟩ := harr.inv hsrc hdst hne hF hiface
      obtain ⟨p, hp, -⟩ := handle_forward (hsrc.iterate hdst (m + 1)) hdst
        (hhit.first (m + 1) hlt) hF htun (visit (m + 1))
      exact ⟨bs, p, harr, hp⟩
    · obtain ⟨bs, harr⟩ := arrives_of_not_hit hsrc hdst hF hiface visit (k := k)
        fun j hj => hhit.first j (by omega)
      obtain ⟨k', hk', -, -, htun⟩ := harr.inv hsrc hdst hne hF hiface
      obtain ⟨p, hp, hsent⟩ := handle_deliver hdst hF htun (visit (k + 1))
      rw [hhit.hit] at harr
      refine ⟨bs, p, harr, hp, hsent, ?_⟩
      rw [htun.hopcount_eq, Nat.succ.inj hk', Nat.add_sub_cancel]
    · intro n i bs harr
      obtain ⟨m, rfl, rfl, hbefore, -⟩ := harr.inv hsrc hdst hne hF hiface
      refine ⟨?_, rfl⟩
      by_contra hlt
      exact hbefore (k + 1) (by omega) hhit.hit

variable {W} in
theorem neverDelivered {src dst : ℤ} {iface : String} {F : EthFrame} (hsrc : W.IsNode src)
    (hdst : W.IsNode dst) (hF : F.dest = W.ip dst)
    (hiface : prefixOf outerVethPrefix iface) (visit : ℕ → Visit)
    (hmiss : ¬ ∃ n, (W.next dst)^[n] src = dst) : W.NeverDelivered src dst iface F visit := by
  have hnot : ∀ n, (W.next dst)^[n] src ≠ dst := fun n hn => hmiss ⟨n, hn⟩
  constructor
  · intro n hpos
    obtain ⟨m, rfl⟩ := Nat.exists_eq_add_of_le' hpos
    exact arrives_of_not_hit hsrc hdst hF hiface visit fun j _ => hnot j
  · intro n i bs harr
    obtain ⟨m, rfl, rfl, -, htun⟩ := harr.inv hsrc hdst (hnot 0) hF hiface
    obtain ⟨p, hp, -⟩ := handle_forward (hsrc.iterate hdst (m + 1)) hdst (hnot (m + 1)) hF htun
      (visit (m + 1))
    exact ⟨p, hp⟩

end Network

/-- **The analysis and the emulator follow the same walk**: the body of the analysis records `h`
exactly when the walk comes to the destination after `h` hops and the interpreter has room for the
calls; a frame then takes these hops and is delivered with the count of those behind the first, in
16 bits. When the walk does not come there, no node delivers the frame. -/
theorem hop_count_agrees (W : Network) {src dst : ℤ} (hsrc : W.IsNode src) (hdst : W.IsNode dst)
    (hne : src ≠ dst) (F : EthFrame) (hF : F.dest = W.ip dst) (iface : String)
    (hiface : prefixOf outerVethPrefix iface) (visit : ℕ → Visit) (d : TopoHopDict) :
    (∀ depth d', getPathPerTopoBody W.dataframeCollection depth (W.table src (dst - 1)) dst d
        (W.topo - 1) = .ok d' ↔
      ∃ h ≤ depth + 1, FirstHit (W.next dst) dst src h ∧ d' = update d (W.topo : ℤ) (some h)) ∧
    ((∃ h, FirstHit (W.next dst) dst src h) ↔ ∃ n, (W.next dst)^[n] src = dst) ∧
    (∀ h, FirstHit (W.next dst) dst src h → W.FollowsWalk src dst iface F visit h) ∧
    ((¬ ∃ n, (W.next dst)^[n] src = dst) → W.NeverDelivered src dst iface F visit) :=
  ⟨fun _ _ => Network.getPathPerTopoBody_ok hsrc hdst hne, exists_firstHit_iff,
    fun _ => Network.followsWalk hsrc hdst hne hF hiface visit,
    Network.neverDelivered hsrc hdst hF hiface visit⟩

/-! ### A line of nodes -/

/-- The block of a map whose node `i` has the key `key i` and `i + 1` as its value, in nodes of
`size` bytes. -/
def numberedMem (size : ℕ) (key : ℕ → ℕ) : Mem := fun a =>
  if a % size < 4 then UInt8.ofNat (key (a / size) / 256 ^ (a % size))
  else UInt8.ofNat ((a / size + 1) / 256 ^ (a % size - 4))

section Numbered

variable {size i o : ℕ} {key : ℕ → ℕ}

theorem numberedMem_key (ho : o < 4) (hsize : 4 ≤ size) :
    numberedMem size key (i * size + o) = UInt8.ofNat (key i / 256 ^ o) := by
  have hmod : (i * size + o) % size = o := by
    rw [Nat.mul_comm, Nat.mul_add_mod, Nat.mod_eq_of_lt (by omega)]
  have hdiv : (i * size + o) / size = i := by
    rw [Nat.mul_comm, Nat.mul_add_div (by omega), Nat.div_eq_of_lt (by omega), Nat.add_zero]
  rw [numberedMem, hmod, hdiv, if_pos ho]

theorem numberedMem_value (ho : 4 + o < size) :
    numberedMem size key (i * size + 4 + o) = UInt8.ofNat ((i + 1) / 256 ^ o) := by
  have hmod : (i * size + (4 + o)) % size = 4 + o := by
    rw [Nat.mul_comm, Nat.mul_add_mod, Nat.mod_eq_of_lt ho]
  have hdiv : (i * size + (4 + o)) / size = i := by
    rw [Nat.mul_comm, Nat.mul_add_div (by omega), Nat.div_eq_of_lt ho, Nat.add_zero]
  rw [Nat.add_assoc, numberedMem, hmod, hdiv, if_neg (by omega), Nat.add_sub_cancel_left]

theorem mgMapGet_numbered (key : ℕ → ℕ) {count : ℕ} (hi : i < count) (hsize : 4 ≤ size)
    (h0 : key i ≠ 0) (hlt : ∀ j < count, key j < 4294967296)
    (hinj : ∀ j < count, key j = key i → j = i) :
    mgMapGet ⟨count, size, .live (numberedMem size key)⟩ (key i) = some (i * size + 4) := by
  have hkey : ∀ j < count, le32 (numberedMem size key) (j * size) = key j := fun j hj =>
    le32_of_bytes (hlt j hj) fun o ho => numberedMem_key ho hsize
  have hfind : findNode (numberedMem size key) size (key i) count = some i := by
    rw [findNode, List.find?_range_eq_some]
    refine ⟨by simpa using hkey i hi, List.mem_range.2 hi, fun j hj => ?_⟩
    have hne : key j ≠ key i := fun h => absurd (hinj j (by omega) h) (by omega)
    rw [hkey j (by omega)]
    simpa using hne
  rw [mgMapGet]
  simp only
  rw [if_neg h0, hfind]
  rfl

end Numbered

/-- The six bytes of node `j`'s MAC address, made of its number. -/
def lineMac (j : ℤ) : List UInt8 := (List.range 6).map fun o => UInt8.ofNat (j.toNat / 256 ^ o)

theorem lineMac_inj {i j : ℤ} (hi : 0 ≤ i) (hj : 0 ≤ j) (hi' : i < 4294967296)
    (hj' : j < 4294967296) (h : lineMac i = lineMac j) : i = j := by
  have hbyte : ∀ o < 4, UInt8.ofNat (i.toNat / 256 ^ o) = UInt8.ofNat (j.toNat / 256 ^ o) := by
    intro o ho
    have ho6 : o < 6 := by omega
    have hget := congrArg (fun l => l[o]?) h
    simpa [lineMac, ho6] using hget
  have hnat : i.toNat = j.toNat := by
    rw [← le32_of_bytes (m := fun a => UInt8.ofNat (i.toNat / 256 ^ a)) (a := 0) (v := i.toNat)
      (by omega) fun o _ => by rw [Nat.zero_add]]
    exact le32_of_bytes (by omega) fun o ho => by rw [Nat.zero_add, hbyte o ho]
  omega

/-- Node `i` of a line of `n` nodes: 10 … 0.1 addresses are its number with last octet 1, and every
route leads to the next node, the last one's to the first. -/
def lineGlobals (n : ℕ) (i : ℤ) : Globals where
  nicIface := "ens4"
  srcIp := 16777216 + i.toNat
  outEthSrc := [2, 0, 0, 0, 0, 1]
  outEthSrc_length := smallEthSrc_length
  ipTable := ⟨n, 8, .live (numberedMem 8 fun k => 16777216 + (k + 1))⟩
  macTable := ⟨n, 11, .live (numberedMem 11 fun k => k + 1)⟩
  routeTable := ⟨n, 1, fun _ => if i < n then i + 1 else 1⟩

section Line

variable (n : ℕ) (i j : ℤ)

theorem lineGlobals_ip (hn : n < 16777216) (hj : 1 ≤ j) (hjn : j ≤ n) :
    ∃ p, mgMapGet (lineGlobals n i).ipTable (16777216 + j.toNat) = some p ∧
      ipSetIndex (lineGlobals n i).ipTable p = j := by
  obtain ⟨k, rfl⟩ : ∃ k : ℕ, j = k + 1 := ⟨(j - 1).toNat, by omega⟩
  have hk : k < n := by omega
  have hget : mgMapGet (lineGlobals n i).ipTable (16777216 + (k + 1)) = some (k * 8 + 4) :=
    mgMapGet_numbered (fun k => 16777216 + (k + 1)) hk (by omega) (by omega)
      (fun l _ => by omega) fun l _ h => by omega
  refine ⟨k * 8 + 4, by simpa using hget, ?_⟩
  have hval : le32 (numberedMem 8 fun k => 16777216 + (k + 1)) (k * 8 + 4) = k + 1 :=
    le32_of_bytes (by omega) fun o ho => numberedMem_value (by omega)
  show toInt32 (le32 (numberedMem 8 fun k => 16777216 + (k + 1)) (k * 8 + 4)) = _
  rw [hval, toInt32, if_pos (by omega)]
  rfl

theorem lineGlobals_mac (hn : n < 16777216) (hj : 1 ≤ j) (hjn : j ≤ n) :
    ∃ p, mgMapGet (lineGlobals n i).macTable j.toNat = some p ∧
      macAddrBytes (lineGlobals n i).macTable p = lineMac j := by
  obtain ⟨k, rfl⟩ : ∃ k : ℕ, j = k + 1 := ⟨(j - 1).toNat, by omega⟩
  have hk : k < n := by omega
  have hget : mgMapGet (lineGlobals n i).macTable (k + 1) = some (k * 11 + 4) :=
    mgMapGet_numbered (fun k => k + 1) hk (by omega) (by omega)
      (fun l _ => by omega) fun l _ h => by omega
  refine ⟨k * 11 + 4, by simpa using hget, ?_⟩
  rw [macAddrBytes, load, lineMac]
  refine List.map_congr_left fun o ho => ?_
  have ho6 : o < 6 := List.mem_range.1 ho
  exact numberedMem_value (by omega)

theorem lineGlobals_route (hj : 1 ≤ j) (hjn : j ≤ n) :
    (getRouteElement (lineGlobals n i).routeTable j (1 : ℕ)).2 =
      some (if i < n then i + 1 else 1) := by
  have hin : ¬ (lineGlobals n i).routeTable.outside j ((1 : ℕ) : ℤ) := by
    have hrows : (lineGlobals n i).routeTable.rows = n := rfl
    have hcols : (lineGlobals n i).routeTable.cols = 1 := rfl
    rw [RouteMatrix.outside, hrows, hcols]
    omega
  rw [getRouteElement_inside hin]
  rfl

/-- The routes lead to nodes. -/
theorem lineNext_mem (hi : 1 ≤ i) (hin : i ≤ n) :
    1 ≤ (if i < n then i + 1 else 1) ∧ (if i < n then i + 1 else 1) ≤ n := by
  by_cases hlast : i < n
  · rw [if_pos hlast]
    omega
  · rw [if_neg hlast]
    omega

end Line

/-- A line of `n` nodes with one topology slot. -/
def lineNetwork (n : ℕ) (hn : n < 16777216) : Network where
  size := n
  topo := 1
  node := lineGlobals n
  ip j := 16777216 + j.toNat
  mac := lineMac
  table i := fun _ _ => if i < n then i + 1 else 1
  srcIp _ _ _ := rfl
  ipIndex i j _ _ hj hjn := lineGlobals_ip n i j hn hj hjn
  macIndex i j _ _ hj hjn := lineGlobals_mac n i j hn hj hjn
  mac_inj i j hi hin hj hjn h := lineMac_inj (by omega) (by omega) (by omega) (by omega) h
  route i j _ _ hj hjn := lineGlobals_route n i j hj hjn
  entry i _ hi hin _ _ := lineNext_mem n i hi hin

theorem lineNetwork_iterate {n : ℕ} (hn : n < 16777216) (dst : ℤ) {k : ℕ} (hk : k < n) :
    ((lineNetwork n hn).next dst)^[k] 1 = k + 1 := by
  induction k with
  | zero => rfl
  | succ k ih =>
    rw [iterate_succ_apply', ih (by omega)]
    show (if (k : ℤ) + 1 < n then (k : ℤ) + 1 + 1 else 1) = _
    rw [if_pos (by omega)]
    push_cast
    rfl

/-- From one end of the line to the other. -/
theorem lineNetwork_firstHit {n : ℕ} (hn : n < 16777216) (hpos : 0 < n) :
    FirstHit ((lineNetwork n hn).next n) n 1 (n - 1) := by
  constructor
  · rw [lineNetwork_iterate hn _ (by omega)]
    omega
  · intro k hk
    rw [lineNetwork_iterate hn _ (by omega)]
    omega

/-- A frame for host 7 of node `n`. -/
def lineFrame (n : ℕ) : EthFrame where
  bytes := [1, 2, 3, 4, 5, 6, 7, 8, 9, 10, 11, 12, 8, 0,
    69, 0, 0, 20, 0, 0, 0, 0, 64, 6, 0, 0, 10, 0, 1, 2,
    UInt8.ofNat n, UInt8.ofNat (n / 256), UInt8.ofNat (n / 65536), 7]
  min_len := by simp [ethHlen, iphdrLen]
  max_len := by simp [encapSize, ethHlen, iphdrLen, greHdrLen]
  ipv4 := rfl

theorem lineFrame_dest {n : ℕ} (hn : n < 16777216) : (lineFrame n).dest = 16777216 + n := by
  have hbyte : ∀ a b, a % 256 = b % 256 → UInt8.ofNat a = UInt8.ofNat b := fun a b h =>
    UInt8.toNat_inj.1 (by rw [UInt8.toNat_ofNat', UInt8.toNat_ofNat']; exact h)
  have hdaddr : ipDaddr (store (fun _ => 0) 0 (lineFrame n).bytes) ethHlen =
      n + 16777216 * 7 := by
    refine le32_of_bytes (by omega) fun o ho => ?_
    rcases o with _ | _ | _ | _ | o
    · show UInt8.ofNat n = _
      exact hbyte _ _ (by omega)
    · show UInt8.ofNat (n / 256) = UInt8.ofNat ((n + 16777216 * 7) / 256)
      exact hbyte _ _ (by omega)
    · show UInt8.ofNat (n / 65536) = UInt8.ofNat ((n + 16777216 * 7) / 65536)
      exact hbyte _ _ (by omega)
    · show UInt8.ofNat 7 = UInt8.ofNat ((n + 16777216 * 7) / 16777216)
      exact hbyte _ _ (by omega)
    · omega
  rw [EthFrame.dest, hdaddr, constructDestIp]
  omega

/-- Every node meets the frame at one address, among other bytes. -/
def someVisit : Visit := ⟨fun _ => 255, 4096, by decide, ⟨0, 0, 0⟩⟩

/-- Two hops over three nodes. -/
theorem hop_count_three :
    getPathPerTopoBody (lineNetwork 3 (by decide)).dataframeCollection 1
        ((lineNetwork 3 (by decide)).table 1 2) 3 (fun _ => none) 0 =
      .ok (update (fun _ => none) 1 (some 2)) ∧
    (lineNetwork 3 (by decide)).FollowsWalk 1 3 "vethout2" (lineFrame 3) (fun _ => someVisit)
      2 := by
  have hhit : FirstHit ((lineNetwork 3 (by decide)).next 3) 3 1 2 :=
    lineNetwork_firstHit (by decide) (by decide)
  have hsrc : (lineNetwork 3 (by decide)).IsNode 1 := ⟨by decide, by decide⟩
  have hdst : (lineNetwork 3 (by decide)).IsNode 3 := ⟨by decide, by decide⟩
  obtain ⟨hrec, -, hwalk, -⟩ := hop_count_agrees (lineNetwork 3 (by decide)) hsrc hdst (by decide)
    (lineFrame 3) (lineFrame_dest (by decide)) "vethout2" rfl (fun _ => someVisit) (fun _ => none)
  exact ⟨(hrec 1 _).2 ⟨2, Nat.le_refl 2, hhit, rfl⟩, hwalk 2 hhit⟩

/-- Over 65538 nodes the count in the frame comes back to 0. -/
theorem hop_count_wraps :
    FirstHit ((lineNetwork 65538 (by decide)).next 65538) 65538 1 65537 ∧
    ∃ bs p, (lineNetwork 65538 (by decide)).Arrives 1 "vethout2" (lineFrame 65538).bytes
        (fun _ => someVisit) 65537 65538 bs ∧
      (lineNetwork 65538 (by decide)).handle 65538 someVisit bs = .ok (.delivered p) ∧
      hopcountOf bs + 1 = 1 := by
  have hhit : FirstHit ((lineNetwork 65538 (by decide)).next 65538) 65538 1 65537 :=
    lineNetwork_firstHit (n := 65538) (by decide) (by decide)
  have hsrc : (lineNetwork 65538 (by decide)).IsNode 1 := ⟨by decide, by decide⟩
  have hdst : (lineNetwork 65538 (by decide)).IsNode 65538 := ⟨by decide, by decide⟩
  have hwalk := Network.followsWalk hsrc hdst (by decide) (lineFrame_dest (n := 65538) (by decide))
    (rfl : prefixOf outerVethPrefix "vethout2" = true) (fun _ => someVisit) hhit
  obtain ⟨bs, p, harr, hp, -, hcount⟩ := hwalk.delivered
  exact ⟨hhit, bs, p, harr, hp, by rw [hcount]⟩

end RotorXdp
