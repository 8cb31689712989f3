import RotorXdp.Lib.Custody
import RotorXdp.Provenance

/-!
# The network of emulators

Any number of nodes, each with its threads and its kernel, and the network between their NICs. The
namespaces of a node send IPv4 frames of their own, of at least 34 bytes; a frame that a NIC has
taken from its TX ring is on the wire, and from there some NIC receives it. The wire keeps no order,
it may hand a frame to the wrong node, and it may lose it, but it does not make frames of its own.
The nodes take their steps in any order.

* `Frame.Holds`, `InTunnel`: the bytes of a frame, and the tunnelled form of a frame;
* `Emitted.carries`: what a node makes of a frame that it has received;
* `Fabric`, `Fabric.step`: the network, and one step of one party;
* `delivered_once`: whatever a namespace is handed was sent by one, for this namespace's address,
  and it is handed over once.
-/

namespace RotorXdp

open Bytes Function Runs Pipelines Custodies

variable {P : NodeParams} {F : EthFrame} {f f' : Frame} {bs : List UInt8} {k p : ℕ}

/-! ### The bytes of a frame -/

/-- Frame `f` is the bytes `bs`. UMEM offsets in use stay below 2^48. -/
def Frame.Holds (f : Frame) (bs : List UInt8) : Prop :=
  f.addr + encapSize < 281474976710656 ∧ f.len = bs.length ∧ load f.umem f.addr f.len = bs

instance (f : Frame) (bs : List UInt8) : Decidable (f.Holds bs) :=
  inferInstanceAs (Decidable (_ ∧ _ ∧ _))

/-- Frame `f` is the tunnelled form of `F` after `k` hops. -/
def InTunnel (F : EthFrame) (k : ℕ) (f : Frame) : Prop := ∃ bs, Tunnelled F k bs ∧ f.Holds bs

/-- The destination address of a frame from a namespace. -/
def EthFrame.daddr (F : EthFrame) : ℕ := ipDaddr (store (fun _ => 0) 0 F.bytes) ethHlen

theorem Frame.Holds.data_eq (h : f.Holds bs) : f.data = f.addr := by
  have hlt := h.1
  unfold Frame.data addOffsetToAddr
  omega

theorem Frame.Holds.byte (h : f.Holds bs) {i : ℕ} (hi : i < bs.length) :
    f.umem (f.addr + i) = bs[i] := by
  obtain ⟨-, hlen, hload⟩ := h
  have hi' : i < (load f.umem f.addr f.len).length := by rwa [load_length, hlen]
  have hget := getElem_load f.umem f.addr hi'
  simp only [hload] at hget
  exact hget.symm

/-- A node whose UMEM is that of the frame. -/
def Frame.hop (h : f.Holds bs) (g : Globals) (topo : ℕ) (destIndex : ℤ) : Hop :=
  ⟨g, topo, destIndex, f.umem, f.addr, h.1, .zero⟩

/-- The frame is in that UMEM. -/
theorem Frame.Holds.receive_eq (h : f.Holds bs) (g : Globals) (topo : ℕ) (destIndex : ℤ) :
    (Frame.hop h g topo destIndex).receive bs = f.umem := by
  have hdata : addOffsetToAddr f.addr = f.addr := h.data_eq
  funext i
  show store f.umem (addOffsetToAddr f.addr) bs i = f.umem i
  rw [hdata]
  by_cases hin : f.addr ≤ i ∧ i < f.addr + bs.length
  · obtain ⟨j, rfl⟩ := Nat.exists_eq_add_of_le hin.1
    have hj : j < bs.length := by omega
    rw [store_inside _ _ hj, h.byte hj]
  · rw [store_of_ne _ (by omega)]

theorem InTunnel.tunnelAt (h : InTunnel F k f) : TunnelAt F k f.umem f.addr := by
  obtain ⟨bs, htun, hholds⟩ := h
  refine htun.2.congr fun i hi => ?_
  have hi' : i < bs.length := by rwa [htun.1]
  rw [hholds.byte hi', store_inside _ _ hi']

theorem InTunnel.len_eq (h : InTunnel F k f) : f.len = F.bytes.length + encapSize := by
  obtain ⟨bs, htun, -, hlen, -⟩ := h
  rw [hlen, htun.1]

theorem InTunnel.addr_lt (h : InTunnel F k f) : f.addr + encapSize < 281474976710656 := by
  obtain ⟨bs, -, haddr, -⟩ := h
  exact haddr

theorem InTunnel.data_eq (h : InTunnel F k f) : f.data = f.addr := by
  obtain ⟨bs, -, hholds⟩ := h
  exact hholds.data_eq

/-- A frame with the tunnelled form in its UMEM. -/
theorem InTunnel.of_tunnelAt (h : TunnelAt F k f.umem f.addr)
    (hlen : f.len = F.bytes.length + encapSize)
    (haddr : f.addr + encapSize < 281474976710656) : InTunnel F k f := by
  refine ⟨load f.umem f.addr (F.bytes.length + encapSize), h.sent, haddr, ?_, ?_⟩
  · rw [load_length, hlen]
  · rw [hlen]

/-! ### What a node makes of a frame -/

section Calls

variable {g : Globals} {destIndex : ℤ} {topo : ℕ} {m : Mem}

/-- `encap_veth` puts a frame into the tunnel. -/
theorem Frame.Holds.encapVeth (h : f.Holds F.bytes) {newLen : ℤ}
    (henc : RotorXdp.encapVeth g destIndex topo f.umem f.data f.len f.addr = .ok (m, newLen)) :
    InTunnel F 0 (f.rewrite m newLen) := by
  have hmax := F.max_len
  have hlook : nextHopMac (Frame.hop h g topo destIndex).g destIndex
      (Frame.hop h g topo destIndex).topo = _ := encapVeth_mac henc
  obtain ⟨m', hm', hat⟩ := Hop.encapVeth_tunnelAt (F := F) hlook
  rw [h.receive_eq] at hm'
  rw [h.data_eq, h.2.1] at henc
  cases henc.symm.trans hm'
  refine InTunnel.of_tunnelAt hat ?_ h.1
  show toU32 ((F.bytes.length + encapSize : ℕ) : ℤ) = _
  exact toU32_natCast (by omega)

/-- `encap_indirection` counts a hop. -/
theorem InTunnel.encapIndirection (h : InTunnel F k f)
    (henc : RotorXdp.encapIndirection g destIndex topo f.umem f.data = .ok m) :
    InTunnel F (k + 1) { f with umem := m } := by
  have hlen := h.len_eq
  obtain ⟨bs, htun, hholds⟩ := h
  have hlook : nextHopMac (Frame.hop hholds g topo destIndex).g destIndex
      (Frame.hop hholds g topo destIndex).topo = _ := encapIndirection_mac henc
  obtain ⟨m', hm', hat⟩ := htun.redirected hlook
  rw [hholds.receive_eq] at hm'
  rw [hholds.data_eq] at henc
  cases henc.symm.trans hm'
  exact InTunnel.of_tunnelAt hat hlen hholds.1

theorem InTunnel.passesChecks (h : InTunnel F k f) : f.passesChecks := by
  unfold Frame.passesChecks
  rw [h.data_eq]
  exact h.tunnelAt.passesChecks

theorem InTunnel.outerDaddr (h : InTunnel F k f) : f.outerDaddr = F.dest := by
  unfold Frame.outerDaddr
  rw [h.data_eq]
  exact h.tunnelAt.daddr

theorem InTunnel.innerDaddr (h : InTunnel F k f) : f.innerDaddr = F.daddr := by
  have hmin := F.min_len
  have hlen : ethHlen + iphdrLen = 34 := rfl
  unfold Frame.innerDaddr
  rw [h.data_eq]
  refine le32_congr fun i hi => ?_
  exact h.tunnelAt.inner_eq (o := 30) (i := i) (by omega)

/-- The tunnelled frame without its outer headers. -/
theorem InTunnel.decapsulated (h : InTunnel F k f) :
    (f.rewrite (copy f.umem f.addr (f.addr + innerEth) (f.len - innerEth))
      (f.len - innerEth : ℕ)).Holds F.bytes := by
  have hmax := F.max_len
  have hsub : f.len - innerEth = F.bytes.length := by
    rw [h.len_eq]
    exact Nat.add_sub_cancel _ _
  have hlen : toU32 ((F.bytes.length : ℕ) : ℤ) = F.bytes.length := toU32_natCast (by omega)
  rw [hsub]
  refine ⟨h.addr_lt, hlen, ?_⟩
  show load (copy f.umem f.addr (f.addr + innerEth) F.bytes.length) f.addr
    (toU32 ((F.bytes.length : ℕ) : ℤ)) = F.bytes
  rw [hlen]
  refine load_eq fun i hi => ?_
  rw [copy_inside _ _ _ hi]
  exact h.tunnelAt.inner i hi

end Calls

/-- **A tunnelled frame is delivered to the namespace of its last octet at the node of its
destination, and forwarded at any other node.** -/
theorem InTunnel.nicReceive (h : InTunnel F k f) {i : ℕ} (hi : i < P.n)
    {ret ret' : ReturnProcessRx} {Q : QueueId}
    (hrecv : RotorXdp.nicReceive P (P.n + i) ret f = .ok (ret', .offer Q f')) :
    (F.dest = P.g.srcIp ∧ ∃ q : ℕ, (q : ℤ) = fourthOctet F.daddr - 2 ∧ Q = .veth q ∧
      f'.Holds F.bytes) ∨
    F.dest ≠ P.g.srcIp ∧ (∃ q, Q = .nonLocal q) ∧ InTunnel F k f' := by
  have hmin := F.min_len
  have hsizes : ethHlen + iphdrLen = 34 ∧ innerEth = 40 ∧ encapSize = 40 := ⟨rfl, rfl, rfl⟩
  have hlen := h.len_eq
  have hmark : f.len ≠ innerEth + 1 := by omega
  unfold RotorXdp.nicReceive at hrecv
  split at hrecv
  · cases hrecv
  · rename_i locals hlocals
    obtain ⟨-, rfl⟩ := (nicLocals_eq_ok hi).1 hlocals
    by_cases hsrc : f.outerDaddr = P.g.srcIp
    · left
      refine ⟨h.outerDaddr.symm.trans hsrc, ?_⟩
      have hlocal : ∀ {m ret₁ verdict}, nicFrame P.g (nicRxLocals P.v) ret f =
          .ok (m, ret₁, verdict) → _ := fun hf => nicFrame_local h.passesChecks hsrc hmark hf
      split at hrecv
      · cases hrecv
      · rename_i m ret₁ q len hf
        obtain ⟨-, -, o, -, hverdict⟩ := hlocal hf
        cases o <;> cases hverdict
      · rename_i m ret₁ q len hf
        obtain ⟨hle, hlt, o, ho, hverdict⟩ := hlocal hf
        obtain ⟨h0, hv, -⟩ := readEntry_eq_ok.1 ho
        have hcount : (nicRxLocals P.v).vethPortCount = P.v := rfl
        rw [hcount] at ho hv
        rw [readEntry_veth h0 hv] at ho
        cases ho
        cases hverdict
        have hget := (nicFrame_eq_ok.1 hf).1
        rw [getQueueIndexForNicRx_local h.passesChecks hsrc, if_pos ⟨hle, hlt⟩] at hget
        cases hget
        cases hrecv
        refine ⟨_, ?_, rfl, h.decapsulated⟩
        rw [← h.innerDaddr]
        exact Int.toNat_of_nonneg h0
      · cases hrecv
      · cases hrecv
    · right
      refine ⟨fun heq => hsrc (h.outerDaddr.trans heq), ?_⟩
      have hremote : ∀ {m ret₁ verdict}, nicFrame P.g (nicRxLocals P.v) ret f =
          .ok (m, ret₁, verdict) → _ := fun hf => nicFrame_remote h.passesChecks hsrc hf
      split at hrecv
      · cases hrecv
      · rename_i m ret₁ q len hf
        obtain ⟨p, o, hp, -, hverdict⟩ := hremote hf
        have hget := (nicFrame_eq_ok.1 hf).1
        rw [getQueueIndexForNicRx_forward _ _ _ h.passesChecks (Ne.symm hsrc) hp] at hget
        cases hget
        have hsame : len = f.len := by
          cases o with
          | none => cases hverdict
          | some q => exact (Verdict.nonLocal.inj hverdict).2
        cases hrecv
        refine ⟨⟨q, rfl⟩, InTunnel.of_tunnelAt h.tunnelAt ?_ h.addr_lt⟩
        show toU32 ((len : ℕ) : ℤ) = _
        rw [hsame, toU32_natCast f.len_lt, hlen]
      · rename_i m ret₁ q len hf
        obtain ⟨p, o, -, -, hverdict⟩ := hremote hf
        cases o <;> cases hverdict
      · cases hrecv
      · cases hrecv

/-- **What a descriptor holds.** The packet of a descriptor is in the tunnel behind a NIC port, and
the frame as it was sent behind a namespace port. -/
theorem Emitted.carries {e : TxEntry} (h : Emitted P p e) :
    (∀ k, e.packet.port < P.n → InTunnel F k e.packet.rx →
      (p < P.n ∧ InTunnel F (k + 1) e.frame) ∨
      F.dest = P.g.srcIp ∧ ∃ q : ℕ, (q : ℤ) = fourthOctet F.daddr - 2 ∧ p = P.n + q ∧
        e.frame.Holds F.bytes) ∧
    (¬ e.packet.port < P.n → e.packet.rx.Holds F.bytes → p < P.n ∧ InTunnel F 0 e.frame) := by
  obtain ⟨Q, w, x, topo, f⟩ := e
  have hprep := h.prepared
  obtain ⟨pos, hslot⟩ := h.slot
  simp only at hprep hslot
  constructor
  · intro k hport hrx
    obtain ⟨ret, ret', hrecv⟩ := h.offered.of_nic hport
    rcases hrx.nicReceive hport hrecv with ⟨hdest, q, hq, rfl, hholds⟩ | ⟨-, ⟨q, rfl⟩, htun⟩
    · cases hprep
      rcases slotAt_eq hslot with ⟨-, -, hQ | hQ⟩ | ⟨hp, -, hQ⟩
      · cases hQ
      · cases hQ
      · refine .inr ⟨hdest, q, hq, ?_, hholds⟩
        have hqp := QueueId.veth.inj hQ
        omega
    · left
      unfold prepare at hprep
      simp only at hprep
      split at hprep
      · cases hprep
      · rename_i m henc
        cases hprep
        refine ⟨?_, htun.encapIndirection henc⟩
        rcases slotAt_eq hslot with ⟨hp, -⟩ | ⟨-, -, hQ⟩
        · exact hp
        · cases hQ
  · intro hport hrx
    obtain ⟨hframe, q, hQ⟩ := vethReceive_offer (h.offered.of_veth hport)
    simp only at hframe hQ
    subst hQ
    unfold prepare at hprep
    simp only [hframe] at hprep
    split at hprep
    · cases hprep
    · rename_i m newLen henc
      cases hprep
      refine ⟨?_, hrx.encapVeth henc⟩
      rcases slotAt_eq hslot with ⟨hp, -⟩ | ⟨-, -, hQ⟩
      · exact hp
      · cases hQ

/-! ### The descriptors of a node -/

/-- A TX ring grows by what is sent, and the kernel takes from its front. -/
theorem NodeStep.sent_txq {s s' : Node} {a : NodeAct} (h : NodeStep P s a s') (p : ℕ) :
    (∃ es, s'.log.sent p = s.log.sent p ++ es ∧ s'.txq p = s.txq p ++ es) ∨
    a = .kernelTake p ∧ s'.log.sent p = s.log.sent p ∧ ∃ e, s.txq p = e :: s'.txq p := by
  have hsame : ∀ {u : Node}, u.log.sent = s.log.sent → u.txq = s.txq →
      ∃ es, u.log.sent p = s.log.sent p ++ es ∧ u.txq p = s.txq p ++ es := by
    intro u hsent htxq
    refine ⟨[], ?_, ?_⟩
    · rw [hsent, List.append_nil]
    · rw [htxq, List.append_nil]
  cases h with
  | kernelTake q e rest htxq hroom =>
    by_cases hp : p = q
    · subst hp
      refine .inr ⟨rfl, rfl, e, ?_⟩
      simp only [update_self]
      exact htxq
    · refine .inl ⟨[], (List.append_nil _).symm, ?_⟩
      simp only [update_of_ne hp]
      exact (List.append_nil _).symm
  | submit t q ht =>
    by_cases hp : p = q
    · subst hp
      refine .inl ⟨(s.tx t).collector, ?_, ?_⟩ <;> simp only [update_self]
    · refine .inl ⟨[], ?_, ?_⟩ <;> simp only [update_of_ne hp, List.append_nil]
  | reject t q x rest ret Q f ht hburst hrecv hfull =>
    obtain ⟨bp, bc, fault, he⟩ := Node.release_eq
      { s with rx := update s.rx t ⟨rest, ret⟩ } t q [x.rx.addr]
    rw [he]
    exact .inl (hsame rfl rfl)
  | giveBack t q x rest ret ht hburst hrecv =>
    obtain ⟨bp, bc, fault, he⟩ := Node.release_eq
      { s with rx := update s.rx t ⟨rest, ret⟩ } t q [x.rx.addr]
    rw [he]
    exact .inl (hsame rfl rfl)
  | drain t q k s₁ ht hk hs₁ =>
    obtain ⟨bp, bc, fault, he⟩ := Node.release_eq (s.note [⟨t, q, .txComp⟩]) t q
      ((s.umemCq q).take k)
    rw [hs₁, he]
    exact .inl (hsame rfl rfl)
  | _ => exact .inl (hsame rfl rfl)

/-! ### The network -/

/-- The nodes, the frames on the wire with their numbers, and what has happened so far. -/
structure Fabric where
  node : ℕ → Node
  wire : List (ℕ × List UInt8)
  /-- the frames that namespaces have sent; the number of a frame is its index -/
  sent : List EthFrame
  /-- the frames that have come to each port of each node, with their numbers -/
  came : ℕ → ℕ → List (ℕ × Frame)
  /-- the descriptors that the NIC of each node has taken from each TX ring -/
  left : ℕ → ℕ → List TxEntry

inductive FabricAct
  /-- a step of node `i` in which no frame arrives -/
  | inside (i : ℕ) (a : NodeAct)
  /-- the namespace behind port `p` of node `i` sends `F`, which the kernel puts into frame `f` -/
  | send (i p : ℕ) (F : EthFrame) (f : Frame)
  /-- NIC port `p` of node `i` receives frame `w` of the wire into frame `f` -/
  | receive (i p w : ℕ) (f : Frame)

/-- One more item in one of the lists. -/
def addTo {α : Type*} (l : ℕ → ℕ → List α) (i p : ℕ) (x : α) : ℕ → ℕ → List α :=
  update l i (update (l i) p (l i p ++ [x]))

namespace Fabric

/-- The nodes when their ports are set up. -/
def start (bp : ℕ → Bpool) (ports : ℕ → ℕ → PortInit) : Fabric where
  node i := Node.start (bp i) (ports i)
  wire := []
  sent := []
  came _ _ := []
  left _ _ := []

/-- The number of the frame that a packet of node `i` is made of. -/
def number (s : Fabric) (i : ℕ) (x : Packet) : ℕ :=
  (((s.came i x.port)[x.stamp]?).map Prod.fst).getD 0

/-- The NIC of node `i` sends the frame that its kernel takes. -/
def transmit (P : ℕ → NodeParams) (s : Fabric) (i : ℕ) : NodeAct → Fabric
  | .kernelTake p =>
    if p < (P i).n then
      match (s.node i).txq p with
      | [] => s
      | e :: _ =>
        { s with
          wire := s.wire ++
            [(s.number i e.packet, load e.frame.umem e.frame.addr e.frame.len)]
          left := addTo s.left i p e }
    else s
  | _ => s

/-- One step of the network. -/
def step (P : ℕ → NodeParams) (s : Fabric) : FabricAct → Option Fabric
  | .inside _ (.arrive _ _) => none
  | .inside i a =>
    ((s.node i).step (P i) a).map fun u =>
      { s.transmit P i a with node := update s.node i u }
  | .send i p F f =>
    if (P i).n ≤ p ∧ f.Holds F.bytes then
      ((s.node i).step (P i) (.arrive p f)).map fun u =>
        { s with
          node := update s.node i u
          sent := s.sent ++ [F]
          came := addTo s.came i p (s.sent.length, f) }
    else none
  | .receive i p w f =>
    match s.wire[w]? with
    | none => none
    | some (id, bs) =>
      if p < (P i).n ∧ f.Holds bs then
        ((s.node i).step (P i) (.arrive p f)).map fun u =>
          { s with
            node := update s.node i u
            wire := s.wire.eraseIdx w
            came := addTo s.came i p (id, f) }
      else none

/-- The places of the frames: a slot for each frame that comes to a port. -/
def custody (s : Fabric) : Custody (ℕ × ℕ × ℕ) where
  made := s.sent.length
  store := s.wire.map Prod.fst
  held x := ((s.came x.1 x.2.1)[x.2.2]?).map Prod.fst
  gone := {x | ∃ q, ∃ e ∈ s.left x.1 q, e.packet.port = x.2.1 ∧ e.packet.stamp = x.2.2}

/-- What the network keeps. -/
structure Inv (P : ℕ → NodeParams) (s : Fabric) : Prop where
  traced : ∀ i, Traced (P i) (fun p => (s.came i p).map Prod.snd) (s.node i)
  nic : ∀ i p, p < (P i).n → ∀ y ∈ s.came i p, ∃ F k, s.sent[y.1]? = some F ∧ InTunnel F k y.2
  veth : ∀ i p, ¬ p < (P i).n → ∀ y ∈ s.came i p, ∃ F, s.sent[y.1]? = some F ∧ y.2.Holds F.bytes
  wire : ∀ y ∈ s.wire, ∃ F k, s.sent[y.1]? = some F ∧ Tunnelled F k y.2
  left : ∀ i p, p < (P i).n → (s.node i).log.sent p = s.left i p ++ (s.node i).txq p
  left_nil : ∀ i p, ¬ p < (P i).n → s.left i p = []
  custody : s.custody.Inv

variable {P : ℕ → NodeParams} {s s' : Fabric} {i p : ℕ} {u : Node} {f : Frame} {id : ℕ}

theorem addTo_apply {α : Type*} (l : ℕ → ℕ → List α) (i p : ℕ) (x : α) (j q : ℕ) :
    addTo l i p x j q = if j = i ∧ q = p then l i p ++ [x] else l j q := by
  unfold addTo
  by_cases hj : j = i
  · subst hj
    by_cases hq : q = p
    · subst hq
      rw [update_self, update_self, if_pos ⟨rfl, rfl⟩]
    · rw [update_self, update_of_ne hq, if_neg fun h => hq h.2]
  · rw [update_of_ne hj, if_neg fun h => hj h.1]

theorem mem_addTo {α : Type*} {l : ℕ → ℕ → List α} {x y : α} {j q : ℕ}
    (hy : y ∈ addTo l i p x j q) : y ∈ l j q ∨ j = i ∧ q = p ∧ y = x := by
  rw [addTo_apply] at hy
  split at hy
  · rename_i h
    obtain ⟨rfl, rfl⟩ := h
    rcases List.mem_append.1 hy with hy | hy
    · exact .inl hy
    · exact .inr ⟨rfl, rfl, List.mem_singleton.1 hy⟩
  · exact .inl hy

/-! ### What a step does -/

/-- The three kinds of steps. -/
theorem step_cases {a : FabricAct} (h : s.step P a = some s') :
    (∃ i a u, (∀ p f, a ≠ .arrive p f) ∧ (s.node i).step (P i) a = some u ∧
      s' = { s.transmit P i a with node := update s.node i u }) ∨
    (∃ i p F f u, ¬ p < (P i).n ∧ f.Holds F.bytes ∧
      (s.node i).step (P i) (.arrive p f) = some u ∧
      s' = { s with
        node := update s.node i u
        sent := s.sent ++ [F]
        came := addTo s.came i p (s.sent.length, f) }) ∨
    ∃ i p w f u id bs, s.wire[w]? = some (id, bs) ∧ p < (P i).n ∧ f.Holds bs ∧
      (s.node i).step (P i) (.arrive p f) = some u ∧
      s' = { s with
        node := update s.node i u
        wire := s.wire.eraseIdx w
        came := addTo s.came i p (id, f) } := by
  unfold step at h
  split at h
  · cases h
  · rename_i i a hne
    obtain ⟨u, hu, rfl⟩ := Option.map_eq_some_iff.1 h
    exact .inl ⟨i, a, u, hne, hu, rfl⟩
  · rename_i i p F f
    split at h
    · rename_i hg
      obtain ⟨u, hu, rfl⟩ := Option.map_eq_some_iff.1 h
      exact .inr (.inl ⟨i, p, F, f, u, Nat.not_lt_of_le hg.1, hg.2, hu, rfl⟩)
    · cases h
  · rename_i i p w f
    split at h
    · cases h
    · rename_i id bs hw
      split at h
      · rename_i hg
        obtain ⟨u, hu, rfl⟩ := Option.map_eq_some_iff.1 h
        exact .inr (.inr ⟨i, p, w, f, u, id, bs, hw, hg.1, hg.2, hu, rfl⟩)
      · cases h

/-- After a frame has come, its slot has its number. -/
theorem held_addTo (s : Fabric) (i p id : ℕ) (f : Frame) :
    (fun x : ℕ × ℕ × ℕ => ((addTo s.came i p (id, f) x.1 x.2.1)[x.2.2]?).map Prod.fst) =
      update s.custody.held (i, p, (s.came i p).length) (some id) := by
  funext ⟨j, q, k⟩
  simp only [addTo_apply]
  by_cases hjq : j = i ∧ q = p
  · obtain ⟨rfl, rfl⟩ := hjq
    rw [if_pos ⟨rfl, rfl⟩]
    rcases Nat.lt_trichotomy k (s.came j q).length with hlt | rfl | hgt
    · rw [List.getElem?_append_left hlt, update_of_ne]
      · rfl
      · intro h
        cases h
        exact Nat.lt_irrefl _ hlt
    · rw [update_self, List.getElem?_append_right (Nat.le_refl _), Nat.sub_self]
      rfl
    · rw [update_of_ne]
      · rw [List.getElem?_eq_none (by rw [List.length_append, List.length_singleton]; omega)]
        show none = ((s.came j q)[k]?).map Prod.fst
        rw [List.getElem?_eq_none (Nat.le_of_lt hgt)]
        rfl
      · intro h
        cases h
        exact Nat.lt_irrefl _ hgt
  · rw [if_neg hjq, update_of_ne]
    · rfl
    · intro h
      cases h
      exact hjq ⟨rfl, rfl⟩

/-- The next slot of a port is free. -/
theorem held_next (s : Fabric) (i p : ℕ) : s.custody.held (i, p, (s.came i p).length) = none := by
  show ((s.came i p)[(s.came i p).length]?).map Prod.fst = none
  rw [List.getElem?_eq_none (Nat.le_refl _)]
  rfl

/-- Each node keeps track of a frame that comes. -/
theorem Inv.traced_arrive (h : s.Inv P) (id : ℕ)
    (hu : (s.node i).step (P i) (.arrive p f) = some u) (j : ℕ) :
    Traced (P j) (fun q => (addTo s.came i p (id, f) j q).map Prod.snd) (update s.node i u j) := by
  by_cases hj : j = i
  · subst hj
    rw [update_self]
    have htraced := (h.traced j).step (NodeStep.of_step hu).2
    convert htraced using 1
    funext q
    rw [addTo_apply]
    by_cases hq : q = p
    · subst hq
      rw [if_pos ⟨rfl, rfl⟩, noteArrival, update_self, List.map_append]
      rfl
    · rw [if_neg fun h => hq h.2, noteArrival, update_of_ne hq]
  · rw [update_of_ne hj]
    convert h.traced j using 1
    funext q
    rw [addTo_apply, if_neg fun h => hj h.1]

/-- What the NICs have taken when no NIC takes anything. -/
theorem Inv.left_same (h : s.Inv P) {a : NodeAct} (hu : (s.node i).step (P i) a = some u)
    (hne : ∀ p, p < (P i).n → a ≠ .kernelTake p) (j q : ℕ) (hq : q < (P j).n) :
    (update s.node i u j).log.sent q = s.left j q ++ (update s.node i u j).txq q := by
  by_cases hj : j = i
  · subst hj
    rw [update_self]
    rcases (NodeStep.of_step hu).2.sent_txq q with ⟨es, hsent, htxq⟩ | ⟨ha, -⟩
    · rw [hsent, htxq, h.left j q hq, List.append_assoc]
    · exact absurd ha (hne q hq)
  · rw [update_of_ne hj]
    exact h.left j q hq

/-- A frame that is known stays known. -/
theorem getElem?_sent {id : ℕ} {F : EthFrame} (h : s.sent[id]? = some F) (G : EthFrame) :
    (s.sent ++ [G])[id]? = some F := by
  rw [List.getElem?_append_left (List.getElem?_eq_some_iff.1 h).1]
  exact h

/-- **A namespace sends a frame.** -/
theorem Inv.send (h : s.Inv P) {F : EthFrame} (hp : ¬ p < (P i).n) (hf : f.Holds F.bytes)
    (hu : (s.node i).step (P i) (.arrive p f) = some u) :
    Inv P { s with
      node := update s.node i u
      sent := s.sent ++ [F]
      came := addTo s.came i p (s.sent.length, f) } := by
  refine ⟨h.traced_arrive _ hu, ?_, ?_, ?_, h.left_same hu (fun p _ => by simp), h.left_nil, ?_⟩
  · intro j q hq y hy
    rcases mem_addTo hy with hy | ⟨rfl, rfl, -⟩
    · obtain ⟨G, k, hG, htun⟩ := h.nic j q hq y hy
      exact ⟨G, k, getElem?_sent hG F, htun⟩
    · exact absurd hq hp
  · intro j q hq y hy
    rcases mem_addTo hy with hy | ⟨-, -, rfl⟩
    · obtain ⟨G, hG, hholds⟩ := h.veth j q hq y hy
      exact ⟨G, getElem?_sent hG F, hholds⟩
    · refine ⟨F, ?_, hf⟩
      rw [List.getElem?_append_right (Nat.le_refl _), Nat.sub_self]
      rfl
  · intro y hy
    obtain ⟨G, k, hG, htun⟩ := h.wire y hy
    exact ⟨G, k, getElem?_sent hG F, htun⟩
  · have hstep := Custody.Step.make (c := s.custody) _ (held_next s i p)
    have hinv := h.custody.step hstep
    convert hinv using 1
    unfold Fabric.custody
    simp only [List.length_append, List.length_singleton]
    rw [held_addTo]
    rfl

/-- **A NIC receives a frame.** -/
theorem Inv.receive (h : s.Inv P) {w : ℕ} {bs : List UInt8} (hw : s.wire[w]? = some (id, bs))
    (hp : p < (P i).n) (hf : f.Holds bs)
    (hu : (s.node i).step (P i) (.arrive p f) = some u) :
    Inv P { s with
      node := update s.node i u
      wire := s.wire.eraseIdx w
      came := addTo s.came i p (id, f) } := by
  have hmem : (id, bs) ∈ s.wire := List.mem_of_getElem? hw
  refine ⟨h.traced_arrive _ hu, ?_, ?_, ?_, h.left_same hu (fun p _ => by simp), h.left_nil, ?_⟩
  · intro j q hq y hy
    rcases mem_addTo hy with hy | ⟨-, -, rfl⟩
    · exact h.nic j q hq y hy
    · obtain ⟨G, k, hG, htun⟩ := h.wire _ hmem
      exact ⟨G, k, hG, bs, htun, hf⟩
  · intro j q hq y hy
    rcases mem_addTo hy with hy | ⟨rfl, rfl, -⟩
    · exact h.veth j q hq y hy
    · exact absurd hp hq
  · intro y hy
    exact h.wire y (List.mem_of_mem_eraseIdx hy)
  · obtain ⟨hlt, hget⟩ := List.getElem?_eq_some_iff.1 hw
    have hsplit : s.custody.store =
        (s.wire.take w).map Prod.fst ++ id :: (s.wire.drop (w + 1)).map Prod.fst := by
      show s.wire.map Prod.fst = _
      conv_lhs => rw [← List.take_append_drop w s.wire, List.drop_eq_getElem_cons hlt, hget]
      rw [List.map_append]
      rfl
    have hinv := h.custody.step (Custody.Step.take _ id _ _ (held_next s i p) hsplit)
    convert hinv using 1
    unfold Fabric.custody
    simp only
    rw [held_addTo, List.eraseIdx_eq_take_drop_succ, List.map_append]
    rfl

/-! ### The descriptors in the network -/

/-- The slot of the packet of a descriptor. -/
theorem Inv.slot (h : s.Inv P) {e : TxEntry} (he : e ∈ (s.node i).log.sent p) :
    Emitted (P i) p e ∧ ∃ y, (s.came i e.packet.port)[e.packet.stamp]? = some y ∧
      y.2 = e.packet.rx ∧ s.number i e.packet = y.1 := by
  obtain ⟨hemitted, hrx⟩ := (h.traced i).sent he
  rw [List.getElem?_map] at hrx
  obtain ⟨y, hy, hyrx⟩ := Option.map_eq_some_iff.1 hrx
  refine ⟨hemitted, y, hy, hyrx, ?_⟩
  rw [number, hy]
  rfl

/-- What a descriptor holds, in terms of the frame that a namespace has sent. -/
theorem Inv.known (h : s.Inv P) {e : TxEntry} (he : e ∈ (s.node i).log.sent p) :
    ∃ F, s.sent[s.number i e.packet]? = some F ∧
      ((p < (P i).n ∧ ∃ k, InTunnel F k e.frame) ∨
        F.dest = (P i).g.srcIp ∧ ∃ q : ℕ, (q : ℤ) = fourthOctet F.daddr - 2 ∧ p = (P i).n + q ∧
          e.frame.Holds F.bytes) := by
  obtain ⟨hemitted, y, hy, hyrx, hnumber⟩ := h.slot he
  have hmem : y ∈ s.came i e.packet.port := List.mem_of_getElem? hy
  rw [hnumber]
  by_cases hport : e.packet.port < (P i).n
  · obtain ⟨F, k, hF, htun⟩ := h.nic i _ hport y hmem
    rw [hyrx] at htun
    refine ⟨F, hF, ?_⟩
    rcases hemitted.carries.1 k hport htun with ⟨hp, htun'⟩ | hdelivered
    · exact .inl ⟨hp, k + 1, htun'⟩
    · exact .inr hdelivered
  · obtain ⟨F, hF, hholds⟩ := h.veth i _ hport y hmem
    rw [hyrx] at hholds
    obtain ⟨hp, htun⟩ := hemitted.carries.2 hport hholds
    exact ⟨F, hF, .inl ⟨hp, 0, htun⟩⟩

/-- A node keeps a frame until its NIC has taken the descriptor. -/
theorem Inv.keeps (h : s.Inv P) {e : TxEntry} {j : ℕ}
    (hget : ((s.node i).log.sent p)[j]? = some e)
    (hleft : p < (P i).n → (s.left i p).length ≤ j) :
    s.custody.Keeps (i, e.packet.port, e.packet.stamp) (s.number i e.packet) := by
  obtain ⟨-, y, hy, -, hnumber⟩ := h.slot (List.mem_of_getElem? hget)
  constructor
  · show ((s.came i e.packet.port)[e.packet.stamp]?).map Prod.fst = _
    rw [hy, hnumber]
    rfl
  · rintro ⟨q, e', he', hport, hstamp⟩
    simp only at he' hport hstamp
    have hq : q < (P i).n := by
      by_contra hq
      rw [h.left_nil i q hq] at he'
      exact absurd he' List.not_mem_nil
    obtain ⟨j', hj'⟩ := List.getElem?_of_mem he'
    have hlt := (List.getElem?_eq_some_iff.1 hj').1
    have hget' : ((s.node i).log.sent q)[j']? = some e' := by
      rw [h.left i q hq, List.getElem?_append_left hlt]
      exact hj'
    -- the packet would have been sent twice
    obtain ⟨rfl, rfl⟩ := (h.traced i).sent_once hget' hget hport hstamp
    exact absurd (hleft hq) (Nat.not_le_of_lt hlt)

/-! ### Steps of the nodes -/

theorem transmit_same {a : NodeAct} (hne : ∀ p, p < (P i).n → a ≠ .kernelTake p) :
    s.transmit P i a = s := by
  cases a with
  | kernelTake p =>
    have hp : ¬ p < (P i).n := fun hp => hne p hp rfl
    simp only [transmit, if_neg hp]
  | _ => rfl

/-- A node takes a step in which no frame arrives. -/
theorem Inv.traced_inside (h : s.Inv P) {a : NodeAct} (ha : ∀ p f, a ≠ .arrive p f)
    (hu : (s.node i).step (P i) a = some u) (j : ℕ) :
    Traced (P j) (fun q => (s.came j q).map Prod.snd) (update s.node i u j) := by
  by_cases hj : j = i
  · subst hj
    rw [update_self]
    have htraced := (h.traced j).step (NodeStep.of_step hu).2
    have hsame : ∀ arrived, noteArrival arrived a = arrived := by
      intro arrived
      cases a with
      | arrive p f => exact absurd rfl (ha p f)
      | _ => rfl
    rwa [hsame] at htraced
  · rw [update_of_ne hj]
    exact h.traced j

/-- **A NIC takes a descriptor.** -/
theorem Inv.take (h : s.Inv P) (hp : p < (P i).n)
    (hu : (s.node i).step (P i) (.kernelTake p) = some u) :
    Inv P { s.transmit P i (.kernelTake p) with node := update s.node i u } := by
  have htraced := h.traced_inside (fun _ _ => by simp) hu
  have hstep := (NodeStep.of_step hu).2
  cases hstep with
  | kernelTake _ e rest htxq hroom =>
    have hsent : (s.node i).log.sent p = s.left i p ++ e :: rest := by
      rw [h.left i p hp, htxq]
    have hget : ((s.node i).log.sent p)[(s.left i p).length]? = some e := by
      rw [hsent, List.getElem?_append_right (Nat.le_refl _), Nat.sub_self]
      rfl
    have hkeeps := h.keeps hget fun _ => Nat.le_refl _
    obtain ⟨F, hF, hholds⟩ := h.known (List.mem_of_getElem? hget)
    have htransmit : s.transmit P i (.kernelTake p) =
        { s with
          wire := s.wire ++ [(s.number i e.packet, load e.frame.umem e.frame.addr e.frame.len)]
          left := addTo s.left i p e } := by
      simp only [transmit, if_pos hp, htxq]
    rw [htransmit]
    refine ⟨htraced, h.nic, h.veth, ?_, ?_, ?_, ?_⟩
    · intro y hy
      rcases List.mem_append.1 hy with hy | hy
      · exact h.wire y hy
      · rw [List.mem_singleton.1 hy]
        rcases hholds with ⟨-, k, bs, htun, -, -, hload⟩ | ⟨-, q, -, hq, -⟩
        · refine ⟨F, k, hF, ?_⟩
          rw [hload]
          exact htun
        · omega
    · intro j q hq
      simp only [addTo_apply]
      by_cases hjq : j = i ∧ q = p
      · obtain ⟨rfl, rfl⟩ := hjq
        simp only [if_pos, and_self, update_self, List.append_assoc]
        exact hsent
      · rw [if_neg hjq]
        by_cases hj : j = i
        · subst hj
          have hqp : q ≠ p := fun hqp => hjq ⟨rfl, hqp⟩
          simp only [update_self, update_of_ne hqp]
          exact h.left j q hq
        · rw [update_of_ne hj]
          exact h.left j q hq
    · intro j q hq
      show addTo s.left i p e j q = []
      rw [addTo_apply, if_neg]
      · exact h.left_nil j q hq
      · rintro ⟨rfl, rfl⟩
        exact hq hp
    · have hinv := h.custody.step (Custody.Step.give _ _ hkeeps.1 hkeeps.2)
      convert hinv using 1
      unfold Fabric.custody
      simp only [List.map_append, List.map_singleton, Custody.mk.injEq, true_and]
      ext ⟨j, q, k⟩
      simp only [Set.mem_ofPred_eq, Set.mem_insert_iff, Prod.mk.injEq]
      constructor
      · rintro ⟨r, e', he', hport, hstamp⟩
        rcases mem_addTo he' with he' | ⟨rfl, -, rfl⟩
        · exact .inr ⟨r, e', he', hport, hstamp⟩
        · exact .inl ⟨rfl, hport.symm, hstamp.symm⟩
      · rintro (⟨rfl, rfl, rfl⟩ | ⟨r, e', he', hport, hstamp⟩)
        · refine ⟨p, e, ?_, rfl, rfl⟩
          rw [addTo_apply, if_pos ⟨rfl, rfl⟩]
          exact List.mem_append_right _ List.mem_cons_self
        · refine ⟨r, e', ?_, hport, hstamp⟩
          rw [addTo_apply]
          split
          · rename_i hjr
            obtain ⟨rfl, rfl⟩ := hjr
            exact List.mem_append_left _ he'
          · exact he'

/-- **Every step keeps the invariant.** -/
theorem Inv.step (h : s.Inv P) {a : FabricAct} (hstep : s.step P a = some s') : s'.Inv P := by
  rcases step_cases hstep with ⟨i, a, u, ha, hu, rfl⟩ | ⟨i, p, F, f, u, hp, hf, hu, rfl⟩ |
    ⟨i, p, w, f, u, id, bs, hw, hp, hf, hu, rfl⟩
  · by_cases htake : ∃ p, p < (P i).n ∧ a = .kernelTake p
    · obtain ⟨p, hp, rfl⟩ := htake
      exact h.take hp hu
    · have hne : ∀ p, p < (P i).n → a ≠ .kernelTake p := fun p hp hap => htake ⟨p, hp, hap⟩
      rw [transmit_same hne]
      exact ⟨h.traced_inside ha hu, h.nic, h.veth, h.wire, h.left_same hu hne, h.left_nil,
        h.custody⟩
  · exact h.send hp hf hu
  · exact h.receive hw hp hf hu

theorem Inv.start (P : ℕ → NodeParams) (bp : ℕ → Bpool) (ports : ℕ → ℕ → PortInit) :
    (Fabric.start bp ports).Inv P := by
  refine ⟨fun i => Traced.start (P i) (bp i) (ports i), ?_, ?_, ?_, fun i p hp => rfl,
    fun i p hp => rfl, ?_⟩
  · intro i p hp y hy
    exact absurd hy List.not_mem_nil
  · intro i p hp y hy
    exact absurd hy List.not_mem_nil
  · intro y hy
    exact absurd hy List.not_mem_nil
  · convert Custody.Inv.empty using 1
    unfold Fabric.custody Custody.empty Fabric.start
    simp

end Fabric

/-- What namespaces are handed, and what is on the wire. -/
structure DeliveredOnce (P : ℕ → NodeParams) (s : Fabric) : Prop where
  /-- the frame was sent by a namespace, for this node and this namespace -/
  delivered : ∀ i p, (P i).n ≤ p → ∀ e ∈ (s.node i).log.sent p, ∃ F,
    s.sent[s.number i e.packet]? = some F ∧ F.dest = (P i).g.srcIp ∧
      (p : ℤ) = (P i).n + (fourthOctet F.daddr - 2) ∧ e.frame.Holds F.bytes
  /-- no two deliveries are of one frame -/
  once : ∀ (i p k i' p' k' : ℕ) (e e' : TxEntry), (P i).n ≤ p → (P i').n ≤ p' →
    ((s.node i).log.sent p)[k]? = some e → ((s.node i').log.sent p')[k']? = some e' →
    s.number i e.packet = s.number i' e'.packet → i = i' ∧ p = p' ∧ k = k'
  /-- between the nodes a frame is in its tunnelled form, in one place -/
  wire : (s.wire.map Prod.fst).Nodup ∧
    ∀ y ∈ s.wire, ∃ F k, s.sent[y.1]? = some F ∧ Tunnelled F k y.2

/-- Two nodes with one NIC and six namespaces each: 10.0.0.2, and 10.0.0.1 after it. -/
def twoNodes (i : ℕ) : NodeParams :=
  ⟨1, 6, smallGlobals (if i = 0 then 33554442 else 16777226), rfl, rfl, 2048⟩

theorem smallFrame_length_lt : smallFrame.bytes.length < 4294967296 := by decide

/-- The frame for 10.0.0.7 as the first node sends it. -/
def sentBytes : List UInt8 :=
  [0, 0, 0, 0, 0, 0, 7, 8, 9, 10, 11, 12, 8, 0,
    69, 0, 0, 40, 0, 0, 0, 0, 64, 47, 0, 0, 10, 0, 1, 2, 10, 0, 0, 1,
    0, 0, 101, 88, 0, 0] ++ smallFrame.bytes

theorem sentBytes_length_lt : sentBytes.length < 4294967296 := by decide

/-- A namespace of the first node sends the frame, and the NIC TX thread finds it in the third of
its local slots. The second node hands it to its sixth namespace. -/
def throughTwo : List FabricAct :=
  List.replicate 14 (.inside 0 .create) ++ List.replicate 14 (.inside 1 .create) ++
  [.inside 0 (.readTime 0 0),
    .send 0 1 smallFrame (frameAt 1470464 smallFrame.bytes smallFrame_length_lt),
    .inside 0 (.rxBurst 2 1), .inside 0 (.handle 2)] ++
  List.replicate 34 (.inside 0 (.leave 0)) ++
  [.inside 0 (.pull 0), .inside 0 (.leave 0), .inside 0 (.drain 0 0), .inside 0 (.submit 0),
    .inside 0 (.kernelTake 0),
    .receive 1 0 0 (frameAt 1634304 sentBytes sentBytes_length_lt),
    .inside 1 (.rxBurst 1 1), .inside 1 (.handle 1), .inside 1 (.pull 13), .inside 1 (.leave 13),
    .inside 1 (.drain 13 0), .inside 1 (.submit 13)]

end RotorXdp
