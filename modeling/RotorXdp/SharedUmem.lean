import RotorXdp.NodeMap
import RotorXdp.Chunks
import RotorXdp.Provenance

/-!
# One memory for all frames

The node gives every frame a memory of its own. In the program there is one UMEM: the rings, the
bursts and the queues hold addresses and lengths, the kernel and the threads read and write the
bytes where they are. `Shared` is the node with that one memory. Since no chunk is in two hands, it
makes the steps of the node, and every frame of the node holds the bytes of its chunk.

* `Shared`, `Shared.step`: the node over one UMEM;
* `Sees`: the node whose frames hold their chunks of the UMEM;
* `Sees.step`: a step of the one is a step of the other;
* `umem_is_shared`: whole runs.
-/

namespace RotorXdp

open Function Runs Bytes Pipelines Racks

variable {P : NodeParams} {u u' : Node} {a : NodeAct} {t p k c : ℕ} {m m' : Mem} {f g : Frame}
  {S : Shared}

/-- The node over one UMEM. Its frames are descriptors. -/
structure Shared where
  node : Node
  umem : Mem

namespace Shared

/-- The UMEM after a step: the kernel fills the chunk of a frame that arrives, a thread writes to
the frame that it handles. -/
def written (P : NodeParams) (S : Shared) : NodeAct → Mem
  | .arrive _ f => fun a =>
    if a / S.node.bp.params.bufferSize = f.addr / S.node.bp.params.bufferSize then f.umem a
    else S.umem a
  | .handle t =>
    match (S.node.rx t).burst with
    | [] => S.umem
    | x :: _ =>
      match receive P t (S.node.rx t).ret (x.rx.on S.umem) with
      | .error _ => S.umem
      | .ok _ => rxWrites P t (S.node.rx t).ret (x.rx.on S.umem)
  | .pull t =>
    match slotAt P t (S.node.tx t).pos with
    | none => S.umem
    | some (Q, w) =>
      match S.node.queue Q with
      | [] => S.umem
      | x :: _ =>
        match prepare P.g S.node.topo Q w (x.frame.on S.umem) with
        | .error _ => S.umem
        | .ok f => f.umem
  | _ => S.umem

/-- A step of the node whose frames all lie in the UMEM. -/
def step (P : NodeParams) (S : Shared) (a : NodeAct) : Option Shared :=
  ((S.node.load S.umem).step P a).map fun s => ⟨s.bare, S.written P a⟩

end Shared

/-! ### The frames of the node -/

/-- The frames at the places that hold some. -/
def Node.frames (P : NodeParams) (u : Node) : Box P.nPorts P.nQueues → List Frame
  | .port .rxq p => u.rxq p
  | .port .burst p => (u.rx (P.rxThread p)).burst.map Packet.rx
  | .port .collector p => (u.tx (P.txThread p)).collector.map TxEntry.frame
  | .port .txq p => (u.txq p).map TxEntry.frame
  | .port .kernelTx p => (u.kernelTx p).map TxEntry.frame
  | .port _ _ => []
  | .queue q => (u.queue (queueAt q)).map Packet.frame

/-- Every frame holds its chunk of the UMEM. -/
structure Sees (P : NodeParams) (c : ℕ) (S : Shared) (u : Node) : Prop where
  node : S.node = u.bare
  frames : ∀ b, ∀ f ∈ u.frames P b, f = f.view c S.umem

/-- The frames of a step: a frame that arrives does so on a port of the node, and fits. -/
def NodeAct.Fits (P : NodeParams) (c : ℕ) : NodeAct → Prop
  | .arrive p f => p < P.nPorts ∧ f.Roomy c
  | _ => True

variable {b b' : Box P.nPorts P.nQueues}

/-- Where there are frames, the pool sees their addresses. -/
theorem held_of_frames {i : ℕ} (h : (u.frames P b)[i]? = some f) :
    (u.held P b)[i]? = some f.addr := by
  have hmap : ∀ l : List Frame, l[i]? = some f → (l.map Frame.addr)[i]? = some f.addr := by
    intro l hl
    rw [List.getElem?_map, hl]
    rfl
  cases b with
  | queue q =>
    have := hmap _ h
    rwa [Node.frames, List.map_map] at this
  | port st p =>
    cases st with
    | umemFq | kernelRx | umemCq => cases h
    | rxq => exact hmap _ h
    | burst | collector | txq | kernelTx =>
      have := hmap _ h
      rwa [Node.frames, List.map_map] at this

theorem Frame.view_congr (hc : 0 < c) (h : ∀ a, a / c = f.addr / c → m a = m' a) :
    f.view c m = f.view c m' :=
  congrArg f.on ((chunkWindow_eq_iff hc).2 h)

/-- A frame with its own memory holds its chunk of that. -/
theorem Frame.own_eq_view (h : f.umem = m) : f.own c = (f.own c).view c m := by
  subst h
  show f.on (chunkWindow c f.addr f.umem) = f.on (chunkWindow c f.addr f.umem)
  rfl

/-! ### No chunk is in two hands -/

section Apart

variable {params : BpoolParams} {N : ℕ} {M : Multiset ℕ} {i j : ℕ}

theorem held_apart (h : PoolInv params N M (u.pool P)) (hM : M.Nodup) {d e : ℕ}
    (hd : (u.held P b)[i]? = some d) (he : (u.held P b')[j]? = some e)
    (hchunk : d / params.bufferSize = e / params.bufferSize) : b = b' ∧ i = j := by
  have hbp : (u.pool P).bp.params = params := h.pool.params_eq
  have hat : ∀ {b : Box P.nPorts P.nQueues} {i d : ℕ}, (u.held P b)[i]? = some d →
      ((u.pool P).framesAt (.box b))[i]? = some (d / params.bufferSize) := by
    intro b i d hd
    show (List.map (u.pool P).bp.frame (u.held P b))[i]? = _
    rw [List.getElem?_map, hd]
    simp only [Option.map_some, Bpool.frame, hbp]
  refine h.apart hM ((hat hd).trans ?_) (List.getElem?_eq_some_iff.1 (hat hd)).1
  rw [hat he, hchunk]

/-- The frames but for the one at one place lie in other chunks. -/
theorem chunk_ne (h : PoolInv params N M (u.pool P)) (hM : M.Nodup)
    (hf : (u.frames P b)[i]? = some f) (hg : (u.frames P b')[j]? = some g)
    (hne : b = b' → i ≠ j) : f.addr / params.bufferSize ≠ g.addr / params.bufferSize := by
  intro hchunk
  obtain ⟨hb, hij⟩ := held_apart h hM (held_of_frames hf) (held_of_frames hg) hchunk
  exact hne hb hij

end Apart

/-! ### Where the frames of a step come from -/

theorem mem_update_cases {ι α : Type*} [DecidableEq ι] {f : ι → List α} {i j : ι} {l : List α}
    {z : α} (h : z ∈ update f i l j) : j = i ∧ z ∈ l ∨ j ≠ i ∧ z ∈ f j := by
  by_cases hj : j = i
  · subst hj
    rw [update_self] at h
    exact .inl ⟨rfl, h⟩
  · rw [update_of_ne hj] at h
    exact .inr ⟨hj, h⟩

theorem mem_of_eq_cons {α : Type*} {l rest : List α} {x : α} (h : l = x :: rest) : x ∈ l := by
  rw [h]
  exact List.mem_cons_self

/-- A frame of the node, at a place other than the first of `b₀`. -/
def Node.Other (P : NodeParams) (u : Node) (b₀ : Box P.nPorts P.nQueues) (f : Frame) : Prop :=
  ∃ b i, (u.frames P b)[i]? = some f ∧ (b = b₀ → i ≠ 0)

theorem Node.Other.of_ne {b₀ : Box P.nPorts P.nQueues} (hf : f ∈ u.frames P b) (hb : b ≠ b₀) :
    u.Other P b₀ f := by
  obtain ⟨i, hi⟩ := List.getElem?_of_mem hf
  exact ⟨b, i, hi, fun h => absurd h hb⟩

theorem Node.Other.of_tail {b₀ : Box P.nPorts P.nQueues} {l : List Frame}
    (hl : u.frames P b₀ = g :: l) (hf : f ∈ l) : u.Other P b₀ f := by
  obtain ⟨i, hi⟩ := List.getElem?_of_mem hf
  refine ⟨b₀, i + 1, ?_, fun _ => Nat.succ_ne_zero i⟩
  rwa [hl, List.getElem?_cons_succ]

/-- The frames when an RX thread is done with the first one of its burst. -/
theorem frames_handled {r : RxThread} {x : Packet} {rest : List Packet} {p : Fin P.nPorts}
    (hburst : (u.rx (P.rxThread p)).burst = x :: rest) (hr : r.burst = rest)
    (hf : f ∈ Node.frames P { u with rx := update u.rx (P.rxThread p) r } b) :
    u.Other P (.port .burst p) f := by
  cases b with
  | queue q => exact .of_ne (b := .queue q) hf (by simp)
  | port st q =>
    by_cases hst : st = .burst
    · subst hst
      have hmem : f ∈ (update u.rx (P.rxThread p) r (P.rxThread q)).burst.map Packet.rx := hf
      by_cases hq : q = p
      · subst hq
        rw [update_self, hr] at hmem
        exact .of_tail (congrArg (List.map Packet.rx) hburst) hmem
      · have hne : P.rxThread q ≠ P.rxThread p := fun h =>
          hq (Fin.val_injective (rxThread_injective P h))
        rw [update_of_ne hne] at hmem
        exact .of_ne (b := .port .burst q) hmem fun h => hq (by cases h; rfl)
    · have hsame : f ∈ u.frames P (.port st q) := by
        cases st <;> first | exact hf | exact absurd rfl hst
      exact .of_ne hsame fun h => hst (by cases h; rfl)

/-- Giving addresses back moves no frame. -/
theorem frames_release (u : Node) (t p : ℕ) (as : List ℕ) :
    (u.release t p as).frames P b = u.frames P b := by
  obtain ⟨bp, bc, fault, he⟩ := u.release_eq t p as
  rw [he]
  cases b with
  | queue q => rfl
  | port st q => cases st <;> rfl

/-- A TX thread that moves on keeps its collector. -/
theorem mem_collector {r : TxThread} {z : TxEntry} {q : ℕ}
    (hz : z ∈ (update u.tx t r q).collector) (hr : r.collector = (u.tx t).collector) :
    z ∈ (u.tx q).collector := by
  by_cases hq : q = t
  · subst hq
    rwa [update_self, hr] at hz
  · rwa [update_of_ne hq] at hz

/-- Steps that do not look into a frame leave the frames that there were. -/
theorem NodeStep.frames_blind (h : NodeStep P u a u') (ha : a.Blind)
    (harrive : ∀ p f, a ≠ .arrive p f) (hf : f ∈ u'.frames P b) : ∃ b', f ∈ u.frames P b' := by
  cases h with
  | handleFault | accept | reject | giveBack | ignore | pullFault | pull => exact ha.elim
  | arrive p g => exact absurd rfl (harrive p g)
  | create | readTime | rxFault =>
    refine ⟨b, ?_⟩
    cases b with
    | queue q => exact hf
    | port st q => cases st <;> exact hf
  | kernelTake p e rest htxq hroom =>
    cases b with
    | queue q => exact ⟨.queue q, hf⟩
    | port st q =>
      cases st with
      | txq =>
        refine ⟨.port .txq q, ?_⟩
        obtain ⟨z, hz, rfl⟩ := List.mem_map.1 hf
        exact List.mem_map_of_mem (mem_of_mem_update_tail htxq hz)
      | kernelTx =>
        obtain ⟨z, hz, rfl⟩ := List.mem_map.1 hf
        rcases mem_update_append hz with hold | ⟨hq, hnew⟩
        · exact ⟨.port .kernelTx q, List.mem_map_of_mem hold⟩
        · refine ⟨.port .txq q, List.mem_map_of_mem ?_⟩
          rw [hq, htxq, List.mem_singleton.1 hnew]
          exact List.mem_cons_self
      | umemFq | kernelRx | umemCq => exact absurd hf List.not_mem_nil
      | rxq => exact ⟨.port .rxq q, hf⟩
      | burst => exact ⟨.port .burst q, hf⟩
      | collector => exact ⟨.port .collector q, hf⟩
  | kernelComplete p e rest htx =>
    cases b with
    | queue q => exact ⟨.queue q, hf⟩
    | port st q =>
      cases st with
      | kernelTx =>
        refine ⟨.port .kernelTx q, ?_⟩
        obtain ⟨z, hz, rfl⟩ := List.mem_map.1 hf
        exact List.mem_map_of_mem (mem_of_mem_update_tail htx hz)
      | umemFq | kernelRx | umemCq => exact absurd hf List.not_mem_nil
      | rxq => exact ⟨.port .rxq q, hf⟩
      | burst => exact ⟨.port .burst q, hf⟩
      | collector => exact ⟨.port .collector q, hf⟩
      | txq => exact ⟨.port .txq q, hf⟩
  | rxBurst t p k fresh bp bc ht hburst hk hfill hpool =>
    obtain ⟨rfl, hlt⟩ := ht.eq
    cases b with
    | queue q => exact ⟨.queue q, hf⟩
    | port st q =>
      cases st with
      | rxq =>
        refine ⟨.port .rxq q, ?_⟩
        rcases mem_update_cases (f := u.rxq) hf with ⟨hq, hmem⟩ | ⟨-, hmem⟩
        · rw [← hq] at hmem
          exact List.mem_of_mem_drop hmem
        · exact hmem
      | burst =>
        obtain ⟨z, hz, rfl⟩ := List.mem_map.1 hf
        dsimp only at hz
        by_cases hq : (q : ℕ) = p
        · subst hq
          refine ⟨.port .rxq q, ?_⟩
          rw [update_self] at hz
          exact List.mem_of_mem_take (List.mem_of_getElem? (mem_stampAll_getElem hz))
        · rw [update_of_ne fun h => hq (rxThread_injective P h)] at hz
          exact ⟨.port .burst q, List.mem_map_of_mem hz⟩
      | umemFq | kernelRx | umemCq => exact absurd hf List.not_mem_nil
      | collector => exact ⟨.port .collector q, hf⟩
      | txq => exact ⟨.port .txq q, hf⟩
      | kernelTx => exact ⟨.port .kernelTx q, hf⟩
  | advance t p ht | call t p ht =>
    cases b with
    | queue q => exact ⟨.queue q, hf⟩
    | port st q =>
      cases st with
      | collector =>
        obtain ⟨z, hz, rfl⟩ := List.mem_map.1 hf
        exact ⟨.port .collector q, List.mem_map_of_mem (mem_collector hz rfl)⟩
      | umemFq | kernelRx | umemCq => exact absurd hf List.not_mem_nil
      | rxq => exact ⟨.port .rxq q, hf⟩
      | burst => exact ⟨.port .burst q, hf⟩
      | txq => exact ⟨.port .txq q, hf⟩
      | kernelTx => exact ⟨.port .kernelTx q, hf⟩
  | drain t p k s₁ ht hk hs₁ =>
    have hsame : ∀ b, s₁.frames P b = u.frames P b := by
      intro b
      rw [hs₁, frames_release]
      cases b with
      | queue q => rfl
      | port st q => cases st <;> rfl
    refine ⟨b, ?_⟩
    rw [← hsame]
    cases b with
    | queue q => exact hf
    | port st q =>
      cases st with
      | collector =>
        obtain ⟨z, hz, rfl⟩ := List.mem_map.1 hf
        exact List.mem_map_of_mem (mem_collector hz rfl)
      | umemFq | kernelRx | umemCq | rxq | burst | txq | kernelTx => exact hf
  | submit t p ht =>
    obtain ⟨rfl, hlt⟩ := ht.eq
    cases b with
    | queue q => exact ⟨.queue q, hf⟩
    | port st q =>
      cases st with
      | collector =>
        obtain ⟨z, hz, rfl⟩ := List.mem_map.1 hf
        dsimp only at hz
        by_cases hq : (q : ℕ) = p
        · subst hq
          rw [update_self] at hz
          exact absurd hz List.not_mem_nil
        · rw [update_of_ne fun h => hq (txThread_injective P h)] at hz
          exact ⟨.port .collector q, List.mem_map_of_mem hz⟩
      | txq =>
        obtain ⟨z, hz, rfl⟩ := List.mem_map.1 hf
        rcases mem_update_append hz with hold | ⟨hq, hnew⟩
        · exact ⟨.port .txq q, List.mem_map_of_mem hold⟩
        · rw [← hq] at hnew
          exact ⟨.port .collector q, List.mem_map_of_mem hnew⟩
      | umemFq | kernelRx | umemCq => exact absurd hf List.not_mem_nil
      | rxq => exact ⟨.port .rxq q, hf⟩
      | burst => exact ⟨.port .burst q, hf⟩
      | kernelTx => exact ⟨.port .kernelTx q, hf⟩

/-! ### The steps that look into a frame -/

section Step

variable {params : BpoolParams} {N : ℕ} {M : Multiset ℕ} {x : Packet} {rest : List Packet}
  {Q : QueueId} {ret : ReturnProcessRx}

/-- What a run of the node keeps: no chunk is in two hands, and what arrived has room. -/
structure Sharing (P : NodeParams) (params : BpoolParams) (N : ℕ) (M : Multiset ℕ) (u : Node) :
    Prop where
  pool : PoolInv params N M (u.pool P)
  nodup : M.Nodup
  traced : ∃ arrived, Traced P arrived u ∧ ∀ p, ∀ f ∈ arrived p, f.Roomy params.bufferSize

theorem Sharing.burst_roomy (h : Sharing P params N M u)
    (hx : x ∈ (u.rx (P.rxThread p)).burst) : x.rx.Roomy params.bufferSize := by
  obtain ⟨arrived, ht, hroomy⟩ := h.traced
  exact hroomy p _ (List.mem_of_getElem? (ht.pending p x hx))

/-- A packet that was offered has room for what the TX side does. -/
theorem Offered.sendable (h : Offered P Q x) (hroomy : x.rx.Roomy c) :
    x.frame.Sendable c Q := by
  obtain ⟨ret, ret', hrecv⟩ := h.received
  have haddr := receive_addr hrecv
  refine ⟨by rw [haddr]; exact hroomy.headers, by rw [haddr]; exact hroomy.addr_lt, ?_⟩
  rintro q rfl
  unfold receive at hrecv
  split at hrecv
  · exact absurd rfl ((nicReceive_offer hrecv).2.1 q)
  · split at hrecv
    · cases hrecv
    · rename_i o ho
      cases hrecv
      rw [(vethReceive_offer ho).1]
      exact hroomy.room

theorem Sharing.queue_sendable (h : Sharing P params N M u) {pos w : ℕ}
    (hslot : slotAt P (P.txThread p) pos = some (Q, w)) (hx : x ∈ u.queue Q) :
    x.frame.Sendable params.bufferSize Q := by
  obtain ⟨arrived, ht, hroomy⟩ := h.traced
  have hflow : u.log.accepted Q = _ ++ u.queue Q := ht.inv.flow p Q ⟨pos, w, hslot⟩
  have haccepted : x ∈ u.log.accepted Q := by
    rw [hflow]
    exact List.mem_append_right _ hx
  have harrived := ht.accepted Q x haccepted
  exact (ht.inv.accepts Q x hx).sendable (hroomy _ _ (List.mem_of_getElem? harrived))

theorem Node.bare_onRx {s : Node} (hcreated : s.created = u.created) {f g : ℕ → Option Node}
    (h : ∀ p, OnRx P u t p → (f p).map Node.bare = (g p).map Node.bare) :
    (s.onRx P t f).map Node.bare = (u.onRx P t g).map Node.bare := by
  unfold Node.onRx
  rw [hcreated]
  split
  · rename_i hg
    cases hp : (P.thread t).portsRx 0 with
    | none => rfl
    | some p => exact h p ⟨hg.1, hg.2, hp⟩
  · rfl

theorem Node.bare_onTx {s : Node} (hcreated : s.created = u.created) {f g : ℕ → Option Node}
    (h : ∀ p, OnTx P u t p → (f p).map Node.bare = (g p).map Node.bare) :
    (s.onTx P t f).map Node.bare = (u.onTx P t g).map Node.bare := by
  unfold Node.onTx
  rw [hcreated]
  split
  · rename_i hg
    cases hp : (P.thread t).portsTx 0 with
    | none => rfl
    | some p => exact h p ⟨hg.1, hg.2, hp⟩
  · rfl

/-- **A step with all frames in the UMEM is a step with every frame in its chunk.** -/
theorem Node.load_step (hI : Sharing P params N M u)
    (hview : ∀ b, ∀ f ∈ u.frames P b, f = f.view params.bufferSize m) (a : NodeAct) :
    ((u.load m).step P a).map Node.bare =
      (u.step P (a.map (Frame.own params.bufferSize))).map Node.bare := by
  by_cases hblind : a.Blind
  · have hblind' : (a.map (Frame.own params.bufferSize)).Blind := by
      cases a <;> exact hblind
    have hact : (a.map (Frame.own params.bufferSize)).map Frame.bare = a.map Frame.bare := by
      cases a <;> rfl
    have hleft := Node.map_step (P := P) (s := u.load m) Frame.bare_addr hblind
    have hright := Node.map_step (P := P) (s := u) Frame.bare_addr hblind'
    rw [hact] at hright
    exact hleft.symm.trans ((congrArg (fun v => Node.step P v _) (Node.bare_load m u)).trans hright)
  · have hfault : (u.load m).fault = u.fault := rfl
    cases a with
    | handle t =>
      unfold Node.step
      rw [hfault]
      split
      · rfl
      · show ((u.load m).onRx P t _).map Node.bare = (u.onRx P t _).map Node.bare
        refine Node.bare_onRx rfl fun p ht =>
          Node.load_handle (c := params.bufferSize) u m t p fun x rest hb => ?_
        obtain ⟨rfl, hlt⟩ := ht.eq
        have hx : x ∈ (u.rx (P.rxThread p)).burst := mem_of_eq_cons hb
        exact ⟨hI.burst_roomy hx, hview (.port .burst ⟨p, hlt⟩) _ (List.mem_map_of_mem hx)⟩
    | pull t =>
      unfold Node.step
      rw [hfault]
      split
      · rfl
      · show ((u.load m).onTx P t _).map Node.bare = (u.onTx P t _).map Node.bare
        refine Node.bare_onTx rfl fun p ht =>
          Node.load_pull (c := params.bufferSize) u m t fun Q w x rest hp hq => ?_
        obtain ⟨rfl, hlt⟩ := ht.eq
        have hx : x ∈ u.queue Q := mem_of_eq_cons hq
        obtain ⟨q, rfl⟩ := exists_queueAt (slotAt_queue hp.2)
        exact ⟨hI.queue_sendable hp.2 hx, hview (.queue q) _ (List.mem_map_of_mem hx)⟩
    | _ => exact absurd trivial hblind

/-- A frame is not touched by what is written into the chunk of another one. -/
theorem Sees.other (h : Sees P params.bufferSize S u) (hI : Sharing P params N M u)
    {b₀ : Box P.nPorts P.nQueues} (hf : u.Other P b₀ f) (hg : (u.frames P b₀)[0]? = some g)
    (hc : 0 < params.bufferSize)
    (hout : ∀ a, a / params.bufferSize ≠ g.addr / params.bufferSize → m' a = S.umem a) :
    f = f.view params.bufferSize m' := by
  obtain ⟨b, i, hi, hne⟩ := hf
  have hchunk := chunk_ne hI.pool hI.nodup hi hg hne
  rw [h.frames b f (List.mem_of_getElem? hi)]
  show f.view _ S.umem = f.view _ m'
  exact Frame.view_congr hc fun a ha => (hout a (by rw [ha]; exact hchunk)).symm

theorem Shared.written_handle (hnode : S.node = u.bare) (hb : (u.rx t).burst = x :: rest) :
    S.written P (.handle t) =
      match receive P t (u.rx t).ret (x.rx.on S.umem) with
      | .error _ => S.umem
      | .ok _ => rxWrites P t (u.rx t).ret (x.rx.on S.umem) := by
  have hburst : (S.node.rx t).burst = (x :: rest).map (Packet.map Frame.bare) := by
    rw [hnode, ← hb]
    rfl
  have hret : (S.node.rx t).ret = (u.rx t).ret := by
    rw [hnode]
    rfl
  simp only [Shared.written, hburst, hret]
  rfl

theorem Shared.written_pull (hnode : S.node = u.bare) {w : ℕ}
    (hslot : slotAt P t (u.tx t).pos = some (Q, w)) (hq : u.queue Q = x :: rest) :
    S.written P (.pull t) =
      match prepare P.g u.topo Q w (x.frame.on S.umem) with
      | .error _ => S.umem
      | .ok f => f.umem := by
  have hpos : slotAt P t (S.node.tx t).pos = some (Q, w) := by
    rw [hnode]
    exact hslot
  have hqueue : S.node.queue Q = (x :: rest).map (Packet.map Frame.bare) := by
    rw [hnode, ← hq]
    rfl
  have htopo : S.node.topo = u.topo := by
    rw [hnode]
    rfl
  simp only [Shared.written, hpos, hqueue, htopo]
  rfl

/-- What `receive` says of a frame in its chunk, it says of the frame in the UMEM. -/
theorem receive_of_view {o : Outcome} {ret' : ReturnProcessRx} (hroomy : f.Roomy c)
    (hf : f = f.view c m) (h : receive P t ret f = .ok (ret', o)) :
    ∃ o', receive P t ret (f.on m) = .ok (ret', o') ∧ o = o'.own c := by
  rw [hf, receive_view hroomy] at h
  cases hr : receive P t ret (f.on m) with
  | error e =>
    rw [hr] at h
    cases h
  | ok r =>
    rw [hr] at h
    obtain ⟨ret₁, o'⟩ := r
    cases h
    exact ⟨o', rfl, rfl⟩

theorem receive_error_of_view {e : Fault} (hroomy : f.Roomy c) (hf : f = f.view c m)
    (h : receive P t ret f = .error e) : receive P t ret (f.on m) = .error e := by
  rw [hf, receive_view hroomy] at h
  cases hr : receive P t ret (f.on m) with
  | error e' =>
    rw [hr] at h
    cases h
    rfl
  | ok r =>
    rw [hr] at h
    cases h

/-- The same for `prepare`. -/
theorem prepare_of_view {G : Globals} {topo w : ℕ} {f' : Frame} (hsend : f.Sendable c Q)
    (hf : f = f.view c m) (h : prepare G topo Q w f = .ok f') :
    ∃ z, prepare G topo Q w (f.on m) = .ok z ∧ f' = z.own c := by
  rw [hf, prepare_view hsend] at h
  cases hr : prepare G topo Q w (f.on m) with
  | error e =>
    rw [hr] at h
    cases h
  | ok z =>
    rw [hr] at h
    cases h
    exact ⟨z, rfl, rfl⟩

theorem prepare_error_of_view {G : Globals} {topo w : ℕ} {e : Fault} (hsend : f.Sendable c Q)
    (hf : f = f.view c m) (h : prepare G topo Q w f = .error e) :
    prepare G topo Q w (f.on m) = .error e := by
  rw [hf, prepare_view hsend] at h
  cases hr : prepare G topo Q w (f.on m) with
  | error e' =>
    rw [hr] at h
    cases h
    rfl
  | ok z =>
    rw [hr] at h
    cases h

/-- Handling a frame leaves every frame its chunk. -/
theorem Sees.handle (h : Sees P params.bufferSize S u) (hI : Sharing P params N M u)
    (hstep : NodeStep P u (.handle t) u') (hf : f ∈ u'.frames P b) :
    f = f.view params.bufferSize (S.written P (.handle t)) := by
  have hfirst : ∀ {p x rest}, OnRx P u t p → (u.rx t).burst = x :: rest →
      ∃ p' : Fin P.nPorts, t = P.rxThread p' ∧ x.rx.Roomy params.bufferSize ∧
        (u.frames P (.port .burst p'))[0]? = some x.rx ∧
        x.rx = x.rx.view params.bufferSize S.umem := by
    intro p x rest ht hb
    obtain ⟨rfl, hlt⟩ := ht.eq
    have hx : x ∈ (u.rx (P.rxThread p)).burst := mem_of_eq_cons hb
    refine ⟨⟨p, hlt⟩, rfl, hI.burst_roomy hx, ?_,
      h.frames (.port .burst ⟨p, hlt⟩) _ (List.mem_map_of_mem hx)⟩
    show ((u.rx (P.rxThread p)).burst.map Packet.rx)[0]? = _
    rw [hb]
    rfl
  -- what was written when `receive` answers
  have hwritten : ∀ {p x rest ret o}, OnRx P u t p → (u.rx t).burst = x :: rest →
      receive P t (u.rx t).ret x.rx = .ok (ret, o) →
      ∃ o', o = o'.own params.bufferSize ∧
        S.written P (.handle t) = rxWrites P t (u.rx t).ret (x.rx.on S.umem) ∧
        receive P t (u.rx t).ret (x.rx.on S.umem) = .ok (ret, o') := by
    intro p x rest ret o ht hb hrecv
    obtain ⟨-, -, hroomy, -, hview⟩ := hfirst ht hb
    obtain ⟨o', ho', rfl⟩ := receive_of_view hroomy hview hrecv
    refine ⟨o', rfl, ?_, ho'⟩
    rw [Shared.written_handle h.node hb, ho']
  -- the frames that are left
  have hleft : ∀ {p x rest ret o r}, OnRx P u t p → (u.rx t).burst = x :: rest →
      receive P t (u.rx t).ret x.rx = .ok (ret, o) → r.burst = rest →
      f ∈ Node.frames P { u with rx := update u.rx t r } b →
      f = f.view params.bufferSize (S.written P (.handle t)) := by
    intro p x rest ret o r ht hb hrecv hr hmem
    obtain ⟨p', rfl, hroomy, hget, -⟩ := hfirst ht hb
    obtain ⟨-, -, hw, -⟩ := hwritten ht hb hrecv
    rw [hw]
    exact h.other hI (frames_handled hb hr hmem) hget hroomy.pos fun a ha =>
      rxWrites_outside (f := x.rx.on S.umem) ⟨hroomy.room, hroomy.headers, hroomy.addr_lt⟩ _ _ ha
  cases hstep with
  | handleFault t p x rest e ht hb hrecv =>
    obtain ⟨-, -, hroomy, -, hview⟩ := hfirst ht hb
    rw [Shared.written_handle h.node hb, receive_error_of_view hroomy hview hrecv]
    refine h.frames b f ?_
    cases b with
    | queue q => exact hf
    | port st q => cases st <;> exact hf
  | accept t p x rest ret Q f' ht hb hrecv hroom =>
    cases b with
    | port st q =>
      refine hleft ht hb hrecv (r := ⟨rest, ret⟩) rfl ?_
      cases st <;> exact hf
    | queue q =>
      obtain ⟨z, hz, rfl⟩ := List.mem_map.1 hf
      rcases mem_update_append hz with hold | ⟨-, hnew⟩
      · exact hleft ht hb hrecv (r := ⟨rest, ret⟩) rfl
          (List.mem_map_of_mem (f := Packet.frame) hold)
      · obtain ⟨o', ho', hw, hrecv'⟩ := hwritten ht hb hrecv
        rw [List.mem_singleton.1 hnew, hw]
        cases o' with
        | offer Q' g =>
          cases ho'
          exact Frame.own_eq_view (receive_umem hrecv')
        | release => cases ho'
        | nothing => cases ho'
  | reject t p x rest ret Q f' ht hb hrecv hfull =>
    rw [frames_release] at hf
    exact hleft ht hb hrecv rfl hf
  | giveBack t p x rest ret ht hb hrecv =>
    rw [frames_release] at hf
    exact hleft ht hb hrecv rfl hf
  | ignore t p x rest ret ht hb hrecv => exact hleft ht hb hrecv rfl hf

/-- Pulling a frame leaves every frame its chunk. -/
theorem Sees.pull (h : Sees P params.bufferSize S u) (hI : Sharing P params N M u)
    (hstep : NodeStep P u (.pull t) u') (hfault : u'.fault = none ∨ u.FrameFaults P (.pull t))
    (hc : 0 < params.bufferSize) (hf : f ∈ u'.frames P b) :
    f = f.view params.bufferSize (S.written P (.pull t)) := by
  cases hstep with
  | pullFault t p Q w _ _ e ht hslot =>
    obtain ⟨rfl, hlt⟩ := ht.eq
    rcases hfault with hnone | ⟨Q', w', x, rest, e', hslot', hq, hprep⟩
    · cases hnone
    · obtain ⟨q, rfl⟩ := exists_queueAt (slotAt_queue hslot')
      have hx : x ∈ u.queue (queueAt q) := mem_of_eq_cons hq
      have hview := h.frames (.queue q) x.frame (List.mem_map_of_mem hx)
      have herr := prepare_error_of_view (hI.queue_sendable hslot' hx) hview hprep
      rw [Shared.written_pull h.node hslot' hq, herr]
      refine h.frames b f ?_
      cases b with
      | queue q => exact hf
      | port st q => cases st <;> exact hf
  | pull t p Q w x rest f' ht hroom hslot hq hprep =>
    obtain ⟨rfl, hlt⟩ := ht.eq
    obtain ⟨q, rfl⟩ := exists_queueAt (slotAt_queue hslot)
    have hx : x ∈ u.queue (queueAt q) := mem_of_eq_cons hq
    have hsend := hI.queue_sendable hslot hx
    have hview := h.frames (.queue q) x.frame (List.mem_map_of_mem hx)
    have hget : (u.frames P (.queue q))[0]? = some x.frame := by
      show ((u.queue (queueAt q)).map Packet.frame)[0]? = _
      rw [hq]
      rfl
    -- what was written when `prepare` answers
    obtain ⟨g, hg, rfl⟩ := prepare_of_view hsend hview hprep
    have hw : S.written P (.pull (P.txThread p)) = g.umem := by
      rw [Shared.written_pull h.node hslot hq, hg]
    rw [hw]
    have hother : u.Other P (.queue q) f → f = f.view params.bufferSize g.umem := fun ho =>
      h.other hI ho hget hc fun a ha =>
        prepare_outside (f := x.frame.on S.umem) ⟨hsend.headers, hsend.addr_lt, hsend.room⟩ hg ha
    cases b with
    | queue r =>
      by_cases hr : r = q
      · subst hr
        have hmem : f ∈ (update u.queue (queueAt r) rest (queueAt r)).map Packet.frame := hf
        rw [update_self] at hmem
        exact hother (.of_tail (congrArg (List.map Packet.frame) hq) hmem)
      · have hmem : f ∈ (update u.queue (queueAt q) rest (queueAt r)).map Packet.frame := hf
        rw [update_of_ne fun e => hr (Fin.val_injective (queueAt_injective e))] at hmem
        exact hother (.of_ne (b := .queue r) hmem fun e => hr (by cases e; rfl))
    | port st r =>
      by_cases hst : st = .collector
      · subst hst
        obtain ⟨z, hz, rfl⟩ := List.mem_map.1 hf
        dsimp only at hz
        by_cases hr : (r : ℕ) = p
        · subst hr
          rw [update_self, List.mem_append] at hz
          rcases hz with hold | hnew
          · exact hother (.of_ne (b := .port .collector r) (List.mem_map_of_mem hold) (by simp))
          · rw [List.mem_singleton.1 hnew]
            exact Frame.own_eq_view rfl
        · rw [update_of_ne fun e => hr (txThread_injective P e)] at hz
          exact hother (.of_ne (b := .port .collector r) (List.mem_map_of_mem hz) (by simp))
      · have hsame : f ∈ u.frames P (.port st r) := by
          cases st <;> first | exact hf | exact absurd rfl hst
        exact hother (.of_ne hsame (by simp))

/-- A frame that arrives leaves every frame its chunk. -/
theorem Sees.arrive (h : Sees P params.bufferSize S u) (hI : Sharing P params N M u)
    (hp : p < P.nPorts) (hc : 0 < params.bufferSize)
    (hstep : NodeStep P u (.arrive p (g.own params.bufferSize)) u') (hf : f ∈ u'.frames P b) :
    f = f.view params.bufferSize (S.written P (.arrive p g)) := by
  have hbp : u.bp.params = params := hI.pool.pool.params_eq
  have hsize : S.node.bp.params.bufferSize = params.bufferSize := by
    rw [h.node, ← hbp]
    rfl
  have hw : ∀ a, S.written P (.arrive p g) a =
      if a / params.bufferSize = g.addr / params.bufferSize then g.umem a else S.umem a := by
    intro a
    rw [← hsize]
    rfl
  cases hstep with
  | arrive _ _ d rest hfill hchunk =>
    rw [hbp] at hchunk
    have hd : (u.held P (.port .umemFq ⟨p, hp⟩))[0]? = some d := by
      show (u.umemFq p)[0]? = _
      rw [hfill]
      rfl
    -- the frames there were lie in other chunks
    have hold : ∀ b, f ∈ u.frames P b →
        f = f.view params.bufferSize (S.written P (.arrive p g)) := by
      intro b hmem
      obtain ⟨i, hi⟩ := List.getElem?_of_mem hmem
      have hne : f.addr / params.bufferSize ≠ g.addr / params.bufferSize := by
        intro heq
        obtain ⟨rfl, -⟩ := held_apart hI.pool hI.nodup (held_of_frames hi) hd
          (heq.trans hchunk)
        exact absurd hmem List.not_mem_nil
      rw [h.frames b f hmem]
      show f.view _ S.umem = f.view _ _
      refine Frame.view_congr hc fun a ha => ?_
      rw [hw, if_neg (by rw [ha]; exact hne)]
    by_cases hb : b = .port .rxq ⟨p, hp⟩
    · subst hb
      have hmem : f ∈ update u.rxq p (u.rxq p ++ [g.own params.bufferSize]) p := hf
      rcases mem_update_append hmem with hin | ⟨-, hnew⟩
      · exact hold (.port .rxq ⟨p, hp⟩) hin
      · rw [List.mem_singleton.1 hnew]
        show g.view _ g.umem = g.view _ _
        refine Frame.view_congr hc fun a ha => ?_
        rw [hw, if_pos ha]
    · refine hold b ?_
      cases b with
      | queue q => exact hf
      | port st q =>
        cases st with
        | rxq =>
          have hmem : f ∈ update u.rxq p (u.rxq p ++ [g.own params.bufferSize]) q := hf
          rwa [update_of_ne fun e => hb (by subst e; rfl)] at hmem
        | umemFq | kernelRx | burst | collector | txq | kernelTx | umemCq => exact hf

/-- **Every step leaves every frame its chunk.** -/
theorem Sees.frames_step (h : Sees P params.bufferSize S u) (hI : Sharing P params N M u)
    (hc : 0 < params.bufferSize) (hfits : a.Fits P params.bufferSize)
    (hstep : u.step P (a.map (Frame.own params.bufferSize)) = some u') :
    ∀ b, ∀ f ∈ u'.frames P b, f = f.view params.bufferSize (S.written P a) := by
  intro b f hf
  obtain ⟨-, hcases⟩ := NodeStep.of_step hstep
  cases a with
  | handle t => exact h.handle hI hcases hf
  | pull t =>
    refine h.pull hI hcases ?_ hc hf
    have hnone : u.fault = none := (NodeStep.of_step hstep).1
    obtain ⟨p, -, hpull⟩ := Node.onTx_eq_some (f := fun _ => u.pull P t) (by
      unfold Node.step at hstep
      rwa [if_neg (not_not.2 hnone)] at hstep)
    rw [← hnone]
    exact Node.pull_fault hpull
  | arrive p g => exact h.arrive hI hfits.1 hc hcases hf
  | create | readTime | kernelTake | kernelComplete | rxBurst | leave | drain | submit =>
    obtain ⟨b', hmem⟩ := hcases.frames_blind trivial (by intro p f e; cases e) hf
    exact h.frames b' f hmem

/-- Every step keeps what is needed. -/
theorem Sharing.step (hI : Sharing P params N M u) (hB : 0 < params.nBuffersPerSlab)
    (hF : params.fillSize ≤ params.nBuffersPerSlab)
    (hM : Multiset.card M ≤
      N * params.nBuffersPerSlab + P.nPorts * params.fillSize + params.nBuffersPerSlab)
    (hfits : a.Fits P params.bufferSize)
    (hstep : u.step P (a.map (Frame.own params.bufferSize)) = some u') :
    Sharing P params N M u' := by
  obtain ⟨arrived, ht, hroomy⟩ := hI.traced
  refine ⟨(hI.pool.node hB hF hM hstep).1, hI.nodup, _, ht.step (NodeStep.of_step hstep).2, ?_⟩
  intro p f hf
  cases a with
  | arrive q g =>
    rcases mem_update_append hf with hold | ⟨-, hnew⟩
    · exact hroomy p f hold
    · rw [List.mem_singleton.1 hnew]
      exact ⟨hfits.2.room, hfits.2.headers, hfits.2.addr_lt⟩
  | _ => exact hroomy p f hf

/-- **The node over one UMEM and the node with a memory for each frame make the same steps.** -/
theorem Sees.step (h : Sees P params.bufferSize S u) (hI : Sharing P params N M u)
    (hc : 0 < params.bufferSize) (hB : 0 < params.nBuffersPerSlab)
    (hF : params.fillSize ≤ params.nBuffersPerSlab)
    (hM : Multiset.card M ≤
      N * params.nBuffersPerSlab + P.nPorts * params.fillSize + params.nBuffersPerSlab)
    (hfits : a.Fits P params.bufferSize) :
    Option.Rel (fun S u => Sees P params.bufferSize S u ∧ Sharing P params N M u) (S.step P a)
      (u.step P (a.map (Frame.own params.bufferSize))) := by
  have hload : S.node.load S.umem = u.load S.umem := by
    rw [h.node]
    exact Node.load_bare S.umem u
  have hsame := Node.load_step hI h.frames a
  unfold Shared.step
  rw [hload]
  cases hl : (u.load S.umem).step P a with
  | none =>
    rw [hl] at hsame
    rw [Option.map_eq_none_iff.1 hsame.symm]
    exact Option.Rel.none
  | some s' =>
    rw [hl] at hsame
    obtain ⟨u', hu', hbare⟩ := Option.map_eq_some_iff.1 hsame.symm
    rw [hu']
    exact Option.Rel.some
      ⟨⟨hbare.symm, h.frames_step hI hc hfits hu'⟩, hI.step hB hF hM hfits hu'⟩

end Step

/-! ### Whole runs -/

theorem bpoolInit_bufferSize {params : BpoolParams} {sysOk : Bool} {bp : Bpool}
    (h : bpoolInit params sysOk = .ok (some bp)) :
    bp.params.bufferSize = params.bufferSize ∧ 0 < params.bufferSize := by
  unfold bpoolInit at h
  split at h
  · cases h
  · simp only at h
    split at h
    · cases h
    · rename_i hne
      cases h
      refine ⟨rfl, Nat.pos_of_ne_zero fun hzero => hne (.inl ?_)⟩
      rw [hzero, Nat.mul_zero]

theorem Sees.start (bp : Bpool) (ports : ℕ → PortInit) (m : Mem) :
    Sees P c ⟨Node.start bp ports, m⟩ (Node.start bp ports) := by
  refine ⟨rfl, fun b f hf => ?_⟩
  cases b with
  | queue q => exact absurd hf List.not_mem_nil
  | port st q => cases st <;> exact absurd hf List.not_mem_nil

/-- The two runs go side by side, and the node keeps what is needed. -/
theorem Sees.run {params : BpoolParams} {sysOk : Bool} {sockOk : ℕ → Bool} {bp bp' : Bpool}
    {ports : ℕ → PortInit} (hF : params.fillSize ≤ params.nBuffersPerSlab)
    (hroom : P.nPorts * (params.nBuffersPerSlab - params.fillSize) ≤ params.nBuffersPerSlab)
    (hbp : bpoolInit params sysOk = .ok (some bp)) (h2P : 2 * P.nPorts ≤ bp.nSlabs)
    (hports : initPorts bp sockOk P.nPorts = .ok (bp', some ports)) (m : Mem)
    {as : List NodeAct} (hfits : ∀ a ∈ as, a.Fits P params.bufferSize) :
    ∃ N M, Option.Rel (fun S u => Sees P params.bufferSize S u ∧ Sharing P bp.params N M u)
      (Runs.run (Shared.step P) ⟨Node.start bp' ports, m⟩ as)
      (Runs.run (Node.step P) (Node.start bp' ports)
        (as.map (NodeAct.map (Frame.own params.bufferSize)))) := by
  obtain ⟨hB, hF', N, M, hnodup, hstart, hM⟩ := Node.start_chunks hF hroom hbp h2P hports
  obtain ⟨hsize, hc⟩ := bpoolInit_bufferSize hbp
  rw [← hsize] at hfits hc ⊢
  have hI : Sharing P bp.params N M (Node.start bp' ports) :=
    ⟨hstart, hnodup, _, Traced.start P bp' ports, fun p f hf => absurd hf List.not_mem_nil⟩
  exact ⟨N, M, run_lockstep (C := NodeAct.Fits P bp.params.bufferSize)
    (fun S u => Sees P bp.params.bufferSize S u ∧ Sharing P bp.params N M u)
    (NodeAct.map (Frame.own bp.params.bufferSize))
    (fun S u a h ha => h.1.step h.2 hc hB hF' hM ha) ⟨Sees.start bp' ports m, hI⟩ hfits⟩

theorem twoForwarded_fits : ∀ a ∈ twoForwarded, a.Fits (smallNode 1 0) 4096 := by
  rw [← List.forall_iff_forall_mem]
  exact ⟨trivial, trivial, trivial, ⟨by decide, by decide, by decide, by decide⟩,
    ⟨by decide, by decide, by decide, by decide⟩, trivial, trivial, trivial, trivial, trivial,
    trivial, trivial, trivial, trivial, trivial⟩

end RotorXdp
