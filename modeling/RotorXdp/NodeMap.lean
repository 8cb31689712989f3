import RotorXdp.ChunkView

/-!
# The node and what its frames hold

Most steps of the node move frames without looking into them, so they are the same whatever the
frames hold. The two that look, a frame handled by an RX thread and a frame pulled by a TX thread,
see one frame each, and of that its chunk.

* `Node.map`, `Node.map_step`: frames replaced throughout the node, in steps that do not look;
* `Node.bare`, `Node.load`: the node without memories, and with one memory for all frames;
* `Node.load_handle`, `Node.load_pull`: the steps that look, on one memory and on chunks.
-/

namespace RotorXdp

open Function Runs Bytes

variable {P : NodeParams} {s : Node} {a : NodeAct} {t p c : ℕ} {φ ψ : Frame → Frame}

/-! ### Frames replaced throughout the node -/

def Packet.map (φ : Frame → Frame) (x : Packet) : Packet :=
  { x with rx := φ x.rx, frame := φ x.frame }

def TxEntry.map (φ : Frame → Frame) (e : TxEntry) : TxEntry :=
  { e with packet := e.packet.map φ, frame := φ e.frame }

def RxThread.map (φ : Frame → Frame) (r : RxThread) : RxThread :=
  { r with burst := r.burst.map (Packet.map φ) }

def TxThread.map (φ : Frame → Frame) (r : TxThread) : TxThread :=
  { r with collector := r.collector.map (TxEntry.map φ) }

/-- The node with every frame replaced. -/
def Node.map (φ : Frame → Frame) (s : Node) : Node :=
  { s with
    rxq := fun p => (s.rxq p).map φ
    txq := fun p => (s.txq p).map (TxEntry.map φ)
    kernelTx := fun p => (s.kernelTx p).map (TxEntry.map φ)
    queue := fun Q => (s.queue Q).map (Packet.map φ)
    rx := fun t => (s.rx t).map φ
    tx := fun t => (s.tx t).map φ
    log := { s.log with
      accepted := fun Q => (s.log.accepted Q).map (Packet.map φ)
      sent := fun p => (s.log.sent p).map (TxEntry.map φ) } }

def NodeAct.map (φ : Frame → Frame) : NodeAct → NodeAct
  | .arrive p f => .arrive p (φ f)
  | a => a

def Outcome.map (φ : Frame → Frame) : Outcome → Outcome
  | .offer Q f => .offer Q (φ f)
  | o => o

/-- The steps that do not look into a frame. -/
def NodeAct.Blind : NodeAct → Prop
  | .handle _ | .pull _ => False
  | _ => True

theorem Node.map_map (s : Node) : (s.map φ).map ψ = s.map (ψ ∘ φ) := by
  have hpacket : Packet.map ψ ∘ Packet.map φ = Packet.map (ψ ∘ φ) := rfl
  have hentry : TxEntry.map ψ ∘ TxEntry.map φ = TxEntry.map (ψ ∘ φ) := rfl
  simp only [Node.map, RxThread.map, TxThread.map, List.map_map, hpacket, hentry]

@[simp] theorem RxThread.map_mk (burst : List Packet) (ret : ReturnProcessRx) :
    RxThread.map φ ⟨burst, ret⟩ = ⟨burst.map (Packet.map φ), ret⟩ := rfl

@[simp] theorem RxThread.map_ret (r : RxThread) : (r.map φ).ret = r.ret := rfl

@[simp] theorem TxThread.map_mk (pos : ℕ) (stage : Stage) (collector : List TxEntry) :
    TxThread.map φ ⟨pos, stage, collector⟩ = ⟨pos, stage, collector.map (TxEntry.map φ)⟩ := rfl

@[simp] theorem TxThread.map_pos (r : TxThread) : (r.map φ).pos = r.pos := rfl

@[simp] theorem TxThread.map_stage (r : TxThread) : (r.map φ).stage = r.stage := rfl

@[simp] theorem TxThread.map_collector (r : TxThread) :
    (r.map φ).collector = r.collector.map (TxEntry.map φ) := rfl

theorem map_update {ι α β : Type*} [DecidableEq ι] (g : α → β) (f : ι → α) (i : ι) (v : α) :
    (fun j => g (update f i v j)) = update (fun j => g (f j)) i (g v) :=
  comp_update g f i v

theorem map_stamps (φ : Frame → Frame) (p stamp : ℕ) (fs : List Frame) :
    (stampAll p stamp fs).map (Packet.map φ) = stampAll p stamp (fs.map φ) := by
  induction fs generalizing stamp with
  | nil => rfl
  | cons f fs ih => exact congrArg (Packet.map φ ⟨f, p, stamp, f⟩ :: ·) (ih (stamp + 1))

theorem Node.map_release (s : Node) (t p : ℕ) (as : List ℕ) :
    (s.map φ).release t p as = (s.release t p as).map φ := by
  have hprod : bcacheProdAll (s.map φ).bp ((s.map φ).bc p) as = bcacheProdAll s.bp (s.bc p) as :=
    rfl
  simp only [Node.release, Node.note]
  rw [hprod]
  cases bcacheProdAll s.bp (s.bc p) as <;> rfl

theorem Node.map_rxBurst (s : Node) (t p k : ℕ) :
    (s.map φ).rxBurst t p k = (s.rxBurst t p k).map (Node.map φ) := by
  have hburst : ((s.map φ).rx t).burst = [] ↔ (s.rx t).burst = [] := List.map_eq_nil_iff
  have hlen : ((s.map φ).rxq p).length = (s.rxq p).length := List.length_map _
  have hbp : (s.map φ).bp = s.bp := rfl
  have hbc : (s.map φ).bc = s.bc := rfl
  have hfill : (s.map φ).umemFq = s.umemFq := rfl
  simp only [Node.rxBurst, hburst, hlen, hbp, hbc, hfill]
  split
  · cases portRxBurst s.bp (s.bc p) k with
    | error e => rfl
    | ok r =>
      rcases r with _ | ⟨fresh, bp, bc⟩
      · rfl
      · simp only [Option.map_some, Node.map, map_update, RxThread.map_mk, RxThread.map_ret,
          map_stamps, List.map_take, List.map_drop]
  · rfl

theorem Node.map_leave (s : Node) (t : ℕ) :
    (s.map φ).leave P t = (s.leave P t).map (Node.map φ) := by
  have hcoll : ((s.map φ).tx t).collector = [] ↔ (s.tx t).collector = [] := List.map_eq_nil_iff
  have hstage : ((s.map φ).tx t).stage = (s.tx t).stage := rfl
  simp only [Node.leave, hcoll, hstage]
  split
  · split
    · simp only [Option.map_some, Node.map, map_update, TxThread.map_mk, TxThread.map_pos,
      TxThread.map_collector]
    · simp only [Option.map_some, Node.map, map_update, TxThread.map_mk, TxThread.map_pos,
        TxThread.map_collector, List.length_map]
  · rfl

theorem Node.map_drain (s : Node) (t p k : ℕ) :
    (s.map φ).drain t p k = (s.drain t p k).map (Node.map φ) := by
  have hnote : (s.map φ).note [⟨t, p, .txComp⟩] = (s.note [⟨t, p, .txComp⟩]).map φ := rfl
  have hcq : (s.map φ).umemCq = s.umemCq := rfl
  have hbp : (s.map φ).bp = s.bp := rfl
  have hstage : ((s.map φ).tx t).stage = (s.tx t).stage := rfl
  simp only [Node.drain, hnote, hcq, hbp, hstage, Node.map_release]
  split
  · simp only [Option.map_some, Node.map, map_update, TxThread.map_mk, TxThread.map_pos,
      TxThread.map_collector]
  · rfl

theorem Node.map_submit (s : Node) (t p : ℕ) :
    (s.map φ).submit P t p = (s.submit P t p).map (Node.map φ) := by
  have hstage : ((s.map φ).tx t).stage = (s.tx t).stage := rfl
  have hcoll : ((s.map φ).tx t).collector.length = (s.tx t).collector.length := List.length_map _
  have htxq : ((s.map φ).txq p).length = (s.txq p).length := List.length_map _
  simp only [Node.submit, hstage, hcoll, htxq]
  split
  · simp only [Option.map_some, Node.map, map_update, TxThread.map_mk, TxThread.map_pos,
      TxThread.map_collector, List.map_append, List.map_nil]
  · rfl

theorem Node.map_onRx (s : Node) (t : ℕ) {f g : ℕ → Option Node}
    (h : ∀ p, f p = (g p).map (Node.map φ)) :
    (s.map φ).onRx P t f = (s.onRx P t g).map (Node.map φ) := by
  have hcreated : (s.map φ).created = s.created := rfl
  unfold Node.onRx
  rw [hcreated]
  split
  · cases (P.thread t).portsRx 0 with
    | none => rfl
    | some p => exact h p
  · rfl

theorem Node.map_onTx (s : Node) (t : ℕ) {f g : ℕ → Option Node}
    (h : ∀ p, f p = (g p).map (Node.map φ)) :
    (s.map φ).onTx P t f = (s.onTx P t g).map (Node.map φ) := by
  have hcreated : (s.map φ).created = s.created := rfl
  unfold Node.onTx
  rw [hcreated]
  split
  · cases (P.thread t).portsTx 0 with
    | none => rfl
    | some p => exact h p
  · rfl

/-- **Steps that do not look into a frame are the same for all contents.** -/
theorem Node.map_step (hφ : ∀ f, (φ f).addr = f.addr) (ha : a.Blind) :
    (s.map φ).step P (a.map φ) = (s.step P a).map (Node.map φ) := by
  have hsame : (s.map φ).fault = s.fault := rfl
  unfold Node.step
  rw [hsame]
  split
  · rfl
  · cases a with
    | handle t => exact ha.elim
    | pull t => exact ha.elim
    | create =>
      show (if s.created < P.nThreads then _ else _) = _
      split <;> rfl
    | readTime sec nsec =>
      show (if s.created = P.nThreads then _ else _) = _
      split <;> rfl
    | arrive p f =>
      have hfill : (s.map φ).umemFq = s.umemFq := rfl
      have hbp : (s.map φ).bp = s.bp := rfl
      simp only [NodeAct.map, hfill, hbp, hφ]
      cases s.umemFq p with
      | nil => rfl
      | cons b rest =>
        simp only
        split
        · simp only [Option.map_some, Node.map, map_update, List.map_append, List.map_singleton]
        · rfl
    | kernelTake p =>
      have htxq : (s.map φ).txq p = (s.txq p).map (TxEntry.map φ) := rfl
      have hlen : ((s.map φ).kernelTx p).length = (s.kernelTx p).length := List.length_map _
      have hcq : (s.map φ).umemCq = s.umemCq := rfl
      have hbp : (s.map φ).bp = s.bp := rfl
      simp only [NodeAct.map, htxq, hlen, hcq, hbp]
      cases s.txq p with
      | nil => rfl
      | cons e rest =>
        simp only [List.map_cons]
        split
        · simp only [Option.map_some, Node.map, map_update, List.map_append, List.map_singleton]
        · rfl
    | kernelComplete p =>
      have htx : (s.map φ).kernelTx p = (s.kernelTx p).map (TxEntry.map φ) := rfl
      simp only [NodeAct.map, htx]
      cases s.kernelTx p with
      | nil => rfl
      | cons e rest =>
        have haddr : (e.map φ).frame.addr = e.frame.addr := hφ e.frame
        simp only [List.map_cons, haddr, Option.map_some, Node.map, map_update]
    | rxBurst t k => exact Node.map_onRx s t fun p => Node.map_rxBurst s t p k
    | leave t => exact Node.map_onTx s t fun _ => Node.map_leave s t
    | drain t k => exact Node.map_onTx s t fun p => Node.map_drain s t p k
    | submit t => exact Node.map_onTx s t fun p => Node.map_submit s t p

/-! ### The steps that look into a frame -/

variable {x : Packet} {rest : List Packet} {Q : QueueId} {w : ℕ} {m m' : Mem}

/-- What `Node.handle` makes of the answer of `receive`. -/
def Node.handled (s : Node) (t p : ℕ) (x : Packet) (rest : List Packet)
    (r : Except Fault (ReturnProcessRx × Outcome)) : Node :=
  match r with
  | .error e => s.fail e
  | .ok (ret, o) =>
    let s : Node := { s with rx := update s.rx t ⟨rest, ret⟩ }
    match o with
    | .offer Q f => s.offer t p Q { x with frame := f }
    | .release => s.release t p [x.rx.addr]
    | .nothing => s

theorem Node.handle_nil (h : (s.rx t).burst = []) : s.handle P t p = none := by
  unfold Node.handle
  rw [h]

theorem Node.handle_cons (h : (s.rx t).burst = x :: rest) :
    s.handle P t p = some (s.handled t p x rest (receive P t (s.rx t).ret x.rx)) := by
  unfold Node.handle Node.handled
  simp only [h]
  cases receive P t (s.rx t).ret x.rx with
  | error e => rfl
  | ok r =>
    obtain ⟨ret, o⟩ := r
    cases o <;> rfl

theorem Node.map_offer (hφ : ∀ f, (φ f).addr = f.addr) (s : Node) (t p : ℕ) (Q : QueueId)
    (x : Packet) : (s.map φ).offer t p Q (x.map φ) = (s.offer t p Q x).map φ := by
  have hlen : ((s.map φ).queue Q).length = (s.queue Q).length := List.length_map _
  have haddr : (x.map φ).rx.addr = x.rx.addr := hφ x.rx
  simp only [Node.offer, hlen, haddr, Node.map_release]
  split
  · simp only [Node.map, map_update, List.map_append, List.map_singleton]
  · rfl

theorem Node.map_handled (hφ : ∀ f, (φ f).addr = f.addr) (s : Node) (t p : ℕ) (x : Packet)
    (rest : List Packet) (r : Except Fault (ReturnProcessRx × Outcome)) :
    (s.map φ).handled t p (x.map φ) (rest.map (Packet.map φ)) (r.map fun r => (r.1, r.2.map φ)) =
      (s.handled t p x rest r).map φ := by
  cases r with
  | error e => rfl
  | ok r =>
    obtain ⟨ret, o⟩ := r
    have hrx : ({ s.map φ with
        rx := update (s.map φ).rx t ⟨rest.map (Packet.map φ), ret⟩ } : Node) =
          ({ s with rx := update s.rx t ⟨rest, ret⟩ } : Node).map φ := by
      simp only [Node.map, map_update, RxThread.map_mk]
    have haddr : (x.map φ).rx.addr = x.rx.addr := hφ x.rx
    simp only [Except.map, Node.handled, hrx]
    cases o with
    | offer Q f => exact Node.map_offer hφ _ t p Q { x with frame := f }
    | release =>
      simp only [Outcome.map, haddr]
      exact Node.map_release ..
    | nothing => rfl

/-- What `Node.pull` makes of the answer of `prepare`. -/
def Node.pulled (s : Node) (t : ℕ) (Q : QueueId) (w : ℕ) (x : Packet) (rest : List Packet)
    (r : Except Fault Frame) : Node :=
  let s : Node := { s with log := { s.log with
    routeCalls := s.log.routeCalls ++ routeCall s.topo s.log.ticks Q w } }
  match r with
  | .error e => s.fail e
  | .ok f => { s with
      queue := update s.queue Q rest
      tx := update s.tx t { s.tx t with
        collector := (s.tx t).collector ++ [⟨Q, w, x, s.topo, f⟩] } }

/-- A TX thread that may pull from the slot it is at. -/
def Node.Pulls (P : NodeParams) (s : Node) (t : ℕ) (Q : QueueId) (w : ℕ) : Prop :=
  ((s.tx t).stage = .pulling ∧ (s.tx t).collector.length < maxBurstTx) ∧
    slotAt P t (s.tx t).pos = some (Q, w)

theorem Node.pull_cons (h : s.Pulls P t Q w) (hqueue : s.queue Q = x :: rest) :
    s.pull P t = some (s.pulled t Q w x rest (prepare P.g s.topo Q w x.frame)) := by
  unfold Node.pull Node.pulled
  rw [if_pos h.1, h.2]
  simp only [hqueue]
  cases prepare P.g s.topo Q w x.frame <;> rfl

theorem Node.pull_none (h : ∀ Q w, s.Pulls P t Q w → s.queue Q = []) : s.pull P t = none := by
  unfold Node.pull
  split
  · rename_i hg
    split
    · rfl
    · rename_i Q w hslot
      rw [h Q w ⟨hg, hslot⟩]
  · rfl

theorem Node.map_pulled (s : Node) (t : ℕ) (Q : QueueId) (w : ℕ) (x : Packet)
    (rest : List Packet) (r : Except Fault Frame) :
    (s.map φ).pulled t Q w (x.map φ) (rest.map (Packet.map φ)) (r.map φ) =
      (s.pulled t Q w x rest r).map φ := by
  cases r with
  | error e => rfl
  | ok f =>
    simp only [Except.map, Node.pulled, Node.map, map_update, TxThread.map_mk, TxThread.map_pos,
      TxThread.map_stage, TxThread.map_collector, List.map_append, List.map_singleton]
    rfl

/-! ### One memory -/

/-- A frame as a descriptor. -/
def Frame.bare (f : Frame) : Frame := f.on fun _ => 0

theorem Frame.bare_addr (f : Frame) : f.bare.addr = f.addr := rfl

/-- The node without memories, and with one memory for all frames. -/
def Node.bare (s : Node) : Node := s.map Frame.bare
def Node.load (m : Mem) (s : Node) : Node := s.map fun f => f.on m

theorem Node.bare_load (m : Mem) (s : Node) : (s.load m).bare = s.bare := Node.map_map s

theorem Node.load_bare (m : Mem) (s : Node) : s.bare.load m = s.load m := Node.map_map s

/-- An RX thread handles the same frame, whether it sees the UMEM or its chunk of it. -/
theorem Node.load_handle (u : Node) (m : Mem) (t p : ℕ)
    (h : ∀ x rest, (u.rx t).burst = x :: rest → x.rx.Roomy c ∧ x.rx = x.rx.view c m) :
    ((u.load m).handle P t p).map Node.bare = (u.handle P t p).map Node.bare := by
  have hload : ((u.load m).rx t).burst = (u.rx t).burst.map (Packet.map fun f => f.on m) := rfl
  cases hb : (u.rx t).burst with
  | nil =>
    rw [hb] at hload
    rw [Node.handle_nil hload, Node.handle_nil hb]
  | cons x rest =>
    rw [hb] at hload
    obtain ⟨hroomy, hx⟩ := h x rest hb
    have hrecv : receive P t (u.rx t).ret x.rx =
        (receive P t (u.rx t).ret (x.rx.on m)).map fun r => (r.1, r.2.own c) := by
      conv_lhs => rw [hx]
      exact receive_view hroomy t (u.rx t).ret m
    rw [Node.handle_cons hload, Node.handle_cons hb, Option.map_some, Option.map_some]
    show some (((u.load m).handled t p (x.map fun f => f.on m)
      (rest.map (Packet.map fun f => f.on m)) (receive P t (u.rx t).ret (x.rx.on m))).map
        Frame.bare) = some ((u.handled t p x rest (receive P t (u.rx t).ret x.rx)).map Frame.bare)
    rw [← Node.map_handled Frame.bare_addr, ← Node.map_handled Frame.bare_addr, hrecv]
    have hbare : (u.load m).map Frame.bare = u.map Frame.bare := Node.bare_load m u
    have hrest : (rest.map (Packet.map fun f => f.on m)).map (Packet.map Frame.bare) =
        rest.map (Packet.map Frame.bare) := List.map_map
    rw [hbare, hrest]
    cases receive P t (u.rx t).ret (x.rx.on m) with
    | error e => rfl
    | ok r =>
      obtain ⟨ret, o⟩ := r
      cases o <;> rfl

/-- So does a TX thread. -/
theorem Node.load_pull (u : Node) (m : Mem) (t : ℕ)
    (h : ∀ Q w x rest, u.Pulls P t Q w → u.queue Q = x :: rest →
      x.frame.Sendable c Q ∧ x.frame = x.frame.view c m) :
    ((u.load m).pull P t).map Node.bare = (u.pull P t).map Node.bare := by
  have hpulls : ∀ Q w, (u.load m).Pulls P t Q w ↔ u.Pulls P t Q w := by
    intro Q w
    have hlen : ((u.load m).tx t).collector.length = (u.tx t).collector.length :=
      List.length_map _
    unfold Node.Pulls
    rw [hlen]
    rfl
  have hqueue : ∀ Q, (u.load m).queue Q = (u.queue Q).map (Packet.map fun f => f.on m) :=
    fun Q => rfl
  by_cases hany : ∃ Q w x rest, u.Pulls P t Q w ∧ u.queue Q = x :: rest
  · obtain ⟨Q, w, x, rest, hp, hq⟩ := hany
    obtain ⟨hsend, hx⟩ := h Q w x rest hp hq
    have hq' := hqueue Q
    rw [hq] at hq'
    have hprep : prepare P.g u.topo Q w x.frame =
        (prepare P.g u.topo Q w (x.frame.on m)).map (Frame.own c) := by
      conv_lhs => rw [hx]
      exact prepare_view hsend m
    rw [Node.pull_cons ((hpulls Q w).2 hp) hq', Node.pull_cons hp hq, Option.map_some,
      Option.map_some]
    show some (((u.load m).pulled t Q w (x.map fun f => f.on m)
      (rest.map (Packet.map fun f => f.on m)) (prepare P.g u.topo Q w (x.frame.on m))).map
        Frame.bare) = some ((u.pulled t Q w x rest (prepare P.g u.topo Q w x.frame)).map Frame.bare)
    rw [← Node.map_pulled, ← Node.map_pulled, hprep]
    have hbare : (u.load m).map Frame.bare = u.map Frame.bare := Node.bare_load m u
    have hrest : (rest.map (Packet.map fun f => f.on m)).map (Packet.map Frame.bare) =
        rest.map (Packet.map Frame.bare) := List.map_map
    rw [hbare, hrest]
    cases prepare P.g u.topo Q w (x.frame.on m) <;> rfl
  · have hempty : ∀ Q w, u.Pulls P t Q w → u.queue Q = [] := by
      intro Q w hp
      cases hq : u.queue Q with
      | nil => rfl
      | cons x rest => exact absurd ⟨Q, w, x, rest, hp, hq⟩ hany
    rw [Node.pull_none hempty, Node.pull_none fun Q w hp => by
      rw [hqueue, hempty Q w ((hpulls Q w).1 hp)]
      rfl]

end RotorXdp
