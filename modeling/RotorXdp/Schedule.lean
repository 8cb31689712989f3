import RotorXdp.Ports

/-!
# Building runs

The steps of the node as equations: what is needed for a step to be taken, and the state after it.
-/

namespace RotorXdp

open Function

variable {P : NodeParams} {s : Node} {t p k : ℕ}

theorem OnRx.onRx (h : OnRx P s t p) (f : ℕ → Option Node) : s.onRx P t f = f p := by
  unfold Node.onRx
  rw [if_pos ⟨h.created, h.role⟩, h.port]
  rfl

theorem OnTx.onTx (h : OnTx P s t p) (f : ℕ → Option Node) : s.onTx P t f = f p := by
  unfold Node.onTx
  rw [if_pos ⟨h.created, h.role⟩, h.port]
  rfl

theorem Node.release_of_ok {as : List ℕ} {bp : Bpool} {bc : Bcache}
    (h : bcacheProdAll s.bp (s.bc p) as = .ok (bp, bc)) : s.release t p as =
      { s.note (if as = [] then [] else [⟨t, p, .prod⟩]) with
        bp := bp
        bc := update s.bc p bc } := by
  unfold Node.release
  simp only [Node.note, h]

theorem step_arrive {f : Frame} {b : ℕ} {rest : List ℕ} (hf : s.fault = none)
    (hfill : s.umemFq p = b :: rest)
    (hchunk : f.addr / s.bp.params.bufferSize = b / s.bp.params.bufferSize) :
    s.step P (.arrive p f) = some { s with
      umemFq := update s.umemFq p rest
      rxq := update s.rxq p (s.rxq p ++ [f]) } := by
  unfold Node.step
  rw [if_neg (not_not.2 hf)]
  simp only [hfill, if_pos hchunk]

theorem step_rxBurst {fresh : List ℕ} {bp : Bpool} {bc : Bcache} (hf : s.fault = none)
    (ht : OnRx P s t p) (hburst : (s.rx t).burst = []) (hk : k ≤ (s.rxq p).length)
    (hfill : (s.umemFq p).length + k ≤ s.bp.params.fillSize)
    (hpool : portRxBurst s.bp (s.bc p) k = .ok (some (fresh, bp, bc))) :
    s.step P (.rxBurst t k) = some { s with
      bp := bp
      bc := update s.bc p bc
      rxq := update s.rxq p ((s.rxq p).drop k)
      umemFq := update s.umemFq p (s.umemFq p ++ fresh)
      rx := update s.rx t
        ⟨stampAll p (s.log.received p) ((s.rxq p).take k), (s.rx t).ret.reset⟩
      log := { s.log with
        received := update s.log.received p (s.log.received p + k)
        uses := s.log.uses ++ [⟨t, p, .cons⟩, ⟨t, p, .rxFill⟩] } } := by
  unfold Node.step
  rw [if_neg (not_not.2 hf)]
  simp only [ht.onRx, Node.rxBurst, if_pos (And.intro hburst (And.intro hk hfill)), hpool]

theorem step_handle {x : Packet} {rest : List Packet} {ret : ReturnProcessRx} {Q : QueueId}
    {f : Frame} (hf : s.fault = none) (ht : OnRx P s t p) (hburst : (s.rx t).burst = x :: rest)
    (hrecv : receive P t (s.rx t).ret x.rx = .ok (ret, .offer Q f)) :
    s.step P (.handle t) =
      some ({ s with rx := update s.rx t ⟨rest, ret⟩ }.offer t p Q { x with frame := f }) := by
  unfold Node.step
  rw [if_neg (not_not.2 hf)]
  simp only [ht.onRx, Node.handle, hburst, hrecv]

theorem step_pull {Q : QueueId} {w : ℕ} {x : Packet} {rest : List Packet} {f : Frame}
    (hf : s.fault = none) (ht : OnTx P s t p) (hstage : (s.tx t).stage = .pulling)
    (hroom : (s.tx t).collector.length < maxBurstTx)
    (hslot : slotAt P t (s.tx t).pos = some (Q, w)) (hqueue : s.queue Q = x :: rest)
    (hprep : prepare P.g s.topo Q w x.frame = .ok f) :
    s.step P (.pull t) = some { s with
      queue := update s.queue Q rest
      tx := update s.tx t { s.tx t with
        collector := (s.tx t).collector ++ [⟨Q, w, x, s.topo, f⟩] }
      log := { s.log with
        routeCalls := s.log.routeCalls ++ routeCall s.topo s.log.ticks Q w } } := by
  unfold Node.step
  rw [if_neg (not_not.2 hf)]
  simp only [ht.onTx, Node.pull, if_pos (And.intro hstage hroom), hslot, hqueue, hprep]

theorem step_advance (hf : s.fault = none) (ht : OnTx P s t p)
    (hstage : (s.tx t).stage = .pulling) (hcoll : (s.tx t).collector = []) :
    s.step P (.leave t) = some { s with
      tx := update s.tx t { s.tx t with pos := nextPos P t (s.tx t).pos } } := by
  unfold Node.step
  rw [if_neg (not_not.2 hf)]
  simp only [ht.onTx, Node.leave, if_pos hstage, if_pos hcoll]

theorem step_call (hf : s.fault = none) (ht : OnTx P s t p) (hstage : (s.tx t).stage = .pulling)
    (hcoll : (s.tx t).collector ≠ []) :
    s.step P (.leave t) = some { s with
      tx := update s.tx t { s.tx t with stage := .draining }
      log := { s.log with bursts := s.log.bursts ++ [(s.tx t).collector.length] } } := by
  unfold Node.step
  rw [if_neg (not_not.2 hf)]
  simp only [ht.onTx, Node.leave, if_pos hstage, if_neg hcoll]

theorem step_drain (hf : s.fault = none) (ht : OnTx P s t p) (hstage : (s.tx t).stage = .draining)
    (hk : k ≤ (s.umemCq p).length) (hcomp : k ≤ s.bp.params.compSize) {s₁ : Node}
    (hs₁ : s₁ = (s.note [⟨t, p, .txComp⟩]).release t p ((s.umemCq p).take k)) :
    s.step P (.drain t k) = some { s₁ with
      umemCq := update s₁.umemCq p ((s₁.umemCq p).drop k)
      tx := update s₁.tx t { s₁.tx t with stage := .reserving } } := by
  unfold Node.step
  rw [if_neg (not_not.2 hf)]
  simp only [ht.onTx, Node.drain, if_pos (And.intro hstage (And.intro hk hcomp)), hs₁]

theorem step_submit (hf : s.fault = none) (ht : OnTx P s t p)
    (hstage : (s.tx t).stage = .reserving)
    (hroom : (s.txq p).length + (s.tx t).collector.length ≤ P.txSize) :
    s.step P (.submit t) = some { s with
      tx := update s.tx t ⟨nextPos P t (s.tx t).pos, .pulling, []⟩
      txq := update s.txq p (s.txq p ++ (s.tx t).collector)
      log := { s.log with
        sent := update s.log.sent p (s.log.sent p ++ (s.tx t).collector)
        uses := s.log.uses ++ [⟨t, p, .txComp⟩] } } := by
  unfold Node.step
  rw [if_neg (not_not.2 hf)]
  simp only [ht.onTx, Node.submit, if_pos (And.intro hstage hroom)]

theorem step_kernelTake {e : TxEntry} {rest : List TxEntry} (hf : s.fault = none)
    (htxq : s.txq p = e :: rest)
    (hroom : (s.kernelTx p).length + (s.umemCq p).length < s.bp.params.compSize) :
    s.step P (.kernelTake p) = some { s with
      txq := update s.txq p rest
      kernelTx := update s.kernelTx p (s.kernelTx p ++ [e]) } := by
  unfold Node.step
  rw [if_neg (not_not.2 hf)]
  simp only [htxq, if_pos hroom]

theorem step_kernelComplete {e : TxEntry} {rest : List TxEntry} (hf : s.fault = none)
    (htx : s.kernelTx p = e :: rest) :
    s.step P (.kernelComplete p) = some { s with
      kernelTx := update s.kernelTx p rest
      umemCq := update s.umemCq p (s.umemCq p ++ [e.frame.addr]) } := by
  unfold Node.step
  rw [if_neg (not_not.2 hf)]
  simp only [htx]

end RotorXdp
