import RotorXdp.Flow

/-!
# Where a packet comes from

The number of a packet is the number of its frame among those that arrived on its port, wherever the
packet is by now.

* `noteArrival`: the frames that have arrived, port by port;
* `Traced`, `Traced.step`: each packet has the frame of its number;
* `arrivals`, `Traced.run`: the frames that arrive in a run, and that the node keeps track of them;
* `Traced.sent`: so has the packet of each descriptor that was sent.
-/

namespace RotorXdp

open Function Runs Pipelines

variable {P : NodeParams} {s s' : Node} {a : NodeAct} {arrived : ℕ → List Frame}

/-- The frames that have arrived on each port after one more action. -/
def noteArrival (arrived : ℕ → List Frame) : NodeAct → ℕ → List Frame
  | .arrive p f => update arrived p (arrived p ++ [f])
  | _ => arrived

/-- The node has its frames from those that arrived. -/
structure Traced (P : NodeParams) (arrived : ℕ → List Frame) (s : Node) : Prop where
  inv : (s.pipeline P).Inv (wires P)
  received_le : ∀ p, s.log.received p ≤ (arrived p).length
  rxq : ∀ p, s.rxq p = (arrived p).drop (s.log.received p)
  pending : ∀ p, ∀ x ∈ (s.pipeline P).pending p, (arrived p)[x.stamp]? = some x.rx
  accepted : ∀ Q, ∀ x ∈ s.log.accepted Q, (arrived x.port)[x.stamp]? = some x.rx

theorem Traced.start (P : NodeParams) (bp : Bpool) (ports : ℕ → PortInit) :
    Traced P (fun _ => []) (Node.start bp ports) := by
  refine ⟨Pipeline.Inv.empty _, fun p => Nat.le_refl 0, fun p => rfl, ?_, ?_⟩
  · intro p x hx
    exact absurd hx List.not_mem_nil
  · intro Q x hx
    exact absurd hx List.not_mem_nil

/-- A packet of a burst has the frame of its number. -/
theorem mem_stampAll_getElem {x : Packet} {p stamp : ℕ} {fs : List Frame}
    (h : x ∈ stampAll p stamp fs) : fs[x.stamp - stamp]? = some x.rx := by
  induction fs generalizing stamp with
  | nil => exact absurd h (by simp [stampAll])
  | cons f fs ih =>
    rw [stampAll, List.mem_cons] at h
    rcases h with rfl | h
    · rw [Nat.sub_self]
      rfl
    · have hle := (mem_stampAll h).2.1
      rw [show x.stamp - stamp = (x.stamp - (stamp + 1)) + 1 by omega, List.getElem?_cons_succ]
      exact ih h

/-- What has arrived before stays where it is. -/
theorem getElem?_noteArrival {p k : ℕ} {f : Frame} (h : (arrived p)[k]? = some f)
    (a : NodeAct) : (noteArrival arrived a p)[k]? = some f := by
  cases a with
  | arrive q g =>
    by_cases hp : p = q
    · subst hp
      rw [noteArrival, update_self, List.getElem?_append_left (List.getElem?_eq_some_iff.1 h).1]
      exact h
    · rw [noteArrival, update_of_ne hp]
      exact h
  | _ => exact h

/-- A step after which the RX side holds nothing new. -/
theorem Traced.keep (ht : Traced P arrived s) (hinv : (s'.pipeline P).Inv (wires P))
    (hreceived : s'.log.received = s.log.received) (hrxq : s'.rxq = s.rxq)
    (haccepted : s'.log.accepted = s.log.accepted)
    (hpending : ∀ p, ∀ x ∈ (s'.pipeline P).pending p, x ∈ (s.pipeline P).pending p) :
    Traced P arrived s' := by
  refine ⟨hinv, ?_, ?_, fun p x hx => ht.pending p x (hpending p x hx), ?_⟩
  · rw [hreceived]
    exact ht.received_le
  · rw [hreceived, hrxq]
    exact ht.rxq
  · rw [haccepted]
    exact ht.accepted

/-- The packets of a port that are left when one of them was handled. -/
theorem mem_pending_handled {p q : ℕ} {x y : Packet} {rest : List Packet} {ret : ReturnProcessRx}
    (hburst : (s.rx (P.rxThread p)).burst = x :: rest)
    (hrx : s'.rx = update s.rx (P.rxThread p) ⟨rest, ret⟩)
    (hy : y ∈ (s'.pipeline P).pending q) : y ∈ (s.pipeline P).pending q := by
  simp only [Node.pipeline, hrx, burst_update] at hy
  exact mem_of_mem_update_tail hburst hy

/-- **Every step keeps track of the frames.** -/
theorem Traced.step (ht : Traced P arrived s) (h : NodeStep P s a s') :
    Traced P (noteArrival arrived a) s' := by
  have hinv : (s'.pipeline P).Inv (wires P) := by
    rcases h.pipeline ht.inv.pending_origin with heq | hstep
    · rw [heq]
      exact ht.inv
    · exact ht.inv.step hstep
  cases h with
  | arrive p f b rest hfill hchunk =>
    refine ⟨hinv, fun q => ?_, fun q => ?_, fun q x hx => ?_, fun Q x hx => ?_⟩
    · by_cases hq : q = p
      · subst hq
        rw [noteArrival, update_self, List.length_append]
        exact Nat.le_trans (ht.received_le q) (Nat.le_add_right _ _)
      · rw [noteArrival, update_of_ne hq]
        exact ht.received_le q
    · by_cases hq : q = p
      · subst hq
        show update s.rxq q (s.rxq q ++ [f]) q = _
        rw [update_self, noteArrival, update_self, ht.rxq q,
          List.drop_append_of_le_length (ht.received_le q)]
      · show update s.rxq p (s.rxq p ++ [f]) q = _
        rw [update_of_ne hq, noteArrival, update_of_ne hq]
        exact ht.rxq q
    · exact getElem?_noteArrival (ht.pending q x hx) (.arrive p f)
    · exact getElem?_noteArrival (ht.accepted Q x hx) (.arrive p f)
  | rxBurst t p k fresh bp bc hrx hburst hk hfill hpool =>
    obtain ⟨rfl, -⟩ := hrx.eq
    have hlen : s.log.received p + k ≤ (arrived p).length := by
      rw [ht.rxq p, List.length_drop] at hk
      have := ht.received_le p
      omega
    refine ⟨hinv, fun q => ?_, fun q => ?_, fun q x hx => ?_, ht.accepted⟩
    · show update s.log.received p (s.log.received p + k) q ≤ _
      by_cases hq : q = p
      · subst hq
        rw [update_self]
        exact hlen
      · rw [update_of_ne hq]
        exact ht.received_le q
    · show update s.rxq p ((s.rxq p).drop k) q =
        (arrived q).drop (update s.log.received p (s.log.received p + k) q)
      by_cases hq : q = p
      · subst hq
        rw [update_self, update_self, ht.rxq q, List.drop_drop]
      · rw [update_of_ne hq, update_of_ne hq]
        exact ht.rxq q
    · simp only [Node.pipeline, burst_update] at hx
      by_cases hq : q = p
      · subst hq
        rw [update_self] at hx
        have hmem := mem_stampAll hx
        have hget := mem_stampAll_getElem hx
        rw [ht.rxq q] at hget
        -- number `received + j` is entry `j` behind the frames received before
        have hdrop := List.getElem?_of_mem (List.mem_of_getElem? hget)
        rw [List.getElem?_take] at hget
        split at hget
        · rw [List.getElem?_drop] at hget
          rw [show x.stamp = s.log.received q + (x.stamp - s.log.received q) by omega]
          exact hget
        · cases hget
      · rw [update_of_ne hq] at hx
        exact ht.pending q x hx
  | accept t p x rest ret Q f hrx hburst hrecv hroom =>
    obtain ⟨rfl, -⟩ := hrx.eq
    have hx : x ∈ (s.pipeline P).pending p := by
      show x ∈ (s.rx (P.rxThread p)).burst
      rw [hburst]
      exact List.mem_cons_self
    refine ⟨hinv, ht.received_le, ht.rxq, fun q y hy => ?_, fun R y hy => ?_⟩
    · exact ht.pending q y (mem_pending_handled hburst rfl hy)
    · have hmem : y ∈ update s.log.accepted Q (s.log.accepted Q ++ [{ x with frame := f }]) R := hy
      rcases mem_update_append hmem with hold | ⟨-, hnew⟩
      · exact ht.accepted R y hold
      · rw [List.mem_singleton.1 hnew]
        have hport : x.port = p := ht.inv.pending_origin p x hx
        show (arrived x.port)[x.stamp]? = some x.rx
        rw [hport]
        exact ht.pending p x hx
  | reject t p x rest ret Q f hrx hburst hrecv hfull =>
    obtain ⟨rfl, -⟩ := hrx.eq
    obtain ⟨bp, bc, fault, he⟩ := Node.release_eq
      { s with rx := update s.rx (P.rxThread p) ⟨rest, ret⟩ } (P.rxThread p) p [x.rx.addr]
    rw [he] at hinv ⊢
    exact ht.keep hinv rfl rfl rfl fun q y hy => mem_pending_handled hburst rfl hy
  | giveBack t p x rest ret hrx hburst hrecv =>
    obtain ⟨rfl, -⟩ := hrx.eq
    obtain ⟨bp, bc, fault, he⟩ := Node.release_eq
      { s with rx := update s.rx (P.rxThread p) ⟨rest, ret⟩ } (P.rxThread p) p [x.rx.addr]
    rw [he] at hinv ⊢
    exact ht.keep hinv rfl rfl rfl fun q y hy => mem_pending_handled hburst rfl hy
  | ignore t p x rest ret hrx hburst hrecv =>
    obtain ⟨rfl, -⟩ := hrx.eq
    exact ht.keep hinv rfl rfl rfl fun q y hy => mem_pending_handled hburst rfl hy
  | drain t p k s₁ htx hk hs₁ =>
    obtain ⟨bp, bc, fault, he⟩ := Node.release_eq (s.note [⟨t, p, .txComp⟩]) t p
      ((s.umemCq p).take k)
    rw [hs₁, he] at hinv ⊢
    exact ht.keep hinv rfl rfl rfl fun q y hy => hy
  | _ => exact ht.keep hinv rfl rfl rfl fun q y hy => hy

/-! ### Runs -/

section Arrivals

variable {as : List NodeAct} {p : ℕ} {f : Frame}

/-- The frames that arrive on a port. -/
def arrivals (p : ℕ) : List NodeAct → List Frame
  | [] => []
  | .arrive q f :: as => if q = p then f :: arrivals p as else arrivals p as
  | _ :: as => arrivals p as

theorem mem_arrivals (h : f ∈ arrivals p as) : .arrive p f ∈ as := by
  induction as with
  | nil => exact absurd h List.not_mem_nil
  | cons a as ih =>
    cases a with
    | arrive q g =>
      simp only [arrivals] at h
      split at h
      · rename_i hq
        subst hq
        rcases List.mem_cons.1 h with rfl | h
        · exact List.mem_cons_self
        · exact List.mem_cons_of_mem _ (ih h)
      · exact List.mem_cons_of_mem _ (ih h)
    | _ => exact List.mem_cons_of_mem _ (ih h)

/-- What has arrived after a run. -/
theorem foldl_noteArrival (arrived : ℕ → List Frame) (as : List NodeAct) :
    as.foldl noteArrival arrived = fun p => arrived p ++ arrivals p as := by
  induction as generalizing arrived with
  | nil =>
    funext p
    exact (List.append_nil _).symm
  | cons a as ih =>
    rw [List.foldl_cons, ih]
    funext p
    cases a with
    | arrive q f =>
      simp only [noteArrival, arrivals]
      by_cases hq : q = p
      · subst hq
        rw [update_self, if_pos rfl, List.append_assoc, List.singleton_append]
      · rw [update_of_ne fun h => hq h.symm, if_neg hq]
    | _ => rfl

/-- A run keeps track of the frames. -/
theorem Traced.run (ht : Traced P arrived s) (h : Runs.run (Node.step P) s as = some s') :
    Traced P (as.foldl noteArrival arrived) s' := by
  induction as generalizing s arrived with
  | nil =>
    cases h
    exact ht
  | cons a as ih =>
    obtain ⟨v, hv, hrest⟩ := run_cons_eq_some.1 h
    exact ih (ht.step (NodeStep.of_step hv).2) hrest

end Arrivals

/-! ### What was sent -/

/-- **A descriptor that was sent is made of a frame that arrived.** -/
theorem Traced.sent (ht : Traced P arrived s) {p : ℕ} {e : TxEntry} (he : e ∈ s.log.sent p) :
    Emitted P p e ∧ (arrived e.packet.port)[e.packet.stamp]? = some e.packet.rx := by
  have hemitted : Emitted P p e := ht.inv.emitted p e (List.mem_append_left _ he)
  obtain ⟨pos, hslot⟩ := hemitted.slot
  obtain ⟨i, hi⟩ := List.getElem?_of_mem he
  exact ⟨hemitted, ht.accepted e.queue e.packet (ht.inv.mem_accepted ⟨pos, _, hslot⟩ ⟨hi, rfl⟩)⟩

/-- A packet is sent once. -/
theorem Traced.sent_once (ht : Traced P arrived s) {p q i j : ℕ} {e e' : TxEntry}
    (he : (s.log.sent p)[i]? = some e) (he' : (s.log.sent q)[j]? = some e')
    (hport : e.packet.port = e'.packet.port) (hstamp : e.packet.stamp = e'.packet.stamp) :
    p = q ∧ i = j := by
  obtain ⟨pos, hslot⟩ := (ht.sent (List.mem_of_getElem? he)).1.slot
  obtain ⟨pos', hslot'⟩ := (ht.sent (List.mem_of_getElem? he')).1.slot
  exact ht.inv.once ⟨pos, _, hslot⟩ ⟨pos', _, hslot'⟩ ⟨he, rfl⟩ ⟨he', rfl⟩ hport hstamp

end RotorXdp
