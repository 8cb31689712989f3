import RotorXdp.FullQueue

/-!
# Who uses a port

The rings of a port and its cache are used without a lock, so each side of a port is to be left to
one thread. The RX thread takes buffers and fills, the TX thread sends and completes. Completed
buffers go back through `bcache_prod` on the TX thread, and so do frames whose queue is full, on the
RX thread.

* `OneUser`: one thread at most uses a side of a port;
* `RxReleases`, `TxReleases`: the steps that put a buffer back;
* `NodeStep.uses`: the uses of one step, `Uses`, `run_uses`: those of a run;
* `one_user_iff`: the runs in which each side of a port has one user.
-/

namespace RotorXdp

open Runs

variable {P : NodeParams} {s s' s₀ : Node} {a : NodeAct} {as : List NodeAct} {t p : ℕ}

/-- At most one thread has used a side of port `p`. -/
def OneUser (s : Node) (p : ℕ) (side : Side) : Prop :=
  ∀ u ∈ s.log.uses, ∀ v ∈ s.log.uses, u.port = p → v.port = p → u.side = side → v.side = side →
    u.thread = v.thread

/-- The RX thread puts the buffer of a frame back: its address is 0 or its queue is full. -/
def Outcome.putsBack (s : Node) : Outcome → Prop
  | .offer Q _ => ¬ (s.queue Q).length < maxBurstTxObjs
  | .release => True
  | .nothing => False

/-- The action puts the next frame of the burst of port `p` back. -/
def RxReleases (P : NodeParams) (p : ℕ) (s : Node) (a : NodeAct) : Prop :=
  ∃ t x rest ret o, a = .handle t ∧ OnRx P s t p ∧ (s.rx t).burst = x :: rest ∧
    receive P t (s.rx t).ret x.rx = .ok (ret, o) ∧ o.putsBack s

/-- The action puts completed frames of port `p` back. -/
def TxReleases (P : NodeParams) (p : ℕ) (s : Node) (a : NodeAct) : Prop :=
  ∃ t k, a = .drain t k ∧ OnTx P s t p ∧ 0 < k

/-! ### The uses of a step -/

/-- The thread that a use is due to. -/
def Rightful (P : NodeParams) (s : Node) (a : NodeAct) (u : Use) : Prop :=
  match u.side with
  | .rxFill => u.thread = P.rxThread u.port
  | .cons => u.thread = P.rxThread u.port
  | .txComp => u.thread = P.txThread u.port
  | .prod => u.thread = P.rxThread u.port ∧ RxReleases P u.port s a ∨
      u.thread = P.txThread u.port ∧ TxReleases P u.port s a

/-- The uses of a step. -/
structure StepUses (P : NodeParams) (s : Node) (a : NodeAct) (us : List Use) : Prop where
  rightful : ∀ u ∈ us, Rightful P s a u
  rx : ∀ p, RxReleases P p s a → ⟨P.rxThread p, p, .prod⟩ ∈ us
  tx : ∀ p, TxReleases P p s a → ⟨P.txThread p, p, .prod⟩ ∈ us

theorem OnRx.port_unique {q : ℕ} (h : OnRx P s t p) (h' : OnRx P s t q) : p = q :=
  Option.some.inj (h.port.symm.trans h'.port)

theorem OnTx.port_unique {q : ℕ} (h : OnTx P s t p) (h' : OnTx P s t q) : p = q :=
  Option.some.inj (h.port.symm.trans h'.port)

/-- A step of neither kind puts nothing back. -/
theorem StepUses.of_other {us : List Use} (ha : (∀ t, a ≠ .handle t) ∧ ∀ t k, a ≠ .drain t k)
    (h : ∀ u ∈ us, Rightful P s a u) : StepUses P s a us where
  rightful := h
  rx := by
    rintro p ⟨t, x, rest, ret, o, rfl, -⟩
    exact absurd rfl (ha.1 t)
  tx := by
    rintro p ⟨t, k, rfl, -⟩
    exact absurd rfl (ha.2 t k)

/-- Handling a frame puts back that frame or none. -/
theorem StepUses.of_handle {x : Packet} {rest : List Packet} {ret : ReturnProcessRx} {o : Outcome}
    {us : List Use} (ht : OnRx P s t p) (hburst : (s.rx t).burst = x :: rest)
    (hrecv : receive P t (s.rx t).ret x.rx = .ok (ret, o))
    (hyes : o.putsBack s → us = [⟨t, p, .prod⟩]) (hno : ¬ o.putsBack s → us = []) :
    StepUses P s (.handle t) us where
  rightful := by
    intro u hu
    by_cases ho : o.putsBack s
    · rw [hyes ho, List.mem_singleton] at hu
      subst hu
      exact .inl ⟨ht.eq.1, t, x, rest, ret, o, rfl, ht, hburst, hrecv, ho⟩
    · rw [hno ho] at hu
      exact absurd hu List.not_mem_nil
  rx := by
    rintro q ⟨t', x', rest', ret', o', ha, ht', hburst', hrecv', ho⟩
    cases ha
    rw [hburst] at hburst'
    cases hburst'
    rw [hrecv] at hrecv'
    cases hrecv'
    obtain rfl := ht.port_unique ht'
    rw [hyes ho, ← ht.eq.1]
    exact List.mem_singleton_self _
  tx := by
    rintro q ⟨t', k, ha, -⟩
    cases ha

theorem NodeStep.uses (h : NodeStep P s a s') :
    ∃ us, s'.log.uses = s.log.uses ++ us ∧ StepUses P s a us := by
  have hnil : s.log.uses = s.log.uses ++ [] := (List.append_nil _).symm
  cases h with
  | create | readTime | arrive | kernelTake | kernelComplete =>
    exact ⟨[], hnil, .of_other (by simp) (by simp)⟩
  | pullFault | pull | advance | call => exact ⟨[], hnil, .of_other (by simp) (by simp)⟩
  | rxFault t p k e ht =>
    refine ⟨[⟨t, p, .cons⟩], rfl, .of_other (by simp) fun u hu => ?_⟩
    rw [List.mem_singleton.1 hu]
    exact ht.eq.1
  | rxBurst t p k fresh bp bc ht hburst hk hfill hpool =>
    refine ⟨[⟨t, p, .cons⟩, ⟨t, p, .rxFill⟩], rfl, .of_other (by simp) fun u hu => ?_⟩
    rw [List.mem_cons, List.mem_singleton] at hu
    rcases hu with rfl | rfl
    · exact ht.eq.1
    · exact ht.eq.1
  | handleFault t p x rest e ht hburst hrecv =>
    refine ⟨[], hnil, by simp, ?_, ?_⟩
    · -- a frame that cannot be handled is not put back
      rintro q ⟨t', x', rest', ret', o', ha, -, hburst', hrecv', -⟩
      cases ha
      rw [hburst] at hburst'
      cases hburst'
      rw [hrecv] at hrecv'
      exact absurd hrecv' (by simp)
    · rintro q ⟨t', k, ha, -⟩
      cases ha
  | accept t p x rest ret Q f ht hburst hrecv hroom =>
    exact ⟨[], hnil, .of_handle ht hburst hrecv (fun ho => absurd hroom ho) fun _ => rfl⟩
  | reject t p x rest ret Q f ht hburst hrecv hfull =>
    obtain ⟨bp, bc, fault, heq⟩ := Node.release_eq { s with rx := _ } t p [x.rx.addr]
    rw [heq]
    exact ⟨_, rfl, .of_handle ht hburst hrecv (fun _ => rfl) fun ho => absurd hfull ho⟩
  | giveBack t p x rest ret ht hburst hrecv =>
    obtain ⟨bp, bc, fault, heq⟩ := Node.release_eq { s with rx := _ } t p [x.rx.addr]
    rw [heq]
    exact ⟨_, rfl, .of_handle ht hburst hrecv (fun _ => rfl) fun ho => absurd trivial ho⟩
  | ignore t p x rest ret ht hburst hrecv =>
    exact ⟨[], hnil, .of_handle ht hburst hrecv False.elim fun _ => rfl⟩
  | drain t p k s₁ ht hk hs₁ =>
    obtain ⟨bp, bc, fault, heq⟩ := (s.note [⟨t, p, .txComp⟩]).release_eq t p ((s.umemCq p).take k)
    rw [hs₁, heq]
    refine ⟨_, List.append_assoc _ _ _, ?_, ?_, ?_⟩
    · intro u hu
      rw [List.mem_append, List.mem_singleton] at hu
      rcases hu with rfl | hu
      · exact ht.eq.1
      · split at hu
        · exact absurd hu List.not_mem_nil
        · rename_i hne
          rw [List.mem_singleton] at hu
          subst hu
          have hk0 : 0 < k := by
            rcases Nat.eq_zero_or_pos k with rfl | hpos
            · exact absurd (List.take_zero) hne
            · exact hpos
          exact .inr ⟨ht.eq.1, t, k, rfl, ht, hk0⟩
    · rintro q ⟨t', x', rest', ret', o', ha, -⟩
      cases ha
    · rintro q ⟨t', k', ha, ht', hk0⟩
      cases ha
      obtain rfl := ht.port_unique ht'
      have hne : (s.umemCq p).take k ≠ [] := by
        intro hnil
        have hlen : ((s.umemCq p).take k).length = 0 := by rw [hnil]; rfl
        rw [List.length_take] at hlen
        omega
      rw [if_neg hne, ← ht.eq.1]
      exact List.mem_append_right _ (List.mem_singleton_self _)
  | submit t p ht =>
    refine ⟨[⟨t, p, .txComp⟩], rfl, .of_other (by simp) fun u hu => ?_⟩
    rw [List.mem_singleton.1 hu]
    exact ht.eq.1

/-! ### The uses of a run -/

/-- The uses of a run. -/
structure Uses (P : NodeParams) (s : Node) (as : List NodeAct) (us : List Use) : Prop where
  rings : ∀ u ∈ us, (u.side = .rxFill → u.thread = P.rxThread u.port) ∧
    (u.side = .cons → u.thread = P.rxThread u.port) ∧
    (u.side = .txComp → u.thread = P.txThread u.port)
  prod_tx : ∀ p, Along (Node.step P) (fun s a => ¬ RxReleases P p s a) s as → ∀ u ∈ us,
    u.port = p → u.side = .prod → u.thread = P.txThread p
  prod_rx : ∀ p, Along (Node.step P) (fun s a => ¬ TxReleases P p s a) s as → ∀ u ∈ us,
    u.port = p → u.side = .prod → u.thread = P.rxThread p
  rx : ∀ p, ¬ Along (Node.step P) (fun s a => ¬ RxReleases P p s a) s as →
    ⟨P.rxThread p, p, .prod⟩ ∈ us ∧ p < P.n + P.v
  tx : ∀ p, ¬ Along (Node.step P) (fun s a => ¬ TxReleases P p s a) s as →
    ⟨P.txThread p, p, .prod⟩ ∈ us ∧ p < P.n + P.v

theorem Uses.nil (P : NodeParams) (s : Node) : Uses P s [] [] where
  rings _ hu := absurd hu List.not_mem_nil
  prod_tx _ _ _ hu := absurd hu List.not_mem_nil
  prod_rx _ _ _ hu := absurd hu List.not_mem_nil
  rx _ h := absurd trivial h
  tx _ h := absurd trivial h

theorem RxReleases.port_lt (h : RxReleases P p s a) : p < P.n + P.v := by
  obtain ⟨t, x, rest, ret, o, -, ht, -⟩ := h
  exact ht.eq.2

theorem TxReleases.port_lt (h : TxReleases P p s a) : p < P.n + P.v := by
  obtain ⟨t, k, -, ht, -⟩ := h
  exact ht.eq.2

/-- A run that violates a condition on its steps does so in its first step or afterwards. -/
theorem not_along_cons {C : Node → NodeAct → Prop} (hstep : s.step P a = some s')
    (h : ¬ Along (Node.step P) (fun s a => ¬ C s a) s (a :: as)) :
    C s a ∨ ¬ Along (Node.step P) (fun s a => ¬ C s a) s' as := by
  by_cases hC : C s a
  · exact .inl hC
  · refine .inr fun hrest => h ⟨hC, fun u hu => ?_⟩
    rw [hstep] at hu
    cases hu
    exact hrest

theorem Uses.cons {us vs : List Use} (hstep : s.step P a = some s') (hus : StepUses P s a us)
    (hvs : Uses P s' as vs) : Uses P s (a :: as) (us ++ vs) where
  rings := by
    intro u hu
    rcases List.mem_append.1 hu with hu | hu
    · have h := hus.rightful u hu
      unfold Rightful at h
      refine ⟨fun hside => ?_, fun hside => ?_, fun hside => ?_⟩
      all_goals rw [hside] at h; exact h
    · exact hvs.rings u hu
  prod_tx := by
    rintro p ⟨hno, hrest⟩ u hu hp hside
    rcases List.mem_append.1 hu with hu | hu
    · have h := hus.rightful u hu
      unfold Rightful at h
      rw [hside, hp] at h
      rcases h with ⟨-, hrel⟩ | ⟨hthread, -⟩
      · exact absurd hrel hno
      · exact hthread
    · exact hvs.prod_tx p (hrest s' hstep) u hu hp hside
  prod_rx := by
    rintro p ⟨hno, hrest⟩ u hu hp hside
    rcases List.mem_append.1 hu with hu | hu
    · have h := hus.rightful u hu
      unfold Rightful at h
      rw [hside, hp] at h
      rcases h with ⟨hthread, -⟩ | ⟨-, hrel⟩
      · exact hthread
      · exact absurd hrel hno
    · exact hvs.prod_rx p (hrest s' hstep) u hu hp hside
  rx := by
    intro p h
    rcases not_along_cons hstep h with hrel | hrest
    · exact ⟨List.mem_append_left _ (hus.rx p hrel), hrel.port_lt⟩
    · obtain ⟨hmem, hlt⟩ := hvs.rx p hrest
      exact ⟨List.mem_append_right _ hmem, hlt⟩
  tx := by
    intro p h
    rcases not_along_cons hstep h with hrel | hrest
    · exact ⟨List.mem_append_left _ (hus.tx p hrel), hrel.port_lt⟩
    · obtain ⟨hmem, hlt⟩ := hvs.tx p hrest
      exact ⟨List.mem_append_right _ hmem, hlt⟩

theorem run_uses (h : run (Node.step P) s₀ as = some s) :
    ∃ us, s.log.uses = s₀.log.uses ++ us ∧ Uses P s₀ as us := by
  induction as generalizing s₀ with
  | nil =>
    cases h
    exact ⟨[], (List.append_nil _).symm, .nil P s⟩
  | cons a as ih =>
    obtain ⟨s₁, hstep, hrest⟩ := run_cons_eq_some.1 h
    obtain ⟨us, hus, hsu⟩ := (NodeStep.of_step hstep).2.uses
    obtain ⟨vs, hvs, hv⟩ := ih hrest
    exact ⟨us ++ vs, by rw [hvs, hus, List.append_assoc], .cons hstep hsu hv⟩

theorem rxThread_ne_txThread (h : p < P.n + P.v) : P.rxThread p ≠ P.txThread p := by
  unfold NodeParams.rxThread NodeParams.txThread
  split <;> omega

/-- **Each side of a port has one user except for the producer side of its cache, which has one
exactly when no frame received on the port is put back or no frame sent on it is.** -/
theorem one_user_iff (P : NodeParams) (bp : Bpool) (ports : ℕ → PortInit) (as : List NodeAct)
    (s : Node) (h : run (Node.step P) (Node.start bp ports) as = some s) (p : ℕ) :
    (∀ side, side ≠ .prod → OneUser s p side) ∧
    ((∀ side, OneUser s p side) ↔
      Along (Node.step P) (fun s a => ¬ RxReleases P p s a) (Node.start bp ports) as ∨
      Along (Node.step P) (fun s a => ¬ TxReleases P p s a) (Node.start bp ports) as) := by
  obtain ⟨us, hus, huses⟩ := run_uses h
  have hlog : s.log.uses = us := hus
  have hrings : ∀ side, side ≠ .prod → OneUser s p side := by
    intro side hne u hu v hv hup hvp hside hside'
    rw [hlog] at hu hv
    obtain ⟨hu1, hu2, hu3⟩ := huses.rings u hu
    obtain ⟨hv1, hv2, hv3⟩ := huses.rings v hv
    rw [hup] at hu1 hu2 hu3
    rw [hvp] at hv1 hv2 hv3
    cases side with
    | rxFill => rw [hu1 hside, hv1 hside']
    | cons => rw [hu2 hside, hv2 hside']
    | txComp => rw [hu3 hside, hv3 hside']
    | prod => exact absurd rfl hne
  refine ⟨hrings, fun hall => ?_, fun halong side => ?_⟩
  · by_contra hboth
    rw [not_or] at hboth
    obtain ⟨hrx, hlt⟩ := huses.rx p hboth.1
    obtain ⟨htx, -⟩ := huses.tx p hboth.2
    rw [← hlog] at hrx htx
    exact rxThread_ne_txThread hlt (hall .prod _ hrx _ htx rfl rfl rfl rfl)
  · by_cases hside : side = .prod
    · subst hside
      intro u hu v hv hup hvp hside hside'
      rw [hlog] at hu hv
      rcases halong with hrx | htx
      · rw [huses.prod_tx p hrx u hu hup hside, huses.prod_tx p hrx v hv hvp hside']
      · rw [huses.prod_rx p htx u hu hup hside, huses.prod_rx p htx v hv hvp hside']
    · exact hrings side hside

/-- A frame is received and queued, nothing is sent. -/
def receiveOne : List NodeAct :=
  [.create, .create, .arrive 0 (tunnelledAt 405504), .rxBurst 1 1, .handle 1]

theorem one_user_receiveOne : ∃ s₀ s, Node.boot ⟨100, 4096, 20, 20, 20⟩ 1 = some s₀ ∧
    run (Node.step onePort) s₀ receiveOne = some s ∧ ∀ side, OneUser s 0 side := by
  have hrun : ((Node.boot ⟨100, 4096, 20, 20, 20⟩ 1).bind fun s₀ =>
      (run (Node.step onePort) s₀ receiveOne).map fun s => s.fault) = some none := by
    decide +kernel
  obtain ⟨s₀, hs₀, hmap⟩ := Option.bind_eq_some_iff.1 hrun
  obtain ⟨s, hs, -⟩ := Option.map_eq_some_iff.1 hmap
  obtain ⟨bp, ports, rfl⟩ := Node.boot_eq_some hs₀
  refine ⟨_, s, hs₀, hs, (one_user_iff onePort bp ports receiveOne s hs 0).2.2 (.inr ?_)⟩
  apply Along.of_forall
  rintro a ha s ⟨t, k, rfl, -⟩
  exact absurd ha (by simp [receiveOne])

/-- Frames keep coming in until a queue is full and one is put back by the RX thread; then the TX
thread sends one and puts it back as well. -/
theorem two_producers : ∃ s₀ s, Node.boot bpoolParamsDefault 1 = some s₀ ∧
    Reaches (Node.step onePort) s₀ s ∧ ⟨0, 0, .prod⟩ ∈ s.log.uses ∧
    ⟨1, 0, .prod⟩ ∈ s.log.uses ∧ ¬ OneUser s 0 .prod := by
  obtain ⟨s₀, s₁, hboot, hreach, h⟩ := boot_default
  obtain ⟨s, hreach', htx, hrx⟩ := h.both_put
  refine ⟨s₀, s, hboot, hreach.trans hreach', htx, hrx, fun hone => ?_⟩
  exact absurd (hone _ htx _ hrx rfl rfl rfl rfl) (by decide)

end RotorXdp
