import RotorXdp.Lib.Run
import RotorXdp.Structures
import RotorXdp.XskRing

/-!
# The transmit call and the kernel

`port_tx_burst_collector` on one port, interleaved with the kernel: it reads the completion ring
once, then spins until the TX ring has room for its burst. The kernel takes a descriptor only when
it can reserve a completion slot for it, and publishes the slot at any later time.

* `TxSide.step`: entering the call, one round of its reserve loop, the kernel's two moves;
* `TxSide.Deadlocked`: the call spins and the kernel is out of moves;
* `TxSide.Safe`: the calls that cannot end there, `TxSide.Inv.not_deadlocked` for runs of them;
* `TxSide.Ok.deadlock_of_not_safe`: every other call has a kernel schedule that ends there.
-/

namespace RotorXdp

open Runs

/-- The transmit side of a port. -/
structure TxSide where
  txq : XskRing
  umemCq : XskRing
  /-- `umem_cfg.comp_size` -/
  compSize : BitVec 32
  /-- descriptors the kernel has taken, each with a completion slot reserved -/
  inFlight : ℕ
  /-- `n_pkts` of the call that is in its reserve loop -/
  nPkts : Option ℕ

/-- The transmit side after the socket is created, with rings of the given sizes. -/
def TxSide.init (txSize compSize : BitVec 32) : TxSide :=
  ⟨.initProd txSize, .initCons compSize, compSize, 0, none⟩

inductive TxAct
  /-- the call up to its reserve loop: peek at the completion ring and release it -/
  | enter (nPkts : ℕ)
  /-- one round of the reserve loop; when it succeeds the descriptors are written and submitted -/
  | reserve
  | kernelTake
  | kernelComplete

/-- One step of the call or of the kernel. -/
def TxSide.step (s : TxSide) : TxAct → Option TxSide
  | .enter n =>
    if s.nPkts = none ∧ n ≤ maxBurstTx then
      let (k, umemCq) := xskRingConsPeek s.umemCq s.compSize
      some { s with umemCq := xskRingConsRelease umemCq k, nPkts := some n }
    else none
  | .reserve =>
    match s.nPkts with
    | none => none
    | some n =>
      let (status, txq) := xskRingProdReserve s.txq (BitVec.ofNat 32 n)
      if status = BitVec.ofNat 32 n then
        some { s with txq := xskRingProdSubmit txq (BitVec.ofNat 32 n), nPkts := none }
      else some { s with txq := txq }
  | .kernelTake =>
    if 0 < s.txq.pending ∧ s.umemCq.pending + s.inFlight < s.umemCq.size.toNat then
      some { s with txq := s.txq.kernelConsume, inFlight := s.inFlight + 1 }
    else none
  | .kernelComplete =>
    if 0 < s.inFlight then
      some { s with umemCq := s.umemCq.kernelProduce, inFlight := s.inFlight - 1 }
    else none

/-- The call is in its reserve loop, the TX ring lacks room for its burst, and every completion
slot holds a published completion that nobody will read. -/
def TxSide.Deadlocked (s : TxSide) : Prop :=
  ∃ n, s.nPkts = some n ∧ s.txq.size.toNat < s.txq.pending + n ∧
    s.umemCq.pending = s.umemCq.size.toNat

/-- Descriptors submitted and not yet completed. -/
def TxSide.outstanding (s : TxSide) : ℕ := s.txq.pending + s.inFlight

/-- A burst of `n` frames is safe to start when the descriptors that are out cannot fill the
completion ring, or leave room in the TX ring for the burst when they do. -/
def TxSide.Safe (s : TxSide) (n : ℕ) : Prop :=
  s.outstanding < s.umemCq.size.toNat ∨
    s.outstanding + n ≤ s.txq.size.toNat + s.umemCq.size.toNat

/-- The counters of both rings, with `used` and `unread` entries. -/
structure TxSide.Ok (T C : BitVec 32) (s : TxSide) (used unread : ℕ) : Prop where
  tx : ProdOk T s.txq used
  cq : ConsOk C s.umemCq unread
  comp_eq : s.compSize = C
  slots : s.inFlight + unread ≤ C.toNat
  burst_le : ∀ n, s.nPkts = some n → n ≤ maxBurstTx

variable {T C : BitVec 32} {s : TxSide} {used unread n : ℕ}

theorem TxSide.Ok.init (T C : BitVec 32) : (TxSide.init T C).Ok T C 0 0 :=
  ⟨.init T, .init C, rfl, Nat.zero_le _, by simp [TxSide.init]⟩

/-! ### What each step does to the counts -/

theorem TxSide.Ok.enter (h : s.Ok T C used unread) (hs : s.nPkts = none) (hn : n ≤ maxBurstTx) :
    ∃ t, s.step (.enter n) = some t ∧ t.Ok T C used 0 ∧ t.nPkts = some n ∧
      t.inFlight = s.inFlight := by
  have hslots := h.slots
  obtain ⟨-, hdrain⟩ := h.cq.drain
  rw [← h.comp_eq] at hdrain
  rw [TxSide.step, if_pos ⟨hs, hn⟩]
  refine ⟨_, rfl, ⟨h.tx, ?_, h.comp_eq, ?_, ?_⟩, rfl, rfl⟩
  · rw [h.comp_eq] at hdrain ⊢; exact hdrain
  · exact Nat.le_of_add_right_le hslots
  · rintro m ⟨⟩; exact hn

theorem TxSide.Ok.reserve (h : s.Ok T C used unread) (hs : s.nPkts = some n) :
    ∃ t, s.step .reserve = some t ∧ t.inFlight = s.inFlight ∧
      if used + n ≤ T.toNat then t.Ok T C (used + n) unread ∧ t.nPkts = none
      else t.Ok T C used unread ∧ t.nPkts = some n := by
  have hn : n < 2 ^ 32 := Nat.lt_of_le_of_lt (h.burst_le n hs) (by decide)
  have hres := h.tx.reserve hn
  by_cases hroom : used + n ≤ T.toNat
  · rw [if_pos hroom] at hres
    simp only [TxSide.step, hs, if_pos hres.1, if_pos hroom]
    exact ⟨_, rfl, rfl, ⟨hres.2, h.cq, h.comp_eq, h.slots, by simp⟩, rfl⟩
  · rw [if_neg hroom] at hres
    simp only [TxSide.step, hs, if_neg hres.1, if_neg hroom]
    exact ⟨_, rfl, rfl, ⟨hres.2, h.cq, h.comp_eq, h.slots, hs ▸ h.burst_le⟩, rfl⟩

theorem TxSide.Ok.kernelTake (h : s.Ok T C (used + 1) unread)
    (hslot : s.inFlight + unread < C.toNat) :
    ∃ t, s.step .kernelTake = some t ∧ t.Ok T C used unread ∧ t.nPkts = s.nPkts ∧
      t.inFlight = s.inFlight + 1 := by
  have hguard : 0 < s.txq.pending ∧ s.umemCq.pending + s.inFlight < s.umemCq.size.toNat := by
    rw [h.tx.pending_eq, h.cq.pending_eq, h.cq.1]; omega
  rw [TxSide.step, if_pos hguard]
  exact ⟨_, rfl, ⟨h.tx.kernelConsume, h.cq, h.comp_eq, by simp only; omega, h.burst_le⟩, rfl, rfl⟩

theorem TxSide.Ok.kernelComplete (h : s.Ok T C used unread) (hfly : 0 < s.inFlight) :
    ∃ t, s.step .kernelComplete = some t ∧ t.Ok T C used (unread + 1) ∧ t.nPkts = s.nPkts ∧
      t.inFlight = s.inFlight - 1 := by
  have hslots := h.slots
  rw [TxSide.step, if_pos hfly]
  exact ⟨_, rfl, ⟨h.tx, h.cq.kernelProduce (by omega), h.comp_eq, by simp only; omega, h.burst_le⟩,
    rfl, rfl⟩

/-! ### Calls that cannot deadlock -/

theorem TxSide.Ok.safe_iff (h : s.Ok T C used unread) : s.Safe n ↔
    used + s.inFlight < C.toNat ∨ used + s.inFlight + n ≤ T.toNat + C.toNat := by
  rw [TxSide.Safe, TxSide.outstanding, h.tx.pending_eq, h.tx.1, h.cq.1]

theorem TxSide.Ok.deadlocked_iff (h : s.Ok T C used unread) : s.Deadlocked ↔
    ∃ n, s.nPkts = some n ∧ T.toNat < used + n ∧ unread = C.toNat := by
  rw [TxSide.Deadlocked, h.tx.pending_eq, h.cq.pending_eq, h.tx.1, h.cq.1]

/-- While a call spins, what was out when it started is in the TX ring, in flight or published;
`G` is what is known of that number and the burst. -/
def TxSide.Inv (T C : BitVec 32) (G : ℕ → ℕ → Prop) (s : TxSide) : Prop :=
  ∃ used unread, s.Ok T C used unread ∧ ∀ n, s.nPkts = some n →
    G (used + s.inFlight + unread) n

theorem TxSide.Inv.init (T C : BitVec 32) (G : ℕ → ℕ → Prop) : (TxSide.init T C).Inv T C G :=
  ⟨0, 0, .init T C, by simp [TxSide.init]⟩

theorem TxSide.Inv.step {G : ℕ → ℕ → Prop} {t : TxSide} {a : TxAct} (h : s.Inv T C G)
    (henter : ∀ n, a = .enter n → G s.outstanding n) (hstep : s.step a = some t) : t.Inv T C G := by
  obtain ⟨used, unread, hok, hcall⟩ := h
  cases a with
  | enter n =>
    have hguard : s.nPkts = none ∧ n ≤ maxBurstTx := by
      by_contra hg; rw [TxSide.step, if_neg hg] at hstep; exact absurd hstep (by simp)
    obtain ⟨u, hu, huok, hun, huf⟩ := hok.enter hguard.1 hguard.2
    rw [hstep, Option.some.injEq] at hu
    subst hu
    refine ⟨used, 0, huok, fun m hm => ?_⟩
    rw [hun, Option.some.injEq] at hm
    subst hm
    have hout := henter n rfl
    rw [TxSide.outstanding, hok.tx.pending_eq] at hout
    rwa [huf, Nat.add_zero]
  | reserve =>
    cases hs : s.nPkts with
    | none => simp [TxSide.step, hs] at hstep
    | some n =>
      obtain ⟨u, hu, huf, hcase⟩ := hok.reserve hs
      rw [hstep, Option.some.injEq] at hu
      subst hu
      by_cases hroom : used + n ≤ T.toNat
      · rw [if_pos hroom] at hcase
        exact ⟨used + n, unread, hcase.1, by rw [hcase.2]; simp⟩
      · rw [if_neg hroom] at hcase
        refine ⟨used, unread, hcase.1, fun m hm => ?_⟩
        rw [hcase.2, Option.some.injEq] at hm
        subst hm
        rw [huf]
        exact hcall n hs
  | kernelTake =>
    have hguard : 0 < s.txq.pending ∧ s.umemCq.pending + s.inFlight < s.umemCq.size.toNat := by
      by_contra hg; rw [TxSide.step, if_neg hg] at hstep; exact absurd hstep (by simp)
    rw [hok.tx.pending_eq, hok.cq.pending_eq, hok.cq.1] at hguard
    obtain ⟨used, rfl⟩ : ∃ u, used = u + 1 := ⟨used - 1, by omega⟩
    obtain ⟨u, hu, huok, hun, huf⟩ := hok.kernelTake (by omega)
    rw [hstep, Option.some.injEq] at hu
    subst hu
    refine ⟨used, unread, huok, fun m hm => ?_⟩
    have hsum : used + t.inFlight + unread = used + 1 + s.inFlight + unread := by omega
    rw [hsum]
    exact hcall m (hun ▸ hm)
  | kernelComplete =>
    have hguard : 0 < s.inFlight := by
      by_contra hg; rw [TxSide.step, if_neg hg] at hstep; exact absurd hstep (by simp)
    obtain ⟨u, hu, huok, hun, huf⟩ := hok.kernelComplete hguard
    rw [hstep, Option.some.injEq] at hu
    subst hu
    refine ⟨used, unread + 1, huok, fun m hm => ?_⟩
    have hsum : used + t.inFlight + (unread + 1) = used + s.inFlight + unread := by omega
    rw [hsum]
    exact hcall m (hun ▸ hm)

/-- The condition on the steps of a run: every call starts safe. -/
def TxSide.SafeStep (s : TxSide) (a : TxAct) : Prop := ∀ n, a = .enter n → s.Safe n

theorem TxSide.Inv.not_deadlocked
    (h : s.Inv T C fun out n => out < C.toNat ∨ out + n ≤ T.toNat + C.toNat) :
    ¬ s.Deadlocked := by
  obtain ⟨used, unread, hok, hcall⟩ := h
  rw [hok.deadlocked_iff]
  rintro ⟨n, hn, hroom, hfull⟩
  have := hcall n hn
  omega

/-- A deadlocked state is stuck: the kernel has no move and the call goes on spinning. -/
theorem TxSide.Ok.stuck (h : s.Ok T C used unread) (hd : s.Deadlocked) :
    s.step .kernelTake = none ∧ s.step .kernelComplete = none ∧
      ∃ t, s.step .reserve = some t ∧ t.Deadlocked := by
  obtain ⟨n, hn, hroom, hfull⟩ := h.deadlocked_iff.1 hd
  have hslots := h.slots
  refine ⟨?_, ?_, ?_⟩
  · rw [TxSide.step, if_neg]
    rw [h.tx.pending_eq, h.cq.pending_eq, h.cq.1]
    omega
  · rw [TxSide.step, if_neg (by omega)]
  · obtain ⟨t, ht, -, hcase⟩ := h.reserve hn
    rw [if_neg (by omega)] at hcase
    exact ⟨t, ht, hcase.1.deadlocked_iff.2 ⟨n, hcase.2, hroom, hfull⟩⟩

/-! ### Calls that can deadlock -/

theorem TxSide.Ok.takes {k : ℕ} (h : s.Ok T C (used + k) unread)
    (hslot : s.inFlight + unread + k ≤ C.toNat) :
    ∃ t, run TxSide.step s (List.replicate k .kernelTake) = some t ∧ t.Ok T C used unread ∧
      t.nPkts = s.nPkts ∧ t.inFlight = s.inFlight + k := by
  induction k generalizing s with
  | zero => exact ⟨s, rfl, h, rfl, rfl⟩
  | succ k ih =>
    have h' : s.Ok T C (used + k + 1) unread := h
    obtain ⟨t, ht, hok, hn, hf⟩ := h'.kernelTake (by omega)
    obtain ⟨u, hu, huok, hun, huf⟩ := ih hok (by omega)
    refine ⟨u, ?_, huok, hun.trans hn, by omega⟩
    rw [List.replicate_succ, run_cons_of_step ht, hu]

theorem TxSide.Ok.completes {k : ℕ} (h : s.Ok T C used unread) (hk : k ≤ s.inFlight) :
    ∃ t, run TxSide.step s (List.replicate k .kernelComplete) = some t ∧
      t.Ok T C used (unread + k) ∧ t.nPkts = s.nPkts ∧ t.inFlight = s.inFlight - k := by
  induction k generalizing s unread with
  | zero => exact ⟨s, rfl, h, rfl, rfl⟩
  | succ k ih =>
    obtain ⟨t, ht, hok, hn, hf⟩ := h.kernelComplete (by omega)
    obtain ⟨u, hu, huok, hun, huf⟩ := ih hok (by omega)
    refine ⟨u, ?_, ?_, hun.trans hn, by omega⟩
    · rw [List.replicate_succ, run_cons_of_step ht, hu]
    · rwa [Nat.add_assoc, Nat.add_comm 1] at huok

/-- The kernel takes what it has slots for and then completes everything: a call that is not safe
never leaves its loop under this schedule. -/
theorem TxSide.Ok.deadlock_of_not_safe (h : s.Ok T C used unread) (hs : s.nPkts = none)
    (hn : n ≤ maxBurstTx) (hsafe : ¬ s.Safe n) :
    ∃ as t, run TxSide.step s (.enter n :: as) = some t ∧ t.Deadlocked := by
  rw [h.safe_iff] at hsafe
  have hslots := h.slots
  have hused := h.tx.le_size
  obtain ⟨t₁, ht₁, hok₁, hn₁, hf₁⟩ := h.enter hs hn
  obtain ⟨u, hu⟩ : ∃ u, used = u + (C.toNat - s.inFlight) :=
    ⟨used - (C.toNat - s.inFlight), by omega⟩
  rw [hu] at hok₁
  obtain ⟨t₂, ht₂, hok₂, hn₂, hf₂⟩ := hok₁.takes (by omega)
  obtain ⟨t₃, ht₃, hok₃, hn₃, -⟩ := hok₂.completes (k := C.toNat) (by omega)
  refine ⟨List.replicate (C.toNat - s.inFlight) .kernelTake ++
    List.replicate C.toNat .kernelComplete, t₃, ?_, ?_⟩
  · rw [run_cons_of_step ht₁, run_append_of_eq ht₂, ht₃]
  · exact hok₃.deadlocked_iff.2 ⟨n, by rw [hn₃, hn₂, hn₁], by omega, by omega⟩

/-! ### Runs -/

theorem exists_ok_of_run {as : List TxAct} (h : run TxSide.step (.init T C) as = some s) :
    ∃ used unread, s.Ok T C used unread := by
  obtain ⟨used, unread, hok, -⟩ := run_invariant (TxSide.Inv T C fun _ _ => True)
    (fun _ _ _ hu hstep => hu.step (fun _ _ => trivial) hstep) (.init T C _) h
  exact ⟨used, unread, hok⟩

/-- **Runs of safe calls never deadlock, whatever the kernel does, and every call that is not safe
can be deadlocked by the kernel.** -/
theorem tx_deadlock_iff_not_safe (T C : BitVec 32) :
    (∀ as s, run TxSide.step (.init T C) as = some s →
      Along TxSide.step TxSide.SafeStep (.init T C) as → ¬ s.Deadlocked) ∧
    ∀ as s n, run TxSide.step (.init T C) as = some s → s.nPkts = none → n ≤ maxBurstTx →
      ¬ s.Safe n → ∃ bs t, run TxSide.step s (.enter n :: bs) = some t ∧ t.Deadlocked := by
  constructor
  · intro as s hrun hsafe
    refine TxSide.Inv.not_deadlocked (T := T) (C := C) ?_
    refine run_invariant_along _ (fun u a v hu hC hstep => ?_) (.init T C _) hsafe hrun
    refine hu.step (fun n hn => ?_) hstep
    obtain ⟨used, unread, hok, -⟩ := hu
    have hs := hok.safe_iff.1 (hC n hn)
    rwa [TxSide.outstanding, hok.tx.pending_eq]
  · intro as s n hrun hs hn hsafe
    obtain ⟨used, unread, hok⟩ := exists_ok_of_run hrun
    exact hok.deadlock_of_not_safe hs hn hsafe

/-- Both halves on rings of one entry: one frame sent and completed, and three bursts of one frame
of which the kernel takes the first. -/
theorem tx_deadlock_iff_not_safe_one :
    (∃ s, run TxSide.step (.init 1#32 1#32) [.enter 1, .reserve, .kernelTake, .kernelComplete]
      = some s ∧ ¬ s.Deadlocked) ∧
    ∃ s, run TxSide.step (.init 1#32 1#32) [.enter 1, .reserve, .kernelTake, .enter 1, .reserve]
      = some s ∧ ∃ bs t, run TxSide.step s (.enter 1 :: bs) = some t ∧ t.Deadlocked := by
  refine ⟨⟨_, rfl, (tx_deadlock_iff_not_safe 1#32 1#32).1
      [.enter 1, .reserve, .kernelTake, .kernelComplete] _ rfl ?_⟩,
    ⟨_, rfl, (tx_deadlock_iff_not_safe 1#32 1#32).2
      [.enter 1, .reserve, .kernelTake, .enter 1, .reserve] _ 1 rfl rfl (by decide) ?_⟩⟩
  · refine ⟨?_, fun t ht => ⟨by rintro n ⟨⟩, fun u hu => ⟨by rintro n ⟨⟩, fun v hv =>
      ⟨by rintro n ⟨⟩, fun w hw => trivial⟩⟩⟩⟩
    rintro n ⟨⟩
    exact .inl (by decide)
  · unfold TxSide.Safe
    decide

/-! ### The shipped sizes -/

/-- A burst of one frame goes out when the TX ring has room. -/
theorem TxSide.Ok.send (h : s.Ok T C used unread) (hs : s.nPkts = none)
    (hroom : used + 1 ≤ T.toNat) :
    ∃ t, run TxSide.step s [.enter 1, .reserve] = some t ∧ t.Ok T C (used + 1) 0 ∧
      t.nPkts = none ∧ t.inFlight = s.inFlight := by
  obtain ⟨t, ht, hok, hn, hf⟩ := h.enter hs (n := 1) (by decide)
  obtain ⟨u, hu, huf, hcase⟩ := hok.reserve hn
  rw [if_pos hroom] at hcase
  exact ⟨u, by rw [run_cons_of_step ht, run_singleton, hu], hcase.1, hcase.2, huf.trans hf⟩

/-- The kernel takes every frame and completes none, up to the size of the completion ring. -/
theorem reach_inFlight (hT : 1 ≤ T.toNat) {k : ℕ} (hk : k ≤ C.toNat) :
    ∃ s, Reaches TxSide.step (.init T C) s ∧ s.Ok T C 0 0 ∧ s.nPkts = none ∧ s.inFlight = k := by
  induction k with
  | zero => exact ⟨_, .refl _, .init T C, rfl, rfl⟩
  | succ k ih =>
    obtain ⟨s, hreach, hok, hn, hf⟩ := ih (by omega)
    obtain ⟨t, ht, htok, htn, htf⟩ := hok.send hn (by omega)
    have htok' : t.Ok T C (0 + 1) 0 := htok
    obtain ⟨u, hu, huok, hun, huf⟩ := htok'.kernelTake (by omega)
    exact ⟨u, (hreach.trans ⟨_, ht⟩).tail hu, huok, hun.trans htn, by omega⟩

/-- From there the TX ring fills up. -/
theorem reach_full (hT : 1 ≤ T.toNat) {m : ℕ} (hm : m ≤ T.toNat) :
    ∃ s, Reaches TxSide.step (.init T C) s ∧ s.Ok T C m 0 ∧ s.nPkts = none ∧
      s.inFlight = C.toNat := by
  induction m with
  | zero => exact reach_inFlight hT (Nat.le_refl _)
  | succ m ih =>
    obtain ⟨s, hreach, hok, hn, hf⟩ := ih (by omega)
    obtain ⟨t, ht, htok, htn, htf⟩ := hok.send hn hm
    exact ⟨t, hreach.trans ⟨_, ht⟩, htok, htn, htf.trans hf⟩

/-- With rings of 2048 entries each, as shipped, a deadlocked state is reachable. -/
theorem tx_deadlock_reachable :
    ∃ as s, run TxSide.step (.init 2048#32 2048#32) as = some s ∧ s.Deadlocked := by
  obtain ⟨s, hreach, hok, hn, hf⟩ :=
    reach_full (T := 2048#32) (C := 2048#32) (by decide) (Nat.le_refl _)
  have hsafe : ¬ s.Safe 1 := by
    rw [hok.safe_iff, hf]
    decide
  obtain ⟨as, t, hrun, hdead⟩ := hok.deadlock_of_not_safe hn (by decide) hsafe
  obtain ⟨bs, hbs⟩ := hreach
  exact ⟨bs ++ (.enter 1 :: as), t, by rw [run_append_of_eq hbs, hrun], hdead⟩

end RotorXdp
