import RotorXdp.Lib.Run
import RotorXdp.Lib.Recorder
import RotorXdp.Node

/-!
# The telemetry arrays

With `DEBUG` on, each round of the loop that a NIC TX thread runs on a local queue, and of the loop
of a veth TX thread, is recorded under a counter that all threads of the kind share, and `read_time`
records the slot changes. No index is compared with the length of an array.

* `Telemetry.exec`: the recording code, statement by statement, with the entries it writes;
* `LongEnough`: the traffic that the arrays have room for;
* `telemetry_in_bounds`: such traffic stays inside;
* `seq_overrun`: the traffic that does not.
-/

namespace RotorXdp

open Runs Recorders

/-- The arrays of `structures.h` that the recording code writes. -/
inductive TelArray
  | localBuff
  | localQNum
  | buffTime
  | seq
  | srcPort
  | vethBuff
  | vethBuffTime
  | topoCurr
  | topoChangeTime
  deriving DecidableEq

def TelArray.length : TelArray → ℕ
  | .localBuff | .localQNum | .buffTime | .seq | .srcPort | .vethBuff | .vethBuffTime => 30000000
  | .topoCurr | .topoChangeTime => 20000000

/-- The arrays that a round of the local loop of `thread_func_veth_to_nic_tx` writes, in order. -/
def localArrays : List TelArray := [.localBuff, .localQNum, .buffTime]

/-- The arrays that a round of `thread_func_nic_to_veth_tx` writes. -/
def vethArrays : List TelArray := [.vethBuff, .vethBuffTime]

/-- The counters, for `n` NIC TX threads and `v` veth TX threads. -/
structure Telemetry (n v : ℕ) where
  /-- `local_buff_track` and the threads that use it -/
  localBuff : Recorder (Fin n)
  /-- `veth_buff_track` and the threads that use it -/
  vethBuff : Recorder (Fin v)
  topoTrackIndex : ℕ
  prevTopo : ℕ

def Telemetry.init (n v : ℕ) : Telemetry n v := ⟨.init, .init, 0, 0⟩

inductive TelAct (n v : ℕ)
  /-- a statement of the local loop; it ends a round when the pull failed or the frame is not TCP -/
  | nicTx (a : Act (Fin n))
  /-- the pull got a TCP frame, which `encap_veth` records under `debug_index`, the counter as it is
  after the increment -/
  | encapTcp (i : Fin n)
  | vethTx (a : Act (Fin v))
  | readTime (sec nsec : ℤ)

variable {n v : ℕ}

/-- One step, with the array entries that it writes. -/
def Telemetry.exec (s : Telemetry n v) : TelAct n v → Option (List (TelArray × ℕ) × Telemetry n v)
  | .nicTx a => (s.localBuff.exec localArrays a).map fun (ws, r) => (ws, { s with localBuff := r })
  | .encapTcp i =>
    let debugIndex := s.localBuff.index
    (s.localBuff.exec localArrays (.leave i)).map fun (ws, r) =>
      ((.seq, debugIndex) :: (.srcPort, debugIndex) :: ws, { s with localBuff := r })
  | .vethTx a => (s.vethBuff.exec vethArrays a).map fun (ws, r) => (ws, { s with vethBuff := r })
  | .readTime sec nsec =>
    let topo := RotorXdp.readTime sec nsec
    if s.prevTopo ≠ topo then
      some ([(.topoCurr, s.topoTrackIndex), (.topoChangeTime, s.topoTrackIndex)],
        { s with prevTopo := topo, topoTrackIndex := s.topoTrackIndex + 1 })
    else some ([], s)

def Telemetry.step (s : Telemetry n v) (a : TelAct n v) : Option (Telemetry n v) :=
  (s.exec a).map Prod.snd

/-! ### The traffic of a run -/

def TelAct.localRound : TelAct n v → ℕ
  | .nicTx a => if a.isEnter then 1 else 0
  | _ => 0

def TelAct.vethRound : TelAct n v → ℕ
  | .vethTx a => if a.isEnter then 1 else 0
  | _ => 0

/-- Rounds of the local loops, over all NIC TX threads. -/
def localRounds (as : List (TelAct n v)) : ℕ := (as.map TelAct.localRound).sum

/-- Rounds of the veth TX threads. -/
def vethRounds (as : List (TelAct n v)) : ℕ := (as.map TelAct.vethRound).sum

/-- Slot changes seen by `read_time`, the slot being `prev` at first. -/
def slotChanges (prev : ℕ) : List (TelAct n v) → ℕ
  | [] => 0
  | .readTime sec nsec :: as =>
    let topo := RotorXdp.readTime sec nsec
    if prev ≠ topo then 1 + slotChanges topo as else slotChanges prev as
  | _ :: as => slotChanges prev as

/-- The step `a` after the steps `as` records no more than the arrays hold: a TCP frame is recorded
one entry further on than its round. -/
structure LongEnough (as : List (TelAct n v)) (a : TelAct n v) : Prop where
  rounds : localRounds (as ++ [a]) ≤ 30000000
  tcp : ∀ i, a = .encapTcp i → localRounds as < 30000000
  veth : vethRounds (as ++ [a]) ≤ 30000000
  topo : slotChanges 0 (as ++ [a]) ≤ 20000000

/-! ### The counters over a run -/

variable {s t u : Telemetry n v} {a : TelAct n v} {as : List (TelAct n v)}
  {ws : List (TelArray × ℕ)} {p : ℕ}

theorem Telemetry.step_eq_some : s.step a = some t ↔ ∃ ws, s.exec a = some (ws, t) := by
  unfold Telemetry.step
  rw [Option.map_eq_some_iff]
  constructor
  · rintro ⟨⟨ws, t'⟩, h, rfl⟩
    exact ⟨ws, h⟩
  · rintro ⟨ws, h⟩
    exact ⟨(ws, t), h, rfl⟩

/-- What one step does, by the code that takes it. -/
theorem Telemetry.exec_cases (hexec : s.exec a = some (ws, t)) :
    (∃ b r, a = .nicTx b ∧ s.localBuff.exec localArrays b = some (ws, r) ∧
      t = { s with localBuff := r }) ∨
    (∃ i ws' r, a = .encapTcp i ∧ s.localBuff.exec localArrays (.leave i) = some (ws', r) ∧
      ws = (.seq, s.localBuff.index) :: (.srcPort, s.localBuff.index) :: ws' ∧
      t = { s with localBuff := r }) ∨
    (∃ b r, a = .vethTx b ∧ s.vethBuff.exec vethArrays b = some (ws, r) ∧
      t = { s with vethBuff := r }) ∨
    (∃ sec nsec, a = .readTime sec nsec ∧ s.prevTopo ≠ RotorXdp.readTime sec nsec ∧
      ws = [(.topoCurr, s.topoTrackIndex), (.topoChangeTime, s.topoTrackIndex)] ∧
      t = { s with
        prevTopo := RotorXdp.readTime sec nsec
        topoTrackIndex := s.topoTrackIndex + 1 }) ∨
    ∃ sec nsec, a = .readTime sec nsec ∧ s.prevTopo = RotorXdp.readTime sec nsec ∧ ws = [] ∧
      t = s := by
  cases a with
  | nicTx b =>
    obtain ⟨⟨ws', r⟩, hr, heq⟩ := Option.map_eq_some_iff.1 hexec
    cases heq
    exact .inl ⟨b, r, rfl, hr, rfl⟩
  | encapTcp i =>
    obtain ⟨⟨ws', r⟩, hr, heq⟩ := Option.map_eq_some_iff.1 hexec
    cases heq
    exact .inr (.inl ⟨i, ws', r, rfl, hr, rfl, rfl⟩)
  | vethTx b =>
    obtain ⟨⟨ws', r⟩, hr, heq⟩ := Option.map_eq_some_iff.1 hexec
    cases heq
    exact .inr (.inr (.inl ⟨b, r, rfl, hr, rfl⟩))
  | readTime sec nsec =>
    -- a round of the main loop that sees the same slot records nothing
    rw [Telemetry.exec] at hexec
    by_cases htopo : s.prevTopo ≠ RotorXdp.readTime sec nsec
    · simp only [if_pos htopo] at hexec
      cases hexec
      exact .inr (.inr (.inr (.inl ⟨sec, nsec, rfl, htopo, rfl, rfl⟩)))
    · simp only [if_neg htopo] at hexec
      cases hexec
      exact .inr (.inr (.inr (.inr ⟨sec, nsec, rfl, not_not.1 htopo, rfl, rfl⟩)))

theorem localBound_step (h : s.localBuff.Bound p) (hexec : s.exec a = some (ws, t)) :
    t.localBuff.Bound (p + a.localRound) := by
  rcases Telemetry.exec_cases hexec with ⟨b, r, rfl, hr, rfl⟩ | ⟨i, ws', r, rfl, hr, -, rfl⟩ |
    ⟨b, r, rfl, -, rfl⟩ | ⟨sec, nsec, rfl, -, -, rfl⟩ | ⟨sec, nsec, rfl, -, -, rfl⟩
  · exact h.exec hr
  · exact h.exec hr
  · exact h
  · exact h
  · exact h

theorem vethBound_step (h : s.vethBuff.Bound p) (hexec : s.exec a = some (ws, t)) :
    t.vethBuff.Bound (p + a.vethRound) := by
  rcases Telemetry.exec_cases hexec with ⟨b, r, rfl, -, rfl⟩ | ⟨i, ws', r, rfl, -, -, rfl⟩ |
    ⟨b, r, rfl, hr, rfl⟩ | ⟨sec, nsec, rfl, -, -, rfl⟩ | ⟨sec, nsec, rfl, -, -, rfl⟩
  · exact h
  · exact h
  · exact h.exec hr
  · exact h
  · exact h

/-- The slot changes still to come are counted from the counter as it is. -/
theorem slotChanges_step (hexec : s.exec a = some (ws, t)) (as : List (TelAct n v)) :
    s.topoTrackIndex + slotChanges s.prevTopo (a :: as) =
      t.topoTrackIndex + slotChanges t.prevTopo as := by
  rcases Telemetry.exec_cases hexec with ⟨b, r, rfl, -, rfl⟩ | ⟨i, ws', r, rfl, -, -, rfl⟩ |
    ⟨b, r, rfl, -, rfl⟩ | ⟨sec, nsec, rfl, htopo, -, rfl⟩ | ⟨sec, nsec, rfl, htopo, -, rfl⟩
  · rfl
  · rfl
  · rfl
  · simp only [slotChanges, if_pos htopo]
    rw [Nat.add_assoc]
  · simp only [slotChanges, if_neg (not_not.2 htopo)]

theorem localBound_run (h : s.localBuff.Bound p) (hrun : run Telemetry.step s as = some t) :
    t.localBuff.Bound (p + localRounds as) := by
  apply run_invariant_cost (fun p s => s.localBuff.Bound p) TelAct.localRound _ h hrun
  intro p s a t h hstep
  obtain ⟨ws, hexec⟩ := Telemetry.step_eq_some.1 hstep
  exact localBound_step h hexec

theorem vethBound_run (h : s.vethBuff.Bound p) (hrun : run Telemetry.step s as = some t) :
    t.vethBuff.Bound (p + vethRounds as) := by
  apply run_invariant_cost (fun p s => s.vethBuff.Bound p) TelAct.vethRound _ h hrun
  intro p s a t h hstep
  obtain ⟨ws, hexec⟩ := Telemetry.step_eq_some.1 hstep
  exact vethBound_step h hexec

theorem slotChanges_run (hrun : run Telemetry.step s as = some t) (bs : List (TelAct n v)) :
    s.topoTrackIndex + slotChanges s.prevTopo (as ++ bs) =
      t.topoTrackIndex + slotChanges t.prevTopo bs := by
  induction as generalizing s with
  | nil => cases hrun; rfl
  | cons b as ih =>
    obtain ⟨u, hu, hrest⟩ := run_cons_eq_some.1 hrun
    obtain ⟨ws, hexec⟩ := Telemetry.step_eq_some.1 hu
    rw [List.cons_append, slotChanges_step hexec, ih hrest]

theorem localRounds_concat (as : List (TelAct n v)) (a : TelAct n v) :
    localRounds (as ++ [a]) = localRounds as + a.localRound := by
  simp [localRounds]

theorem vethRounds_concat (as : List (TelAct n v)) (a : TelAct n v) :
    vethRounds (as ++ [a]) = vethRounds as + a.vethRound := by
  simp [vethRounds]

theorem length_localArrays {b : TelArray} (h : b ∈ localArrays) : b.length = 30000000 := by
  revert h b
  decide

theorem length_vethArrays {b : TelArray} (h : b ∈ vethArrays) : b.length = 30000000 := by
  revert h b
  decide

/-- **The recording code stays inside the arrays** as long as there are at most 30000000 rounds of
either loop, no TCP frame in the last of them, and at most 20000000 slot changes. -/
theorem telemetry_in_bounds (hrun : run Telemetry.step (Telemetry.init n v) as = some s)
    (hlong : LongEnough as a) (hexec : s.exec a = some (ws, t)) :
    ∀ w ∈ ws, w.2 < w.1.length := by
  -- the counters are bounded by the rounds and the slot changes so far
  have hlocal := localBound_run Recorder.Bound.init hrun
  have hveth := vethBound_run Recorder.Bound.init hrun
  have htopo := slotChanges_run hrun [a]
  rw [Nat.zero_add] at hlocal hveth
  have hrounds := hlong.rounds
  have hvrounds := hlong.veth
  have hchanges := hlong.topo
  rw [localRounds_concat] at hrounds
  rw [vethRounds_concat] at hvrounds
  intro w hw
  rcases Telemetry.exec_cases hexec with ⟨b, r, rfl, hr, -⟩ | ⟨i, ws', r, rfl, hr, rfl, -⟩ |
    ⟨b, r, rfl, hr, -⟩ | ⟨sec, nsec, rfl, -, rfl, rfl⟩ | ⟨sec, nsec, rfl, -, rfl, -⟩
  · obtain ⟨hmem, hlt⟩ := hlocal.writes_lt hr hw
    rw [length_localArrays hmem]
    omega
  · -- `debug_index` is the counter after its increment, one further than the round
    have htcp := hlong.tcp i rfl
    have hindex := hlocal.index_le
    rcases List.mem_cons.1 hw with rfl | hw
    · show s.localBuff.index < 30000000
      omega
    · rcases List.mem_cons.1 hw with rfl | hw
      · show s.localBuff.index < 30000000
        omega
      · obtain ⟨hmem, hlt⟩ := hlocal.writes_lt hr hw
        rw [length_localArrays hmem]
        omega
  · obtain ⟨hmem, hlt⟩ := hveth.writes_lt hr hw
    rw [length_vethArrays hmem]
    omega
  · -- this change is one of those counted
    have hstep := slotChanges_step hexec []
    have hlt : s.topoTrackIndex < 20000000 := by
      simp only [Telemetry.init, slotChanges, Nat.add_zero] at htopo hstep hchanges
      omega
    rcases List.mem_cons.1 hw with rfl | hw
    · exact hlt
    · obtain rfl := List.mem_singleton.1 hw
      exact hlt
  · exact absurd hw List.not_mem_nil

/-- The first write of the first round. -/
theorem telemetry_in_bounds_first : ∃ s t ws,
    run Telemetry.step (Telemetry.init 1 1) [.nicTx (.enter 0)] = some s ∧
    LongEnough [TelAct.nicTx (.enter 0)] (.nicTx (.next 0) : TelAct 1 1) ∧
    s.exec (.nicTx (.next 0)) = some (ws, t) ∧ ∀ w ∈ ws, w.2 < w.1.length := by
  have hlong : LongEnough [TelAct.nicTx (.enter 0)] (.nicTx (.next 0) : TelAct 1 1) :=
    ⟨by decide, by simp, by decide, by decide⟩
  refine ⟨_, _, _, rfl, hlong, rfl, ?_⟩
  exact telemetry_in_bounds (rfl : run Telemetry.step (Telemetry.init 1 1) _ = _) hlong rfl

/-! ### One round after the other -/

/-- The statements of a round of thread `i` up to the increment. -/
def recordRound (i : Fin n) : List (TelAct n v) :=
  .nicTx (.enter i) :: List.replicate 5 (.nicTx (.next i))

theorem localRounds_append (as bs : List (TelAct n v)) :
    localRounds (as ++ bs) = localRounds as + localRounds bs := by
  simp [localRounds]

theorem run_recordRound {i : Fin n} (hi : s.localBuff.pc i = .idle) :
    ∃ t, run Telemetry.step s (recordRound i) = some t ∧
      t.localBuff.index = s.localBuff.index + 1 ∧ t.localBuff.pc i = .counted := by
  simp only [recordRound, List.replicate, run, Telemetry.step, Telemetry.exec, Recorder.exec,
    Recorder.goto, hi, Function.update_self, localArrays, if_true, Option.map_some,
    Option.bind_some, List.getElem?_cons_zero, List.getElem?_cons_succ, List.getElem?_nil]
  exact ⟨_, rfl, rfl, Function.update_self ..⟩

/-- After `k` rounds of thread 0, each without a TCP frame. -/
theorem run_rounds (k : ℕ) : ∃ (as : List (TelAct 1 1)) (t : Telemetry 1 1),
    run Telemetry.step (Telemetry.init 1 1) as = some t ∧ localRounds as = k ∧
    t.localBuff.index = k ∧ t.localBuff.pc 0 = .idle := by
  induction k with
  | zero => exact ⟨[], _, rfl, rfl, rfl, rfl⟩
  | succ k ih =>
    obtain ⟨as, t, hrun, hrounds, hindex, hidle⟩ := ih
    obtain ⟨u, hround, hindex', hcounted⟩ := run_recordRound hidle
    refine ⟨as ++ (recordRound 0 ++ [.nicTx (.leave 0)]),
      { u with localBuff := u.localBuff.goto (0 : Fin 1) .idle }, ?_, ?_, ?_, ?_⟩
    · rw [run_append_of_eq hrun, run_append_of_eq hround, run_singleton]
      simp only [Telemetry.step, Telemetry.exec, Recorder.exec, hcounted, if_true, Option.map_some]
    · rw [localRounds_append, localRounds_append, hrounds]
      rfl
    · show u.localBuff.index = k + 1
      rw [hindex', hindex]
    · exact Function.update_self (0 : Fin 1) .idle u.localBuff.pc

/-- After 29999999 rounds, one more round whose frame is TCP: the round itself is recorded in the
last entry, the frame is recorded behind it. -/
theorem seq_overrun : ∃ (as : List (TelAct 1 1)) (s t : Telemetry 1 1) (ws : List (TelArray × ℕ)),
    run Telemetry.step (Telemetry.init 1 1) as = some s ∧ localRounds as = 30000000 ∧
    s.exec (.encapTcp 0) = some (ws, t) ∧ (.seq, 30000000) ∈ ws ∧
    ¬ 30000000 < TelArray.seq.length := by
  obtain ⟨as, s, hrun, hrounds, hindex, hidle⟩ := run_rounds 29999999
  obtain ⟨u, hround, hindex', hcounted⟩ := run_recordRound hidle
  refine ⟨as ++ recordRound 0, u, { u with localBuff := u.localBuff.goto (0 : Fin 1) .idle },
    [(.seq, u.localBuff.index), (.srcPort, u.localBuff.index)], ?_, ?_, ?_, ?_, ?_⟩
  · rw [run_append_of_eq hrun, hround]
  · rw [localRounds_append, hrounds]
    rfl
  · simp only [Telemetry.exec, Recorder.exec, hcounted, if_true, Option.map_some]
  · rw [hindex', hindex]
    exact List.mem_cons_self
  · exact Nat.lt_irrefl _

end RotorXdp
