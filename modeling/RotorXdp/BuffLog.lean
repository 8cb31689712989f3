import RotorXdp.Telemetry

/-!
# The buffer-occupancy log

The rows of `/tmp/local_buff_occupancy.csv`, with the values of the columns. The loop on a local
queue writes `local_buff`, `local_q_num` and `buff_time` at `local_buff_track`, increments it and
pulls; `encap_veth` writes `seq` and `src_port` at the counter it is handed, the one after the
increment. There is one NIC TX thread. Each entry remembers the round for whose packet it was
written.

* `BuffLog.step`: the recording code, statement by statement;
* `BuffLog.matches_run`: it is the code of `Telemetry` with one NIC TX thread;
* `row_final`: a row below the counter never changes, so it does not matter when `main` prints it;
* `BuffLog.Shifted`: the frame of a round is recorded in the row of the next one;
* `described_iff`: the runs in which every row describes one packet.
-/

namespace RotorXdp

open Bytes Function Runs Recorders

/-- The TCP header behind an IP header without options. -/
def Frame.tcpHdr (f : Frame) : ℕ := f.data + ethHlen + iphdrLen

/-- `inner_ip_hdr_tmp->protocol == IPPROTO_TCP`. -/
def Frame.isTcp (f : Frame) : Prop := ipProtocol f.umem (f.data + ethHlen) = ipprotoTcp

instance (f : Frame) : Decidable f.isTcp := inferInstanceAs (Decidable (_ = _))

/-- `ntohl(inner_tcp_hdr->seq)`. -/
def Frame.tcpSeq (f : Frame) : ℕ :=
  be16 f.umem (f.tcpHdr + 4) * 65536 + be16 f.umem (f.tcpHdr + 6)

/-- `ntohs(inner_tcp_hdr->source)`. -/
def Frame.tcpSource (f : Frame) : ℕ := be16 f.umem f.tcpHdr

/-- An entry of an array and the round for whose packet it was written, `none` in the zeroed
array. -/
structure Entry (α : Type) where
  value : α
  round : Option ℕ

/-- What a round records of the queue: `buffer_occupancy`, `w` and `now`. -/
structure BuffRound where
  occupancy : ℕ
  w : ℕ
  sec : ℤ
  nsec : ℤ

/-- The next statement of the thread. -/
inductive BuffPc
  | idle
  | localBuff (l : BuffRound)
  | localQNum (l : BuffRound)
  | buffTime (l : BuffRound)
  | increment
  | pull

structure BuffLog where
  localBuffTrack : ℕ
  localBuff : ℕ → Entry ℕ
  localQNum : ℕ → Entry ℕ
  buffTime : ℕ → Entry (ℤ × ℤ)
  seq : ℕ → Entry ℕ
  srcPort : ℕ → Entry ℕ
  pc : BuffPc
  /-- what the pulls have got so far, one entry for each round -/
  pulls : List (Option Frame)

def BuffLog.init : BuffLog where
  localBuffTrack := 0
  localBuff _ := ⟨0, none⟩
  localQNum _ := ⟨0, none⟩
  buffTime _ := ⟨(0, 0), none⟩
  seq _ := ⟨0, none⟩
  srcPort _ := ⟨0, none⟩
  pc := .idle
  pulls := []

/-- The number of the round that the thread is in. -/
def BuffLog.round (s : BuffLog) : ℕ := s.pulls.length

inductive BuffAct
  /-- the queue is not empty -/
  | enter (l : BuffRound)
  /-- the next statement -/
  | next
  /-- `mpmc_queue_pull` and, when it got a frame, `encap_veth` -/
  | pull (obj : Option Frame)

/-- An array takes a value for the packet of the round. -/
def BuffLog.entry {α : Type} (s : BuffLog) (a : ℕ → Entry α) (value : α) : ℕ → Entry α :=
  update a s.localBuffTrack ⟨value, some s.round⟩

/-- What `encap_veth` records at `debug_index`. -/
def BuffLog.encapVeth (s : BuffLog) (f : Frame) : BuffLog :=
  if f.isTcp then
    { s with seq := s.entry s.seq f.tcpSeq, srcPort := s.entry s.srcPort f.tcpSource }
  else s

/-- The round is over. -/
def BuffLog.pulled (s : BuffLog) (obj : Option Frame) : BuffLog :=
  { s with pc := .idle, pulls := s.pulls ++ [obj] }

/-- One step, as long as the arrays are long enough. -/
def BuffLog.step (s : BuffLog) (a : BuffAct) : Option BuffLog :=
  match s.pc, a with
  | .idle, .enter l => some { s with pc := .localBuff l }
  | .localBuff l, .next =>
    if s.localBuffTrack < TelArray.localBuff.length then
      some { s with localBuff := s.entry s.localBuff l.occupancy, pc := .localQNum l }
    else none
  | .localQNum l, .next =>
    if s.localBuffTrack < TelArray.localQNum.length then
      some { s with localQNum := s.entry s.localQNum l.w, pc := .buffTime l }
    else none
  | .buffTime l, .next =>
    if s.localBuffTrack < TelArray.buffTime.length then
      some { s with buffTime := s.entry s.buffTime (l.sec, l.nsec), pc := .increment }
    else none
  | .increment, .next => some { s with localBuffTrack := s.localBuffTrack + 1, pc := .pull }
  | .pull, .pull none => some (s.pulled none)
  | .pull, .pull (some f) =>
    if f.isTcp → s.localBuffTrack < TelArray.seq.length then
      some ((s.encapVeth f).pulled (some f))
    else none
  | _, _ => none

/-- Row `z` of the file. -/
structure BuffRow where
  qNum : Entry ℕ
  buffSize : Entry ℕ
  time : Entry (ℤ × ℤ)
  srcPort : Entry ℕ
  seq : Entry ℕ

def BuffLog.row (s : BuffLog) (z : ℕ) : BuffRow where
  qNum := s.localQNum z
  buffSize := s.localBuff z
  time := s.buffTime z
  srcPort := s.srcPort z
  seq := s.seq z

/-- All columns of the row were recorded for the packet of round `r`. -/
structure BuffRow.Of (row : BuffRow) (r : ℕ) : Prop where
  qNum : row.qNum.round = some r
  buffSize : row.buffSize.round = some r
  time : row.time.round = some r
  srcPort : row.srcPort.round = some r
  seq : row.seq.round = some r

/-- Round `r` pulled a TCP packet. -/
def BuffLog.TcpRound (s : BuffLog) (r : ℕ) : Prop := ∃ f, s.pulls[r]? = some (some f) ∧ f.isTcp

/-- Each row of a TCP packet describes that packet alone, and each TCP packet has exactly one. -/
structure BuffLog.Described (s : BuffLog) : Prop where
  row : ∀ z < s.localBuffTrack, ∀ r, (s.localBuff z).round = some r → s.TcpRound r → (s.row z).Of r
  packet : ∀ r, s.TcpRound r → ∃! z, z < s.localBuffTrack ∧ (s.row z).Of r

variable {s t : BuffLog} {a : BuffAct} {as : List BuffAct} {r z : ℕ} {f : Frame}

/-- What one step does, by the statement that is next. -/
theorem BuffLog.step_cases (h : s.step a = some t) :
    (∃ l, s.pc = .idle ∧ a = .enter l ∧ t = { s with pc := .localBuff l }) ∨
    (∃ l, s.pc = .localBuff l ∧ a = .next ∧
      t = { s with localBuff := s.entry s.localBuff l.occupancy, pc := .localQNum l }) ∨
    (∃ l, s.pc = .localQNum l ∧ a = .next ∧
      t = { s with localQNum := s.entry s.localQNum l.w, pc := .buffTime l }) ∨
    (∃ l, s.pc = .buffTime l ∧ a = .next ∧
      t = { s with buffTime := s.entry s.buffTime (l.sec, l.nsec), pc := .increment }) ∨
    (s.pc = .increment ∧ a = .next ∧
      t = { s with localBuffTrack := s.localBuffTrack + 1, pc := .pull }) ∨
    (s.pc = .pull ∧ a = .pull none ∧ t = s.pulled none) ∨
    ∃ f, s.pc = .pull ∧ a = .pull (some f) ∧ t = (s.encapVeth f).pulled (some f) := by
  unfold BuffLog.step at h
  split at h
  · exact .inl ⟨_, ‹_›, rfl, (Option.some.inj h).symm⟩
  · split at h
    · exact .inr (.inl ⟨_, ‹_›, rfl, (Option.some.inj h).symm⟩)
    · cases h
  · split at h
    · exact .inr (.inr (.inl ⟨_, ‹_›, rfl, (Option.some.inj h).symm⟩))
    · cases h
  · split at h
    · exact .inr (.inr (.inr (.inl ⟨_, ‹_›, rfl, (Option.some.inj h).symm⟩)))
    · cases h
  · exact .inr (.inr (.inr (.inr (.inl ⟨‹_›, rfl, (Option.some.inj h).symm⟩))))
  · exact .inr (.inr (.inr (.inr (.inr (.inl ⟨‹_›, rfl, (Option.some.inj h).symm⟩)))))
  · split at h
    · exact .inr (.inr (.inr (.inr (.inr (.inr ⟨_, ‹_›, rfl, (Option.some.inj h).symm⟩)))))
    · cases h
  · cases h

/-! ### The recording code of the node -/

/-- Where the thread is in `Telemetry`. -/
def BuffPc.toPc : BuffPc → Pc
  | .idle => .idle
  | .localBuff _ => .writing 0
  | .localQNum _ => .writing 1
  | .buffTime _ => .writing 2
  | .increment => .writing 3
  | .pull => .counted

/-- The same place of the same code. -/
structure BuffLog.Matches {v : ℕ} (s : BuffLog) (T : Telemetry 1 v) : Prop where
  index : T.localBuff.index = s.localBuffTrack
  pc : T.localBuff.pc 0 = s.pc.toPc

theorem BuffLog.matches_init (v : ℕ) : BuffLog.init.Matches (Telemetry.init 1 v) := ⟨rfl, rfl⟩

/-- A step that leaves the counter alone is matched by a move of the thread. -/
theorem BuffLog.Matches.moves {v : ℕ} {T : Telemetry 1 v} (hm : s.Matches T)
    (htrack : t.localBuffTrack = s.localBuffTrack) {b : TelAct 1 v}
    (hstep : Telemetry.step T b = some { T with localBuff := T.localBuff.goto 0 t.pc.toPc }) :
    ∃ bs T', run Telemetry.step T bs = some T' ∧ t.Matches T' :=
  ⟨[b], _, (run_singleton ..).trans hstep, hm.index.trans htrack.symm, Recorder.goto_pc_self ..⟩

/-- A statement is one step of `Telemetry`, the increment a load and a store. -/
theorem BuffLog.Matches.step {v : ℕ} {T : Telemetry 1 v} (hm : s.Matches T)
    (h : s.step a = some t) : ∃ bs T', run Telemetry.step T bs = some T' ∧ t.Matches T' := by
  have hpc := hm.pc
  rcases BuffLog.step_cases h with ⟨l, hs, -, rfl⟩ | ⟨l, hs, -, rfl⟩ | ⟨l, hs, -, rfl⟩ |
    ⟨l, hs, -, rfl⟩ | ⟨hs, -, rfl⟩ | ⟨hs, -, rfl⟩ | ⟨f, hs, -, rfl⟩ <;> rw [hs] at hpc
  · refine hm.moves (b := .nicTx (.enter 0)) rfl ?_
    simp only [Telemetry.step, Telemetry.exec, Recorder.exec, hpc, BuffPc.toPc, if_true,
      Option.map_some]
  · refine hm.moves (b := .nicTx (.next 0)) rfl ?_
    simp only [Telemetry.step, Telemetry.exec, Recorder.exec, hpc, BuffPc.toPc, localArrays,
      List.getElem?_cons_zero, Option.map_some]
  · refine hm.moves (b := .nicTx (.next 0)) rfl ?_
    simp only [Telemetry.step, Telemetry.exec, Recorder.exec, hpc, BuffPc.toPc, localArrays,
      List.getElem?_cons_succ, List.getElem?_cons_zero, Option.map_some]
  · refine hm.moves (b := .nicTx (.next 0)) rfl ?_
    simp only [Telemetry.step, Telemetry.exec, Recorder.exec, hpc, BuffPc.toPc, localArrays,
      List.getElem?_cons_succ, List.getElem?_cons_zero, Option.map_some]
  · let R := T.localBuff.goto (0 : Fin 1) (.loaded T.localBuff.index)
    have hload : Telemetry.step T (.nicTx (.next 0)) = some { T with localBuff := R } := by
      simp only [Telemetry.step, Telemetry.exec, Recorder.exec, hpc, BuffPc.toPc, localArrays,
        List.getElem?_cons_succ, List.getElem?_nil, Option.map_some, R]
    have hstore : Telemetry.step { T with localBuff := R } (.nicTx (.next 0)) =
        some { T with localBuff := { R.goto (0 : Fin 1) .counted with
          index := T.localBuff.index + 1 } } := by
      simp only [Telemetry.step, Telemetry.exec, Recorder.exec, R, Recorder.goto, update_self,
        Option.map_some]
    refine ⟨[.nicTx (.next 0), .nicTx (.next 0)], _,
      (run_cons_of_step hload _).trans ((run_singleton ..).trans hstore), ?_,
      R.goto_pc_self 0 .counted⟩
    show T.localBuff.index + 1 = s.localBuffTrack + 1
    rw [hm.index]
  · refine hm.moves (b := .nicTx (.leave 0)) rfl ?_
    simp only [Telemetry.step, Telemetry.exec, Recorder.exec, hpc, BuffPc.toPc, if_true,
      Option.map_some, BuffLog.pulled]
  · have hidle : ((s.encapVeth f).pulled (some f)).localBuffTrack = s.localBuffTrack := by
      simp only [BuffLog.encapVeth]
      split <;> rfl
    by_cases htcp : f.isTcp
    · refine hm.moves (b := .encapTcp 0) hidle ?_
      simp only [Telemetry.step, Telemetry.exec, Recorder.exec, hpc, BuffPc.toPc, if_true,
        Option.map_some, BuffLog.pulled]
    · refine hm.moves (b := .nicTx (.leave 0)) hidle ?_
      simp only [Telemetry.step, Telemetry.exec, Recorder.exec, hpc, BuffPc.toPc, if_true,
        Option.map_some, BuffLog.pulled]

/-- Every run is one of `Telemetry`. -/
theorem BuffLog.matches_run {v : ℕ} {T : Telemetry 1 v} (hm : s.Matches T)
    (h : run BuffLog.step s as = some t) :
    ∃ bs T', run Telemetry.step T bs = some T' ∧ t.Matches T' := by
  induction as generalizing s T with
  | nil => cases h; exact ⟨[], T, rfl, hm⟩
  | cons a as ih =>
    obtain ⟨u, hu, hrest⟩ := run_cons_eq_some.1 h
    obtain ⟨bs, T', hbs, hm'⟩ := hm.step hu
    obtain ⟨cs, T'', hcs, hm''⟩ := ih hm' hrest
    exact ⟨bs ++ cs, T'', by rw [run_append_of_eq hbs, hcs], hm''⟩

/-! ### Rows do not change -/

theorem BuffLog.entry_of_lt {α : Type} (s : BuffLog) (a : ℕ → Entry α) (value : α)
    (hz : z < s.localBuffTrack) : s.entry a value z = a z :=
  update_of_ne (Nat.ne_of_lt hz) ..

theorem BuffLog.row_step (h : s.step a = some t) :
    s.localBuffTrack ≤ t.localBuffTrack ∧ ∀ z < s.localBuffTrack, t.row z = s.row z := by
  rcases BuffLog.step_cases h with ⟨l, -, -, rfl⟩ | ⟨l, -, -, rfl⟩ | ⟨l, -, -, rfl⟩ |
    ⟨l, -, -, rfl⟩ | ⟨-, -, rfl⟩ | ⟨-, -, rfl⟩ | ⟨f, -, -, rfl⟩
  · exact ⟨Nat.le_refl _, fun z _ => rfl⟩
  · refine ⟨Nat.le_refl _, fun z hz => ?_⟩
    simp only [BuffLog.row, s.entry_of_lt _ _ hz]
  · refine ⟨Nat.le_refl _, fun z hz => ?_⟩
    simp only [BuffLog.row, s.entry_of_lt _ _ hz]
  · refine ⟨Nat.le_refl _, fun z hz => ?_⟩
    simp only [BuffLog.row, s.entry_of_lt _ _ hz]
  · exact ⟨Nat.le_succ _, fun z _ => rfl⟩
  · exact ⟨Nat.le_refl _, fun z _ => rfl⟩
  · simp only [BuffLog.encapVeth]
    split
    · refine ⟨Nat.le_refl _, fun z hz => ?_⟩
      simp only [BuffLog.row, BuffLog.pulled, s.entry_of_lt _ _ hz]
    · exact ⟨Nat.le_refl _, fun z _ => rfl⟩

/-- A row that `main` may print is the same at any later time. -/
theorem row_final (h : run BuffLog.step s as = some t) (hz : z < s.localBuffTrack) :
    t.row z = s.row z := by
  have hall : s.localBuffTrack ≤ t.localBuffTrack ∧
      ∀ z < s.localBuffTrack, t.row z = s.row z := by
    apply run_invariant (fun u => s.localBuffTrack ≤ u.localBuffTrack ∧
      ∀ z < s.localBuffTrack, u.row z = s.row z) _ ⟨Nat.le_refl _, fun z _ => rfl⟩ h
    rintro u a u' ⟨hle, hrows⟩ hstep
    obtain ⟨hle', hrows'⟩ := BuffLog.row_step hstep
    refine ⟨hle.trans hle', fun z hz => ?_⟩
    rw [hrows' z (by omega), hrows z hz]
  exact hall.2 z hz

/-! ### Where a packet is recorded -/

/-- The statements of a round that are done. -/
def BuffPc.done : BuffPc → ℕ
  | .idle | .localBuff _ | .pull => 0
  | .localQNum _ => 1
  | .buffTime _ => 2
  | .increment => 3

/-- The queue is recorded in the row of the round, the frame in the row after it. -/
structure BuffLog.Shifted (s : BuffLog) : Prop where
  track : s.localBuffTrack = s.round + if s.pc.toPc = .counted then 1 else 0
  localBuff : ∀ z < s.localBuffTrack + (if 1 ≤ s.pc.done then 1 else 0),
    (s.localBuff z).round = some z
  localQNum : ∀ z < s.localBuffTrack + (if 2 ≤ s.pc.done then 1 else 0),
    (s.localQNum z).round = some z
  buffTime : ∀ z < s.localBuffTrack + (if 3 ≤ s.pc.done then 1 else 0),
    (s.buffTime z).round = some z
  seq : ∀ z r, (s.seq z).round = some r → z = r + 1
  srcPort : ∀ z r, (s.srcPort z).round = some r → z = r + 1
  tcp : ∀ r f, s.pulls[r]? = some (some f) → f.isTcp →
    s.seq (r + 1) = ⟨f.tcpSeq, some r⟩ ∧ s.srcPort (r + 1) = ⟨f.tcpSource, some r⟩

theorem BuffLog.Shifted.init : BuffLog.init.Shifted where
  track := rfl
  localBuff z hz := absurd hz (Nat.not_lt_zero z)
  localQNum z hz := absurd hz (Nat.not_lt_zero z)
  buffTime z hz := absurd hz (Nat.not_lt_zero z)
  seq z r h := by cases h
  srcPort z r h := by cases h
  tcp r f h := by cases h

/-- A column that has its entry in every row below the counter gets the next one. -/
theorem BuffLog.entry_round {α : Type} {a : ℕ → Entry α} (value : α)
    (htrack : s.localBuffTrack = s.round) (ha : ∀ z < s.localBuffTrack, (a z).round = some z) :
    ∀ z < s.localBuffTrack + 1, (s.entry a value z).round = some z := by
  intro z hz
  by_cases hz' : z = s.localBuffTrack
  · subst hz'
    rw [BuffLog.entry, update_self, htrack]
  · rw [BuffLog.entry, update_of_ne hz']
    exact ha z (by omega)

/-- A column of the frames gets an entry one row behind its round. -/
theorem BuffLog.entry_shifted {α : Type} {a : ℕ → Entry α} (value : α)
    (htrack : s.localBuffTrack = s.round + 1) (ha : ∀ z r, (a z).round = some r → z = r + 1) :
    ∀ z r, (s.entry a value z).round = some r → z = r + 1 := by
  intro z r h
  by_cases hz : z = s.localBuffTrack
  · subst hz
    rw [BuffLog.entry, update_self] at h
    cases h
    exact htrack
  · rw [BuffLog.entry, update_of_ne hz] at h
    exact ha z r h

theorem getElem?_concat {α : Type*} {l : List α} {b c : α} (h : (l ++ [b])[r]? = some c) :
    l[r]? = some c ∨ r = l.length ∧ b = c := by
  rcases Nat.lt_trichotomy r l.length with hr | rfl | hr
  · rw [List.getElem?_append_left hr] at h
    exact .inl h
  · rw [List.getElem?_concat_length] at h
    exact .inr ⟨rfl, Option.some.inj h⟩
  · rw [List.getElem?_eq_none (by simp; omega)] at h
    cases h

/-- The end of a round whose frame was not recorded. -/
theorem BuffLog.Shifted.pulled (h : s.Shifted) (hpc : s.pc = .pull) {obj : Option Frame}
    (hobj : ∀ f, obj = some f → ¬ f.isTcp) : (s.pulled obj).Shifted := by
  have htrack := h.track
  have hbuff := h.localBuff
  have hq := h.localQNum
  have htime := h.buffTime
  rw [hpc] at htrack hbuff hq htime
  refine ⟨?_, hbuff, hq, htime, h.seq, h.srcPort, fun r f hr htcp => ?_⟩
  · simp only [BuffLog.pulled, BuffLog.round, List.length_append, List.length_singleton,
      BuffPc.toPc, reduceCtorEq, if_false, Nat.add_zero]
    exact htrack
  · rcases getElem?_concat hr with hr | ⟨-, hr⟩
    · exact h.tcp r f hr htcp
    · exact absurd htcp (hobj f hr)

/-- The end of a round with a TCP frame. -/
theorem BuffLog.Shifted.pulled_tcp (h : s.Shifted) (hpc : s.pc = .pull) (htcp : f.isTcp) :
    ((s.encapVeth f).pulled (some f)).Shifted := by
  have htrack := h.track
  have hbuff := h.localBuff
  have hq := h.localQNum
  have htime := h.buffTime
  rw [hpc] at htrack hbuff hq htime
  have htrack' : s.localBuffTrack = s.round + 1 := htrack
  rw [BuffLog.encapVeth, if_pos htcp]
  refine ⟨?_, hbuff, hq, htime, BuffLog.entry_shifted _ htrack' h.seq,
    BuffLog.entry_shifted _ htrack' h.srcPort, fun r f' hr htcp' => ?_⟩
  · simp only [BuffLog.pulled, BuffLog.round, List.length_append, List.length_singleton,
      BuffPc.toPc, reduceCtorEq, if_false, Nat.add_zero]
    exact htrack
  · have hpulls : (s.pulls ++ [some f])[r]? = some (some f') := hr
    rcases getElem?_concat hpulls with hbefore | ⟨rfl, hlast⟩
    · obtain ⟨hseq, hport⟩ := h.tcp r f' hbefore htcp'
      -- an earlier round, recorded in an earlier row
      have hlt : r + 1 < s.localBuffTrack := by
        have := (List.getElem?_eq_some_iff.1 hbefore).1
        rw [htrack', BuffLog.round]
        omega
      simp only [BuffLog.pulled, s.entry_of_lt _ _ hlt]
      exact ⟨hseq, hport⟩
    · cases hlast
      have hrow : s.pulls.length + 1 = s.localBuffTrack := htrack'.symm
      simp only [BuffLog.pulled, BuffLog.entry, hrow, update_self]
      exact ⟨rfl, rfl⟩

theorem BuffLog.Shifted.step (h : s.Shifted) (hstep : s.step a = some t) : t.Shifted := by
  have htrack := h.track
  have hbuff := h.localBuff
  have hq := h.localQNum
  have htime := h.buffTime
  rcases BuffLog.step_cases hstep with ⟨l, hs, -, rfl⟩ | ⟨l, hs, -, rfl⟩ | ⟨l, hs, -, rfl⟩ |
    ⟨l, hs, -, rfl⟩ | ⟨hs, -, rfl⟩ | ⟨hs, -, rfl⟩ | ⟨f, hs, -, rfl⟩
  · rw [hs] at htrack hbuff hq htime
    exact ⟨htrack, hbuff, hq, htime, h.seq, h.srcPort, h.tcp⟩
  · rw [hs] at htrack hbuff hq htime
    exact ⟨htrack, BuffLog.entry_round _ htrack hbuff, hq, htime, h.seq, h.srcPort, h.tcp⟩
  · rw [hs] at htrack hbuff hq htime
    exact ⟨htrack, hbuff, BuffLog.entry_round _ htrack hq, htime, h.seq, h.srcPort, h.tcp⟩
  · rw [hs] at htrack hbuff hq htime
    exact ⟨htrack, hbuff, hq, BuffLog.entry_round _ htrack htime, h.seq, h.srcPort, h.tcp⟩
  · rw [hs] at htrack hbuff hq htime
    exact ⟨congrArg (· + 1) htrack, hbuff, hq, htime, h.seq, h.srcPort, h.tcp⟩
  · exact h.pulled hs fun f hf => by cases hf
  · by_cases htcp : f.isTcp
    · exact h.pulled_tcp hs htcp
    · rw [BuffLog.encapVeth, if_neg htcp]
      exact h.pulled hs fun f' hf => by cases hf; exact htcp

theorem BuffLog.Shifted.run (h : run BuffLog.step BuffLog.init as = some s) : s.Shifted :=
  run_invariant BuffLog.Shifted (fun _ _ _ => BuffLog.Shifted.step) .init h

/-- The row of a TCP packet and the row that has its sequence number and port are neighbours. -/
theorem BuffLog.Shifted.not_of (h : s.Shifted) (hz : z < s.localBuffTrack) : ¬ (s.row z).Of r := by
  intro hrow
  have hbuff : (s.localBuff z).round = some z :=
    h.localBuff z (Nat.lt_of_lt_of_le hz (Nat.le_add_right _ _))
  have hr : (s.localBuff z).round = some r := hrow.buffSize
  have hseq := h.seq z r hrow.seq
  rw [hbuff] at hr
  cases hr
  omega

/-- **The rows of the log describe one packet each exactly when no TCP packet is pulled**: the
sequence number and the port of a packet are in the row after the one of its queue. -/
theorem described_iff (h : run BuffLog.step BuffLog.init as = some s) :
    s.Described ↔ ∀ f, some f ∈ s.pulls → ¬ f.isTcp := by
  have hshift := BuffLog.Shifted.run h
  constructor
  · intro hd f hf htcp
    obtain ⟨r, hr⟩ := List.mem_iff_getElem?.1 hf
    obtain ⟨z, ⟨hz, hrow⟩, -⟩ := hd.packet r ⟨f, hr, htcp⟩
    exact hshift.not_of hz hrow
  · intro hno
    have hnot : ∀ r, ¬ s.TcpRound r := fun r ⟨f, hr, htcp⟩ =>
      hno f (List.mem_iff_getElem?.2 ⟨r, hr⟩) htcp
    exact ⟨fun z _ r _ hr => absurd hr (hnot r), fun r hr => absurd hr (hnot r)⟩

/-- An Ethernet, IPv4 and TCP header with source port 80 and sequence number 7, in the chunk at
4096. -/
def tcpFrame : Frame where
  addr := 4352
  len := 54
  len_lt := by decide
  umem a :=
    if a = 4364 then 8 else if a = 4366 then 0x45 else if a = 4375 then 6
    else if a = 4387 then 80 else if a = 4393 then 7 else if a = 4398 then 0x50 else 0

/-- A round with queue 3 and the frame. -/
def tcpRun : List BuffAct :=
  [.enter ⟨1, 3, 0, 0⟩, .next, .next, .next, .next, .pull (some tcpFrame)]

theorem described_iff_one_round : ∃ s, run BuffLog.step BuffLog.init tcpRun = some s ∧
    (s.Described ↔ ∀ f, some f ∈ s.pulls → ¬ f.isTcp) :=
  ⟨_, rfl, described_iff (rfl : run BuffLog.step BuffLog.init tcpRun = some _)⟩

/-- The only row has queue 3, but port 0 and sequence number 0: those of the frame are in the row
after it. -/
theorem tcp_row_without_seq : ∃ s, run BuffLog.step BuffLog.init tcpRun = some s ∧
    s.localBuffTrack = 1 ∧ (s.row 0).qNum.value = 3 ∧ (s.row 0).seq = ⟨0, none⟩ ∧
    (s.row 1).seq = ⟨7, some 0⟩ ∧ (s.row 1).srcPort = ⟨80, some 0⟩ ∧ ¬ s.Described := by
  refine ⟨_, rfl, rfl, rfl, rfl, rfl, rfl, fun hd => ?_⟩
  obtain ⟨z, ⟨hz, hrow⟩, -⟩ := hd.packet 0 ⟨tcpFrame, rfl, by decide⟩
  have hshift := BuffLog.Shifted.run (rfl : run BuffLog.step BuffLog.init tcpRun = some _)
  exact hshift.not_of hz hrow

end RotorXdp
