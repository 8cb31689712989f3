import RotorXdp.Lib.TicketQueue

/-!
# When the calls of a ticket queue take effect

Every history of a ticket queue is a history of an atomic queue.

* with any number of consumers a push and a pull take effect when they take their ticket; the
  queue is `Fifo.Relaxed` (`exec_seen`);
* with one consumer a pull takes effect when it gives its cell back; the queue is `Fifo.Owned`
  (`exec_owned`);
* `cost_step`: a thread pays for every step, and is paid back by every ticket that is taken.
-/

namespace TicketQueue

open Function Atomic Fifo

variable {ι α W : Type*} {N : ℕ} {enc : ℤ → W} {s s' : State ι α W} {pc : Pc α W}
  {a : Act ι α} {i k : ι}

/-- What is seen of a step. -/
def event (s : State ι α W) : Act ι α → Option (Event ι (Op α) (Res α W))
  | .call i o => some (.call i o)
  | .step _ _ => none
  | .ret i =>
    match s.pc i with
    | .ret o r => some (.ret i o r)
    | _ => none

/-! ### Any number of consumers -/

/-- The phase of a thread whose call takes effect with its ticket. -/
def seenPhase (items : List α) : Pc α W → Phase (Op α) (Res α W)
  | .idle => .idle
  | .pushLoad x => .called (.push x)
  | .pushSeq x _ => .called (.push x)
  | .pushCas x _ => .called (.push x)
  | .pushWrite x _ => .done (.push x) (.pushed true)
  | .pushStore x _ => .done (.push x) (.pushed true)
  | .pullLoad => .called .pull
  | .pullSeq _ => .called .pull
  | .pullCas _ => .called .pull
  | .pullRead p => .done .pull (.pulled items[p]?)
  | .pullStore _ v => .done .pull (.pulled (some v))
  | .availTail => .called .available
  | .availHead _ => .called .available
  | .ret o r => .done o r

/-- What the queue is when every ticket counts. -/
def seen (s : State ι α W) : Canon ι (List α) (Op α) (Res α W) :=
  ⟨s.q.items.drop s.q.head, fun i => seenPhase s.q.items (s.pc i)⟩

theorem seenPhase_start (items : List α) (o : Op α) :
    seenPhase items (Pc.start o : Pc α W) = .called o := by
  cases o <;> rfl

theorem taking_of_reads (h : Inv N s) {t : ℕ} (ht : (s.pc i).reads = some t) :
    Taking (seen s).phase := by
  have hi := h.thread i
  have hhead := h.head_le
  refine ⟨i, ?_⟩
  cases hpc : s.pc i with
  | pullRead p =>
    rw [hpc] at hi
    obtain ⟨v, hv⟩ : ∃ v, s.q.items[p]? = some v :=
      ⟨_, List.getElem?_eq_getElem (lt_of_lt_of_le hi.2 hhead)⟩
    exact ⟨v, by simp only [seen, hpc, seenPhase, hv]⟩
  | pullStore p v => exact ⟨v, by simp only [seen, hpc, seenPhase]⟩
  | _ => rw [hpc] at ht; exact absurd ht (by simp [Pc.reads])

theorem putting_of_writes {t : ℕ} (ht : (s.pc i).writes = some t) : Putting (seen s).phase := by
  refine ⟨i, ?_⟩
  cases hpc : s.pc i with
  | pushWrite x p => exact ⟨x, by simp only [seen, hpc, seenPhase]⟩
  | pushStore x p => exact ⟨x, by simp only [seen, hpc, seenPhase]⟩
  | _ => rw [hpc] at ht; exact absurd ht (by simp [Pc.writes])

variable [DecidableEq ι]

theorem seen_update (q : Queue α) (s : State ι α W) (i : ι) (pc : Pc α W) :
    seen ⟨q, update s.pc i pc⟩ =
      ⟨q.items.drop q.head,
        update (fun j => seenPhase q.items (s.pc j)) i (seenPhase q.items pc)⟩ := by
  rw [seen, Canon.mk.injEq]
  refine ⟨rfl, funext fun j => ?_⟩
  by_cases hj : j = i
  · subst hj; simp only [update_self]
  · simp only [update_of_ne hj]

/-- A step that changes no phase is not seen. -/
theorem seen_move (h : seenPhase s.q.items pc = seenPhase s.q.items (s.pc i)) :
    seen { s with pc := update s.pc i pc } = seen s := by
  rw [seen_update, h, update_eq_self]
  rfl

omit [DecidableEq ι] in
/-- A thread's phase does not depend on the items that are put later. -/
theorem seenPhase_concat (h : Inv N s) (x : α) (j : ι) :
    seenPhase (s.q.items ++ [x]) (s.pc j) = seenPhase s.q.items (s.pc j) := by
  have hj := h.thread j
  have hhead := h.head_le
  cases hpc : s.pc j with
  | pullRead p =>
    rw [hpc] at hj
    simp only [seenPhase]
    rw [List.getElem?_append_left (lt_of_lt_of_le hj.2 hhead)]
  | _ => rfl

theorem exec_of_eq {M : Meaning ι (List α) (Op α) (Res α W)}
    {c d : Canon ι (List α) (Op α) (Res α W)} (h : d = c) : Exec M c [] d :=
  h ▸ Exec.nil d

/-- The automaton takes the push that has got its ticket. -/
theorem exec_claimPush {x : α} (h : Inv N s) (hN : 2 ≤ N) (hpc : s.pc i = .pushCas x s.q.tail) :
    Exec (Relaxed N) (seen s) []
      (seen ⟨{ s.q with items := s.q.items ++ [x] }, update s.pc i (.pushWrite x s.q.tail)⟩) := by
  have hlt : (s.q.items.drop s.q.head).length < N := by
    have hi := h.thread i
    rw [hpc] at hi
    have hcell := (h.of_free hN (hi.2 rfl)).1.lt_head
    unfold Queue.tail at hcell
    rw [List.length_drop]
    omega
  have hcalled : (seen s).phase i = .called (.push x) := by simp only [seen, hpc, seenPhase]
  have heff := Exec.effect hcalled (Relaxed.push (N := N) i x hlt)
  rw [seen_update]
  simp only [seenPhase_concat h]
  rw [List.drop_append_of_le_length h.head_le]
  exact heff

theorem exec_claimPull (h : Inv N s) (hN : 2 ≤ N) (hpc : s.pc i = .pullCas s.q.head) :
    Exec (Relaxed N) (seen s) []
      (seen ⟨{ s.q with head := s.q.head + 1 }, update s.pc i (.pullRead s.q.head)⟩) := by
  have hi := h.thread i
  rw [hpc] at hi
  have hlt := (h.of_full hN (hi.2 rfl)).2.lt_tail
  have hcalled : (seen s).phase i = .called .pull := by simp only [seen, hpc, seenPhase]
  have hdrop : (seen s).obj = s.q.items[s.q.head] :: s.q.items.drop (s.q.head + 1) :=
    List.drop_eq_getElem_cons hlt
  have heff := Exec.effect hcalled (M := Relaxed N) (by rw [hdrop]; exact .pull i _)
  rw [seen_update]
  simp only [seenPhase]
  rw [List.getElem?_eq_getElem hlt]
  exact heff

/-- A call that takes effect without changing the queue. -/
theorem exec_answer {o : Op α} {r : Res α W} (hpc : seenPhase s.q.items (s.pc i) = .called o)
    (hM : Relaxed N (seen s).phase (seen s).obj i o r (seen s).obj) :
    Exec (Relaxed N) (seen s) [] (seen { s with pc := update s.pc i (.ret o r) }) := by
  have heff := Exec.effect (i := i) hpc hM
  rw [seen_update]
  exact heff

/-- **The tickets are the order.** Every step of a ticket queue is a step of the relaxed queue. -/
theorem exec_seen (h : Inv N s) (hN : 2 ≤ N) (hs : Step N enc s a s') :
    Exec (Relaxed N) (seen s) (event s a).toList (seen s') := by
  cases hs with
  | @call i o hi =>
    have hidle : (seen s).phase i = .idle := by simp only [seen, hi, seenPhase]
    have hcall := Exec.single (Canon.Step.call (M := Relaxed N) o hidle)
    rw [seen_update, seenPhase_start]
    exact hcall
  | @ret i o r hi =>
    have hdone : (seen s).phase i = .done o r := by simp only [seen, hi, seenPhase]
    have hret := Exec.single (Canon.Step.ret (M := Relaxed N) hdone)
    rw [seen_update]
    simp only [event, hi]
    exact hret
  | @step i spurious q pc hn =>
    have hpc := h.thread i
    generalize hi : s.pc i = pc₀ at hn hpc
    generalize hq : s.q = q₀ at hn
    have hmove : ∀ {pc}, seenPhase s.q.items pc = seenPhase s.q.items pc₀ →
        Exec (Relaxed N) (seen s) [] (seen { s with pc := update s.pc i pc }) := fun he =>
      exec_of_eq (seen_move (by rw [he, hi]))
    cases hn with
    | pushLoad => subst hq; exact hmove rfl
    | pushReady => subst hq; exact hmove rfl
    | pushLate => subst hq; exact hmove rfl
    | pushFull hlt =>
      subst hq
      refine exec_answer (by rw [hi]; rfl) (.full i _ ?_)
      rcases h.push_full hN hpc hlt with htail | ⟨j, _, hj, -⟩
      · left
        rw [seen, List.length_drop]
        unfold Queue.tail at htail
        omega
      · exact .inr (taking_of_reads h hj)
    | pushClaim hp => subst hq hp; exact exec_claimPush h hN hi
    | pushRetry => subst hq; exact hmove rfl
    | pushWrite =>
      subst hq
      refine exec_of_eq ?_
      rw [seen_update]
      exact congrArg _ (update_eq_iff.2 ⟨by rw [hi]; rfl, fun _ _ => rfl⟩)
    | pushStore =>
      subst hq
      refine exec_of_eq ?_
      rw [seen_update]
      exact congrArg _ (update_eq_iff.2 ⟨by rw [hi]; rfl, fun _ _ => rfl⟩)
    | pullLoad => subst hq; exact hmove rfl
    | pullReady => subst hq; exact hmove rfl
    | pullEmpty hlt =>
      subst hq
      refine exec_answer (by rw [hi]; rfl) (.empty i ?_)
      rcases h.pull_empty hN hpc hlt with hhead | ⟨j, hj⟩
      · left
        rw [seen, List.drop_eq_nil_iff]
        exact hhead.ge
      · exact .inr (putting_of_writes hj)
    | pullLate => subst hq; exact hmove rfl
    | pullClaim hp => subst hq hp; exact exec_claimPull h hN hi
    | pullRetry => subst hq; exact hmove rfl
    | pullRead =>
      subst hq
      exact hmove (by simp only [seenPhase, (h.of_full hN hpc.1).2.item])
    | pullStore =>
      subst hq
      refine exec_of_eq ?_
      rw [seen_update]
      exact congrArg _ (update_eq_iff.2 ⟨by rw [hi]; rfl, fun _ _ => rfl⟩)
    | availTail => subst hq; exact hmove rfl
    | availHead => subst hq; exact exec_answer (by rw [hi]; rfl) (.available i _)

/-! ### One consumer -/

/-- The thread is in a call of a consumer. -/
def Pc.consumes : Pc α W → Bool
  | .pullLoad => true
  | .pullSeq _ => true
  | .pullCas _ => true
  | .pullRead _ => true
  | .pullStore _ _ => true
  | .availTail => true
  | .availHead _ => true
  | _ => false

omit [DecidableEq ι] in
theorem consumes_of_reads {t : ℕ} (h : pc.reads = some t) : pc.consumes = true := by
  cases pc with
  | pullRead => rfl
  | pullStore => rfl
  | _ => exact absurd h (by simp [Pc.reads])

/-- Only thread `k` calls what a consumer calls. -/
def Act.By (k : ι) : Act ι α → Prop
  | .call _ (.push _) => True
  | .call i _ => i = k
  | _ => True

instance Act.decidableBy (k : ι) : ∀ a : Act ι α, Decidable (a.By k)
  | .call _ (.push _) => isTrue trivial
  | .call i .pull => inferInstanceAs (Decidable (i = k))
  | .call i .available => inferInstanceAs (Decidable (i = k))
  | .step _ _ => isTrue trivial
  | .ret _ => isTrue trivial

/-- Only thread `k` is in a call of a consumer, and the ticket it has is the last one taken. -/
structure OwnedBy (k : ι) (s : State ι α W) : Prop where
  only : ∀ i, (s.pc i).consumes = true → i = k
  last : ∀ p, (s.pc k).reads = some p → p + 1 = s.q.head

omit [DecidableEq ι] in
theorem OwnedBy.init (k : ι) (data : ℕ → α) : OwnedBy k (State.init data : State ι α W) :=
  ⟨by simp [State.init, Pc.consumes], by simp [State.init, Pc.reads]⟩

/-- A thread moves on, and the last ticket of a pull stays the last. -/
theorem OwnedBy.move (h : OwnedBy k s) {q : Queue α} (hcons : pc.consumes = true → i = k)
    (hlast : i = k → ∀ p, pc.reads = some p → p + 1 = q.head)
    (hhead : i ≠ k → q.head = s.q.head) : OwnedBy k ⟨q, update s.pc i pc⟩ where
  only j hj := by
    by_cases hji : j = i
    · subst hji
      exact hcons (by simpa only [update_self] using hj)
    · exact h.only j (by simpa only [update_of_ne hji] using hj)
  last p hp := by
    by_cases hki : k = i
    · subst hki
      exact hlast rfl p (by simpa only [update_self] using hp)
    · simp only [update_of_ne hki] at hp
      simp only [hhead (Ne.symm hki)]
      exact h.last p hp

theorem OwnedBy.step (h : OwnedBy k s) (ha : a.By k) (hs : Step N enc s a s') : OwnedBy k s' := by
  cases hs with
  | @call i o hi =>
    refine h.move (fun hc => ?_) (fun _ p hp => ?_) fun _ => rfl
    · cases o with
      | push x => exact absurd hc (by simp [Pc.start, Pc.consumes])
      | pull => exact ha
      | available => exact ha
    · cases o <;> exact absurd hp (by simp [Pc.start, Pc.reads])
  | @ret i o r hi =>
    exact h.move (by simp [Pc.consumes]) (by simp [Pc.reads]) fun _ => rfl
  | @step i spurious q pc hn =>
    have honly := h.only i
    have hlast := h.last
    generalize hi : s.pc i = pc₀ at hn honly
    generalize hq : s.q = q₀ at hn hlast
    -- the thread neither gets nor keeps a ticket of a pull
    have hkeep : ∀ {q' : Queue α} {pc}, pc.consumes = false ∨ pc₀.consumes = true →
        pc.reads = none → q'.head = q₀.head → OwnedBy k ⟨q', update s.pc i pc⟩ := by
      intro q' pc hc hr hh
      refine h.move (fun hpc => ?_) (fun _ p hp => ?_) fun _ => by rw [hh, hq]
      · rcases hc with hc | hc
        · rw [hc] at hpc; exact absurd hpc (by decide)
        · exact honly hc
      · rw [hr] at hp
        exact absurd hp (by simp)
    cases hn with
    | pullClaim hp =>
      subst hp
      refine h.move (fun _ => honly rfl) (fun _ p hp => ?_) fun hne => absurd (honly rfl) hne
      rw [← Option.some.inj hp]
    | pullRead =>
      obtain rfl := honly rfl
      refine h.move (fun _ => rfl) (fun _ p hp => hlast p ?_) fun hne => absurd rfl hne
      rw [hi]
      exact hp
    | pushLoad | pushReady | pushFull | pushLate | pushClaim | pushRetry | pushWrite | pushStore
    | pullStore | pullEmpty | availHead => exact hkeep (.inl rfl) rfl rfl
    | pullLoad | pullReady | pullLate | pullRetry | availTail => exact hkeep (.inr rfl) rfl rfl

/-- The phase of a thread whose pull takes effect when it gives the cell back, and whose count of
the items takes effect when it reads `tail`. -/
def ownedPhase (enc : ℤ → W) (head : ℕ) : Pc α W → Phase (Op α) (Res α W)
  | .idle => .idle
  | .pushLoad x => .called (.push x)
  | .pushSeq x _ => .called (.push x)
  | .pushCas x _ => .called (.push x)
  | .pushWrite x _ => .done (.push x) (.pushed true)
  | .pushStore x _ => .done (.push x) (.pushed true)
  | .pullLoad => .called .pull
  | .pullSeq _ => .called .pull
  | .pullCas _ => .called .pull
  | .pullRead _ => .called .pull
  | .pullStore _ _ => .called .pull
  | .availTail => .called .available
  | .availHead t => .done .available (.available (enc ((t : ℤ) - (head : ℤ))))
  | .ret o r => .done o r

/-- The first item whose cell the consumer has not given back. -/
def released (k : ι) (s : State ι α W) : ℕ := (s.pc k).reads.getD s.q.head

/-- What the queue is when an item is in it until its cell is given back. -/
def owned (enc : ℤ → W) (k : ι) (s : State ι α W) : Canon ι (List α) (Op α) (Res α W) :=
  ⟨s.q.items.drop (released k s), fun i => ownedPhase enc s.q.head (s.pc i)⟩

omit [DecidableEq ι] in
theorem ownedPhase_start (head : ℕ) (o : Op α) :
    ownedPhase enc head (Pc.start o : Pc α W) = .called o := by
  cases o <;> rfl

omit [DecidableEq ι] in
theorem putting_of_writes_owned {t : ℕ} (ht : (s.pc i).writes = some t) :
    Putting (owned enc k s).phase := by
  refine ⟨i, ?_⟩
  cases hpc : s.pc i with
  | pushWrite x p => exact ⟨x, by simp only [owned, hpc, ownedPhase]⟩
  | pushStore x p => exact ⟨x, by simp only [owned, hpc, ownedPhase]⟩
  | _ => rw [hpc] at ht; exact absurd ht (by simp [Pc.writes])

theorem released_update {q : Queue α} (hr : pc.reads = (s.pc i).reads) :
    released k ⟨q, update s.pc i pc⟩ = (s.pc k).reads.getD q.head := by
  unfold released
  by_cases hk : k = i
  · subst hk; simp only [update_self, hr]
  · simp only [update_of_ne hk]

theorem phase_update (head : ℕ) :
    (fun j => ownedPhase enc head (update s.pc i pc j)) =
      update (fun j => ownedPhase enc head (s.pc j)) i (ownedPhase enc head pc) := by
  funext j
  by_cases hj : j = i
  · subst hj; simp only [update_self]
  · simp only [update_of_ne hj]

/-- The queue after a step that takes no pull ticket and gives no cell back. -/
theorem owned_update {q : Queue α} (hr : pc.reads = (s.pc i).reads) (hh : q.head = s.q.head) :
    owned enc k ⟨q, update s.pc i pc⟩ =
      ⟨q.items.drop (released k s),
        update (owned enc k s).phase i (ownedPhase enc s.q.head pc)⟩ := by
  rw [owned, released_update hr, phase_update]
  simp only [hh]
  rfl

theorem owned_move {q : Queue α} (hr : pc.reads = (s.pc i).reads) (hh : q.head = s.q.head)
    (hitems : q.items = s.q.items)
    (hp : ownedPhase enc s.q.head pc = ownedPhase enc s.q.head (s.pc i)) :
    owned enc k ⟨q, update s.pc i pc⟩ = owned enc k s := by
  rw [owned_update hr hh, hp, hitems]
  exact congrArg _ (update_eq_self i _)

omit [DecidableEq ι] in
theorem released_of_reads {t : ℕ} (h : (s.pc k).reads = some t) : released k s = t := by
  rw [released, h]; rfl

omit [DecidableEq ι] in
theorem released_of_none (h : (s.pc k).reads = none) : released k s = s.q.head := by
  rw [released, h]; rfl

omit [DecidableEq ι] in
theorem OwnedBy.full (h : OwnedBy k s) (hI : Inv N s) (hN : 2 ≤ N) {p : ℕ} (hp : p ≤ s.q.tail)
    (hlt : s.q.seq (p % N) < p) : (owned enc k s).obj.length = N := by
  rw [owned, List.length_drop]
  rcases hI.push_full hN hp hlt with htail | ⟨j, t, hj, htail⟩
  · have hnone : (s.pc k).reads = none := by
      cases hr : (s.pc k).reads with
      | none => rfl
      | some p =>
        have hcell := (hI.of_full hN ((hI.thread k).of_reads hr).1).1.tail_le
        have := h.last p hr
        omega
    rw [released_of_none hnone]
    unfold Queue.tail at htail
    omega
  · obtain rfl := h.only j (consumes_of_reads hj)
    rw [released_of_reads hj]
    unfold Queue.tail at htail
    omega

omit [DecidableEq ι] in
theorem OwnedBy.room (hI : Inv N s) (hN : 2 ≤ N) (hfree : s.q.Free N s.q.tail) :
    (owned enc k s).obj.length < N := by
  have hlt := (hI.of_free hN hfree).1.lt_head
  rw [owned, List.length_drop]
  cases hr : (s.pc k).reads with
  | none =>
    rw [released_of_none hr]
    unfold Queue.tail at hlt
    omega
  | some p =>
    have hfull := ((hI.thread k).of_reads hr).1
    have hle := (hI.of_full hN hfull).1.tail_le
    have hne : s.q.tail ≠ p + N := fun he =>
      hfree.not_full hN hfull (by rw [he, Nat.add_mod_right])
    rw [released_of_reads hr]
    unfold Queue.tail at hle hne
    omega

/-- The consumer takes a ticket; the item stays in the queue. -/
theorem owned_claimPull (h : OwnedBy k s) {p : ℕ} (hi : s.pc i = .pullCas p) (hp : s.q.head = p) :
    owned enc k ⟨{ s.q with head := p + 1 }, update s.pc i (.pullRead p)⟩ = owned enc k s := by
  obtain rfl : i = k := h.only i (by rw [hi]; rfl)
  rw [owned, owned, Canon.mk.injEq]
  refine ⟨?_, funext fun j => ?_⟩
  · rw [released_of_reads (t := p) (by simp only [update_self]; rfl),
      released_of_none (by rw [hi]; rfl), hp]
  · by_cases hj : j = i
    · subst hj; simp only [update_self, hi]; rfl
    · simp only [update_of_ne hj]
      cases hpc : s.pc j with
      | availHead t => exact absurd (h.only j (by rw [hpc]; rfl)) hj
      | _ => rfl

/-- The consumer gives the cell back; now the item is gone. -/
theorem exec_storePull (h : OwnedBy k s) (hI : Inv N s) {p : ℕ} {v : α}
    (hi : s.pc i = .pullStore p v) :
    Exec (Owned N enc) (owned enc k s) []
      (owned enc k ⟨{ s.q with seq := update s.q.seq (p % N) (p + N) },
        update s.pc i (.ret .pull (.pulled (some v)))⟩) := by
  obtain rfl : i = k := h.only i (by rw [hi]; rfl)
  have hpc := hI.thread i
  rw [hi] at hpc
  have hr : (s.pc i).reads = some p := by rw [hi]; rfl
  have hcalled : (owned enc i s).phase i = .called .pull := by
    simp only [owned, hi, ownedPhase]
  have hobj : (owned enc i s).obj = v :: s.q.items.drop (p + 1) := by
    obtain ⟨hlt, hv⟩ := List.getElem?_eq_some_iff.1 hpc.2.2
    rw [owned, released_of_reads hr, ← hv]
    exact List.drop_eq_getElem_cons hlt
  have heff := Exec.effect hcalled (M := Owned N enc) (by rw [hobj]; exact .pull i v)
  have hafter : owned enc i ⟨{ s.q with seq := update s.q.seq (p % N) (p + N) },
      update s.pc i (.ret .pull (.pulled (some v)))⟩ = ⟨s.q.items.drop (p + 1),
        update (owned enc i s).phase i (.done .pull (.pulled (some v)))⟩ := by
    rw [owned, phase_update, released_of_none (by simp only [update_self]; rfl), h.last p hr]
    rfl
  rw [hafter]
  exact heff

/-- **One consumer.** Every step of a ticket queue with one consumer is a step of the queue that
this consumer owns. -/
theorem exec_owned (h : OwnedBy k s) (hI : Inv N s) (hN : 2 ≤ N) (hs : Step N enc s a s') :
    Exec (Owned N enc) (owned enc k s) (event s a).toList (owned enc k s') := by
  cases hs with
  | @call i o hi =>
    have hidle : (owned enc k s).phase i = .idle := by simp only [owned, hi, ownedPhase]
    have hcall := Exec.single (Canon.Step.call (M := Owned N enc) o hidle)
    rw [owned_update (by rw [hi]; cases o <;> rfl) rfl, ownedPhase_start]
    exact hcall
  | @ret i o r hi =>
    have hdone : (owned enc k s).phase i = .done o r := by simp only [owned, hi, ownedPhase]
    have hret := Exec.single (Canon.Step.ret (M := Owned N enc) hdone)
    rw [owned_update (by rw [hi]; rfl) rfl]
    simp only [event, hi]
    exact hret
  | @step i spurious q pc hn =>
    have hpc := hI.thread i
    have honly := h.only i
    generalize hi : s.pc i = pc₀ at hn hpc honly
    have hph : (owned enc k s).phase i = ownedPhase enc s.q.head pc₀ := by
      simp only [owned, hi]
    have hrd : (s.pc i).reads = pc₀.reads := by rw [hi]
    generalize hq : s.q = q₀ at hn
    -- nothing takes effect
    have hmove : ∀ {q : Queue α} {pc}, pc.reads = pc₀.reads → q.head = s.q.head →
        q.items = s.q.items → ownedPhase enc s.q.head pc = ownedPhase enc s.q.head pc₀ →
        Exec (Owned N enc) (owned enc k s) [] (owned enc k ⟨q, update s.pc i pc⟩) :=
      fun hr hh hit hp => exec_of_eq (owned_move (by rw [hr, hi]) hh hit (by rw [hp, hi]))
    cases hn with
    | pushLoad | pushReady | pushLate | pushRetry | pullLoad | pullReady | pullLate | pullRetry
    | pullRead | availHead => subst hq; exact hmove rfl rfl rfl rfl
    | pushWrite | pushStore => subst hq; exact hmove rfl rfl rfl rfl
    | pushFull hlt =>
      subst hq
      have heff := Exec.effect hph (M := Owned N enc) (.full i _ (h.full hI hN hpc hlt))
      rw [owned_update (by rw [hi]; rfl) rfl]
      exact heff
    | pushClaim hp =>
      subst hq hp
      rename_i x
      have heff := Exec.effect hph (M := Owned N enc) (.push i x (OwnedBy.room hI hN (hpc.2 rfl)))
      have hafter : owned enc k ⟨{ s.q with items := s.q.items ++ [x] },
          update s.pc i (.pushWrite x s.q.tail)⟩ = ⟨(s.q.items ++ [x]).drop (released k s),
            update (owned enc k s).phase i (.done (.push x) (.pushed true))⟩ :=
        owned_update hrd.symm rfl
      rw [hafter]
      have hle : released k s ≤ s.q.items.length := by
        have hhead := hI.head_le
        unfold released
        cases hr : (s.pc k).reads with
        | none => exact hhead
        | some p => exact le_trans ((hI.thread k).of_reads hr).2.le hhead
      rw [List.drop_append_of_le_length hle]
      exact heff
    | pullEmpty hlt =>
      subst hq
      obtain rfl := honly rfl
      have hempty : (owned enc i s).obj = [] ∨ Putting (owned enc i s).phase := by
        rcases hI.pull_empty hN hpc hlt with hhead | ⟨j, hj⟩
        · left
          rw [owned, released_of_none hrd, List.drop_eq_nil_iff]
          exact hhead.ge
        · exact .inr (putting_of_writes_owned hj)
      have heff := Exec.effect hph (M := Owned N enc) (.empty i hempty)
      rw [owned_update (by rw [hi]; rfl) rfl]
      exact heff
    | pullClaim hp => subst hq; exact exec_of_eq (owned_claimPull h hi hp)
    | pullStore => subst hq; exact exec_storePull h hI hi
    | availTail =>
      subst hq
      obtain rfl := honly rfl
      have heff := Exec.effect hph (M := Owned N enc) (.available i)
      have hlen : ((owned enc i s).obj.length : ℤ) = (s.q.tail : ℤ) - (s.q.head : ℤ) := by
        have hle := hI.head_le
        rw [owned, released_of_none hrd, List.length_drop]
        unfold Queue.tail at hle ⊢
        omega
      rw [hlen] at heff
      rw [owned_update (by rw [hi]; rfl) rfl]
      exact heff

/-! ### What a step costs -/

/-- The steps that a thread still has to take if nobody interferes. -/
def budget (q : Queue α) : Pc α W → ℕ
  | .pushLoad _ => 5
  | .pushSeq _ p => if p = q.tail then 4 else 6
  | .pushCas _ p => if p = q.tail then 3 else 5
  | .pushWrite _ _ => 2
  | .pushStore _ _ => 1
  | .pullLoad => 5
  | .pullSeq p => if p = q.head then 4 else 6
  | .pullCas p => if p = q.head then 3 else 5
  | .pullRead _ => 2
  | .pullStore _ _ => 1
  | .availTail => 2
  | .availHead _ => 1
  | _ => 0

/-- Thread `i` takes a step; it calls; its compare-and-swap may fail without need. -/
def Act.own (i : ι) : Act ι α → ℕ
  | .step j _ => if j = i then 1 else 0
  | _ => 0

def Act.calls (i : ι) : Act ι α → ℕ
  | .call j _ => if j = i then 1 else 0
  | _ => 0

def Act.spurious (i : ι) : Act ι α → ℕ
  | .step j true => if j = i then 1 else 0
  | _ => 0

/-- The tickets that have been taken. -/
def Queue.tickets (q : Queue α) : ℕ := q.tail + q.head

/-- A step takes at most one ticket. -/
theorem Next.tickets {spurious : Bool} {q q' : Queue α} {pc pc' : Pc α W}
    (h : Next N enc spurious q pc q' pc') :
    q.tail ≤ q'.tail ∧ q.head ≤ q'.head ∧ q'.tickets ≤ q.tickets + 1 := by
  cases h with
  | pushClaim =>
    rw [Queue.tickets, Queue.tail_concat, Queue.tickets]
    exact ⟨by omega, le_refl _, by dsimp only; omega⟩
  | pullClaim hp =>
    subst hp
    exact ⟨le_refl _, Nat.le_succ _, le_refl _⟩
  | _ => exact ⟨le_refl _, le_refl _, Nat.le_succ _⟩

theorem Step.tickets (h : Step N enc s a s') :
    s.q.tail ≤ s'.q.tail ∧ s.q.head ≤ s'.q.head ∧ s'.q.tickets ≤ s.q.tickets + 1 := by
  cases h with
  | step hn => exact hn.tickets
  | _ => exact ⟨le_refl _, le_refl _, Nat.le_succ _⟩

omit [DecidableEq ι] in
theorem budget_start (q : Queue α) (o : Op α) : budget q (Pc.start o : Pc α W) ≤ 5 := by
  cases o <;> simp [Pc.start, budget]

theorem budget_le (q q' : Queue α) (pc : Pc α W) : budget q' pc ≤ budget q pc + 2 := by
  cases pc with
  | pushSeq | pushCas | pullSeq | pullCas => simp only [budget]; split_ifs <;> omega
  | _ => exact Nat.le_add_right _ _

/-- A ticket that is taken costs another thread two steps. -/
theorem budget_claim {q q' : Queue α} (pc : Pc α W) (ht : q.tail ≤ q'.tail)
    (hh : q.head ≤ q'.head) :
    budget q' pc + 2 * q.tickets ≤ budget q pc + 2 * q'.tickets := by
  have hle := budget_le q q' pc
  unfold Queue.tickets
  rcases Nat.lt_or_ge (q.tail + q.head) (q'.tail + q'.head) with hlt | hge
  · omega
  · have htail : q'.tail = q.tail := by omega
    have hhead : q'.head = q.head := by omega
    cases pc <;> simp only [budget, htail, hhead, le_refl]

/-- **A step of a thread is paid for** by its budget, by a compare-and-swap that failed without
need, or by a ticket that some thread has taken. -/
theorem cost_step (h : Inv N s) (hN : 2 ≤ N) (hs : Step N enc s a s') (i : ι) :
    budget s'.q (s'.pc i) + a.own i + 2 * s.q.tickets ≤
      budget s.q (s.pc i) + 5 * a.calls i + 2 * a.spurious i + 2 * s'.q.tickets := by
  cases hs with
  | @call j o hj =>
    simp only [Act.own, Act.calls, Act.spurious]
    by_cases hij : j = i
    · subst hij
      have := budget_start (W := W) s.q o
      simp only [update_self, if_pos]
      omega
    · simp only [update_of_ne (Ne.symm hij), if_neg hij]
      omega
  | @ret j o r hj =>
    simp only [Act.own, Act.calls, Act.spurious]
    by_cases hij : j = i
    · subst hij
      simp only [update_self, budget]
      omega
    · simp only [update_of_ne (Ne.symm hij)]
      omega
  | @step j spurious q pc hn =>
    by_cases hij : j = i
    · subst hij
      have hpc := h.thread j
      have hsp : (Act.step j spurious : Act ι α).spurious j = if spurious = true then 1 else 0 := by
        cases spurious <;> simp [Act.spurious]
      have hcalls : (Act.step j spurious : Act ι α).calls j = 0 := rfl
      have hown : (Act.step j spurious : Act ι α).own j = 1 := if_pos rfl
      have hmono : s.q.tickets ≤ q.tickets := Nat.add_le_add hn.tickets.1 hn.tickets.2.1
      rw [hsp, hcalls, hown]
      simp only [update_self]
      generalize s.pc j = pc₀ at hn hpc
      generalize hq : s.q = q₀ at hn hpc hmono
      cases hn with
      | pushLate hlt =>
        subst hq
        have := h.push_late hN hpc hlt
        simp only [budget, if_neg this.ne]
        omega
      | pullLate hlt =>
        subst hq
        have := h.pull_late hN hpc hlt
        simp only [budget, if_neg this.ne]
        omega
      | pushClaim hp | pullClaim hp => simp only [budget, if_pos hp.symm]; omega
      | pushRetry hr =>
        simp only [budget, if_pos]
        rcases hr with rfl | hne
        · simp only [if_pos]; split <;> omega
        · simp only [if_neg hne.symm]; omega
      | pullRetry hr =>
        simp only [budget, if_pos]
        rcases hr with rfl | hne
        · simp only [if_pos]; split <;> omega
        · simp only [if_neg hne.symm]; omega
      | pushReady | pullReady => simp only [budget]; split <;> omega
      | pushFull | pullEmpty => simp only [budget]; split <;> omega
      | pushLoad | pullLoad => simp only [budget, if_pos]; omega
      | pushWrite | pushStore | pullRead | pullStore => simp only [budget]; omega
      | availTail | availHead => simp only [budget]; omega
    · have := budget_claim (s.pc i) hn.tickets.1 hn.tickets.2.1
      simp only [update_of_ne (Ne.symm hij), Act.own, if_neg hij]
      omega

end TicketQueue
