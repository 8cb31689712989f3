import RotorXdp.Lib.Atomic
import Mathlib.Data.List.Basic

/-!
# Bounded queues as atomic objects

A bounded queue that threads push to and pull from. `Fifo.Relaxed N` is what a queue of capacity
`N` may do when an item that is being taken still occupies its place, and an item that is being put
is not there yet: a push may also be refused while another thread is taking an item, and a pull may
also find nothing while another thread is putting one. `Fifo.Owned N` is a queue with one consumer,
which sees the exact capacity and the exact length.

* `Op`, `Res`, `Relaxed`, `Owned`;
* `taken`, `accepted`: what a history says about the items;
* `exec_merge`: with one consumer, what has been taken and what is left is a merge of the accepted
  items of the producers, each in its order.
-/

namespace Fifo

open Function Atomic

variable {ι α W : Type*}

inductive Op (α : Type*)
  | push (x : α)
  | pull
  | available
  deriving DecidableEq

/-- `W` is what a length is given as. -/
inductive Res (α W : Type*)
  | pushed (ok : Bool)
  | pulled (x : Option α)
  | available (w : W)
  deriving DecidableEq

/-- Some thread has taken an item and has not returned. -/
def Taking (phase : ι → Phase (Op α) (Res α W)) : Prop :=
  ∃ i v, phase i = .done .pull (.pulled (some v))

/-- Some thread has put an item and has not returned. -/
def Putting (phase : ι → Phase (Op α) (Res α W)) : Prop :=
  ∃ i x, phase i = .done (.push x) (.pushed true)

/-- A queue of capacity `N` for any number of producers and consumers. -/
inductive Relaxed (N : ℕ) (phase : ι → Phase (Op α) (Res α W)) :
    List α → ι → Op α → Res α W → List α → Prop
  | push {l : List α} (i : ι) (x : α) (h : l.length < N) :
      Relaxed N phase l i (.push x) (.pushed true) (l ++ [x])
  | full {l : List α} (i : ι) (x : α) (h : l.length = N ∨ Taking phase) :
      Relaxed N phase l i (.push x) (.pushed false) l
  | pull {l : List α} (i : ι) (x : α) : Relaxed N phase (x :: l) i .pull (.pulled (some x)) l
  | empty {l : List α} (i : ι) (h : l = [] ∨ Putting phase) :
      Relaxed N phase l i .pull (.pulled none) l
  | available {l : List α} (i : ι) (w : W) : Relaxed N phase l i .available (.available w) l

/-- A queue of capacity `N` with one consumer; `enc` gives the length. -/
inductive Owned (N : ℕ) (enc : ℤ → W) (phase : ι → Phase (Op α) (Res α W)) :
    List α → ι → Op α → Res α W → List α → Prop
  | push {l : List α} (i : ι) (x : α) (h : l.length < N) :
      Owned N enc phase l i (.push x) (.pushed true) (l ++ [x])
  | full {l : List α} (i : ι) (x : α) (h : l.length = N) :
      Owned N enc phase l i (.push x) (.pushed false) l
  | pull {l : List α} (i : ι) (x : α) : Owned N enc phase (x :: l) i .pull (.pulled (some x)) l
  | empty {l : List α} (i : ι) (h : l = [] ∨ Putting phase) :
      Owned N enc phase l i .pull (.pulled none) l
  | available {l : List α} (i : ι) : Owned N enc phase l i .available (.available (enc l.length)) l

/-! ### What a history says about the items -/

/-- The item that a return hands over. -/
def takenBy : Event ι (Op α) (Res α W) → Option α
  | .ret _ .pull (.pulled (some v)) => some v
  | _ => none

/-- The item that a return says to have put. -/
def acceptedBy [DecidableEq ι] (i : ι) : Event ι (Op α) (Res α W) → Option α
  | .ret j (.push x) (.pushed true) => if j = i then some x else none
  | _ => none

/-- The item that a return says some producer to have put. -/
def putBy : Event ι (Op α) (Res α W) → Option α
  | .ret _ (.push x) (.pushed true) => some x
  | _ => none

/-- The items handed over, in the order of the returns. -/
def taken (h : List (Event ι (Op α) (Res α W))) : List α := h.filterMap takenBy

/-- The items that the queue has accepted, in the order of the returns. -/
def put (h : List (Event ι (Op α) (Res α W))) : List α := h.filterMap putBy

/-- The items of producer `i` that the queue has accepted, in the order of the returns. -/
def accepted [DecidableEq ι] (h : List (Event ι (Op α) (Res α W))) (i : ι) : List α :=
  h.filterMap (acceptedBy i)

/-- The item that a consumer has taken and not handed over. -/
def held : Phase (Op α) (Res α W) → List α
  | .done .pull (.pulled (some v)) => [v]
  | _ => []

/-- The item that a producer has put without having returned. -/
def offered : Phase (Op α) (Res α W) → List α
  | .done (.push x) (.pushed true) => [x]
  | _ => []

/-- The items of producer `i` in a list of items with their producers. -/
def ofProducer [DecidableEq ι] (l : List (ι × α)) (i : ι) : List α :=
  (l.filter fun p => p.1 = i).map Prod.snd

/-- Only thread `k` is in a pull. -/
def OnlyPuller (k : ι) (phase : ι → Phase (Op α) (Res α W)) : Prop :=
  ∀ i, phase i = .called .pull ∨ held (phase i) ≠ [] → i = k

variable [DecidableEq ι]

omit [DecidableEq ι] in
theorem held_done (i : ι) (o : Op α) (r : Res α W) :
    held (.done o r) = (takenBy (.ret i o r)).toList := by
  unfold held takenBy
  split <;> simp_all

theorem offered_done (i : ι) (o : Op α) (r : Res α W) :
    offered (.done o r) = (acceptedBy i (.ret i o r)).toList := by
  unfold offered acceptedBy
  split <;> simp_all

theorem acceptedBy_ret_of_ne {i j : ι} (hij : i ≠ j) (o : Op α) (r : Res α W) :
    acceptedBy j (.ret i o r) = none := by
  unfold acceptedBy
  split
  · rename_i heq
    cases heq
    exact if_neg hij
  · rfl

omit [DecidableEq ι] in
theorem taken_append (h : List (Event ι (Op α) (Res α W))) (e : Event ι (Op α) (Res α W)) :
    taken (h ++ [e]) = taken h ++ (takenBy e).toList := by
  rw [taken, List.filterMap_append]
  cases he : takenBy e <;> simp [taken, he]

theorem accepted_append (h : List (Event ι (Op α) (Res α W))) (e : Event ι (Op α) (Res α W))
    (i : ι) : accepted (h ++ [e]) i = accepted h i ++ (acceptedBy i e).toList := by
  rw [accepted, List.filterMap_append]
  cases he : acceptedBy i e <;> simp [accepted, he]

theorem ofProducer_append (l : List (ι × α)) (j : ι) (x : α) (i : ι) :
    ofProducer (l ++ [(j, x)]) i = ofProducer l i ++ if j = i then [x] else [] := by
  by_cases h : j = i <;> simp [ofProducer, List.filter_append, h]

/-- What has been taken, what the consumer `k` holds and what is left make up `l`, and `l` has the
accepted items of each producer in its order. -/
structure Merge (k : ι) (h : List (Event ι (Op α) (Res α W)))
    (d : Canon ι (List α) (Op α) (Res α W)) (l : List (ι × α)) : Prop where
  items : l.map Prod.snd = taken h ++ held (d.phase k) ++ d.obj
  producers : ∀ i, ofProducer l i = accepted h i ++ offered (d.phase i)
  only : OnlyPuller k d.phase

variable {N : ℕ} {k : ι} {h : List (Event ι (Op α) (Res α W))}
  {c d e : Canon ι (List α) (Op α) (Res α W)} {l : List (ι × α)}

/-- A thread whose phase changes to one that holds and offers nothing, as it did before. -/
theorem Merge.update_phase {i : ι} {ph : Phase (Op α) (Res α W)} (hm : Merge k h d l)
    (hheld : held ph = held (d.phase i)) (hoff : offered ph = offered (d.phase i))
    (hpull : ph = .called .pull → i = k) :
    Merge k h { d with phase := update d.phase i ph } l where
  items := by
    rw [hm.items]
    by_cases hi : k = i
    · subst hi; simp only [update_self, hheld]
    · simp only [update_of_ne hi]
  producers j := by
    rw [hm.producers]
    by_cases hj : j = i
    · subst hj; simp only [update_self, hoff]
    · simp only [update_of_ne hj]
  only j := by
    by_cases hj : j = i
    · subst hj
      simp only [update_self, hheld]
      rintro (hph | hh)
      · exact hpull hph
      · exact hm.only j (.inr hh)
    · simp only [update_of_ne hj]
      exact hm.only j

/-- An item is put. -/
theorem Merge.put {i : ι} {x : α} (hm : Merge k h d l) (hi : d.phase i = .called (.push x)) :
    Merge k h ⟨d.obj ++ [x], update d.phase i (.done (.push x) (.pushed true))⟩
      (l ++ [(i, x)]) where
  items := by
    have hheld : held (update d.phase i (.done (.push x) (.pushed true)) k) = held (d.phase k) := by
      by_cases hk : k = i
      · subst hk; rw [update_self, hi]; rfl
      · rw [update_of_ne hk]
    dsimp only
    rw [List.map_append, hm.items, hheld, List.append_assoc, List.append_assoc, List.append_assoc]
    rfl
  producers j := by
    rw [ofProducer_append, hm.producers]
    dsimp only
    by_cases hj : j = i
    · subst hj
      rw [update_self, if_pos rfl, hi]
      simp [offered]
    · rw [update_of_ne hj, if_neg (Ne.symm hj), List.append_nil]
  only j := by
    dsimp only
    by_cases hj : j = i
    · subst hj; simp [held]
    · rw [update_of_ne hj]; exact hm.only j

/-- An item is taken. -/
theorem Merge.take {i : ι} {x : α} {rest : List α} (hm : Merge k h d l)
    (hi : d.phase i = .called .pull) (hobj : d.obj = x :: rest) :
    Merge k h ⟨rest, update d.phase i (.done .pull (.pulled (some x)))⟩ l := by
  obtain rfl : i = k := hm.only i (.inl hi)
  refine ⟨?_, fun j => ?_, fun j => ?_⟩
  · dsimp only
    rw [hm.items, hobj, hi, update_self]
    simp [held]
  · rw [hm.producers]
    dsimp only
    by_cases hj : j = i
    · subst hj; rw [update_self, hi]; rfl
    · rw [update_of_ne hj]
  · dsimp only
    by_cases hj : j = i
    · exact fun _ => hj
    · rw [update_of_ne hj]; exact hm.only j

/-- A thread returns with what it holds or offers. -/
theorem Merge.ret {i : ι} {o : Op α} {r : Res α W} (hm : Merge k h d l)
    (hi : d.phase i = .done o r) :
    Merge k (h ++ [.ret i o r]) { d with phase := update d.phase i .idle } l where
  items := by
    rw [hm.items, taken_append, ← held_done]
    by_cases hk : k = i
    · subst hk; simp only [update_self, hi]; simp [held]
    · have hnil : held (.done o r : Phase (Op α) (Res α W)) = [] := by
        by_contra hne
        exact hk (hm.only i (.inr (by rwa [hi]))).symm
      simp only [update_of_ne hk, hnil, List.append_nil]
  producers j := by
    rw [hm.producers, accepted_append]
    dsimp only
    by_cases hj : j = i
    · subst hj; rw [update_self, hi, offered_done j]; simp [offered]
    · simp only [update_of_ne hj, acceptedBy_ret_of_ne (Ne.symm hj), Option.toList_none,
        List.append_nil]
  only j := by
    dsimp only
    by_cases hj : j = i
    · subst hj; simp [held]
    · rw [update_of_ne hj]; exact hm.only j

theorem Merge.call {i : ι} {o : Op α} (hm : Merge k h d l) (hi : d.phase i = .idle)
    (hpull : o = .pull → i = k) :
    Merge k (h ++ [.call i o]) { d with phase := update d.phase i (.called o) } l := by
  have hm' : Merge k h { d with phase := update d.phase i (.called o) } l :=
    hm.update_phase (by rw [hi]; rfl) (by rw [hi]; rfl) fun ho => hpull (by injection ho)
  refine ⟨?_, fun j => ?_, hm'.only⟩
  · rw [hm'.items, taken_append]; simp [takenBy]
  · rw [hm'.producers, accepted_append]; simp [acceptedBy]

/-- **One consumer.** If only thread `k` calls `pull`, there is one order of the accepted items
that keeps the order of each producer, and of which `k` has taken a front part. -/
theorem exec_merge (hd : Exec (Relaxed N) (.quiet []) h d)
    (honly : ∀ i, Event.call i .pull ∈ h → i = k) : ∃ l, Merge k h d l := by
  induction hd with
  | nil => exact ⟨[], rfl, fun _ => rfl, fun i hi => by simp [Canon.quiet, held] at hi⟩
  | @snoc d e h ev _ hs ih =>
    obtain ⟨l, hm⟩ := ih fun i hi => honly i (List.mem_append_left _ hi)
    cases hs with
    | @call i o hi =>
      refine ⟨l, hm.call hi fun ho => honly i ?_⟩
      subst ho
      exact List.mem_append_right _ (List.mem_singleton.2 rfl)
    | @effect i o r s hi hM =>
      rw [Option.toList_none, List.append_nil]
      generalize hobj : d.obj = items at hM
      cases hM with
      | push _ x _ => subst hobj; exact ⟨_, hm.put hi⟩
      | full => subst hobj; exact ⟨l, hm.update_phase (by rw [hi]; rfl) (by rw [hi]; rfl) (by simp)⟩
      | pull _ x => exact ⟨l, hm.take hi hobj⟩
      | empty =>
        subst hobj
        exact ⟨l, hm.update_phase (by rw [hi]; rfl) (by rw [hi]; rfl) (by simp)⟩
      | available =>
        subst hobj
        exact ⟨l, hm.update_phase (by rw [hi]; rfl) (by rw [hi]; rfl) (by simp)⟩
    | @ret i o r hi => exact ⟨l, hm.ret hi⟩

end Fifo
