import Mathlib.Data.List.Basic
import Mathlib.Data.List.Pairwise
import Mathlib.Logic.Function.Basic

/-!
# Sources, queues and servers

Each source receives numbered items and handles them one by one: an item goes to the end of some
queue, perhaps rewritten, or is discarded. Each queue is drained by at most one server, which pulls
items into a collector of bounded size, makes an entry of each and appends the whole collector to
what it has sent.

* `Pipeline`, `Pipeline.Step`: the state with its history, and what can happen;
* `Pipeline.Inv`, `Inv.step`: the invariant and its preservation;
* `Inv.precedes`, `Inv.once`, `Inv.somewhere`: entries leave in the order in which their items were
  received, one for each item;
* `Inv.emitted`: what the server guarantees of an entry holds of all that was sent.
-/

namespace Pipelines

open Function

variable {σ κ τ α β : Type*}

/-- The state: what is at each station, and what each queue has accepted and each server sent. -/
structure Pipeline (σ κ τ α β : Type*) where
  /-- the number of items received so far -/
  received : σ → ℕ
  /-- received and not yet handled -/
  pending : σ → List α
  queue : κ → List α
  accepted : κ → List α
  collector : τ → List β
  sent : τ → List β
  /-- the collector sizes at which servers stopped pulling -/
  calls : List ℕ

/-- How the stations are connected, and what they guarantee of items and entries. -/
structure Wires (σ κ τ α β : Type*) where
  /-- the source and the number of an item -/
  origin : α → σ
  number : α → ℕ
  /-- the queue and the item of an entry -/
  source : β → κ
  item : β → α
  drains : τ → κ → Prop
  drains_unique : ∀ t t' k, drains t k → drains t' k → t = t'
  accepts : κ → α → Prop
  emits : τ → β → Prop
  cap : ℕ

variable [DecidableEq κ] {W : Wires σ κ τ α β} {s s' : Pipeline σ κ τ α β}

/-- The items of the entries that come from queue `k`. -/
def itemsOf (W : Wires σ κ τ α β) (k : κ) (es : List β) : List α :=
  (es.filter fun e => W.source e = k).map W.item

@[simp] theorem itemsOf_append (k : κ) (es es' : List β) :
    itemsOf W k (es ++ es') = itemsOf W k es ++ itemsOf W k es' := by
  rw [itemsOf, List.filter_append, List.map_append]; rfl

theorem mem_itemsOf {k : κ} {es : List β} {x : α} :
    x ∈ itemsOf W k es ↔ ∃ e ∈ es, W.source e = k ∧ W.item e = x := by
  simp [itemsOf, and_assoc]

/-- What every reachable state satisfies. -/
structure Pipeline.Inv (W : Wires σ κ τ α β) (s : Pipeline σ κ τ α β) : Prop where
  /-- a queue and its server hold what the queue accepted, in order -/
  flow : ∀ t k, W.drains t k → s.accepted k = itemsOf W k (s.sent t ++ s.collector t) ++ s.queue k
  emitted : ∀ t, ∀ e ∈ s.sent t ++ s.collector t, W.emits t e
  accepts : ∀ k, ∀ x ∈ s.queue k, W.accepts k x
  pending_origin : ∀ a, ∀ x ∈ s.pending a, W.origin x = a
  pending_sorted : ∀ a, (s.pending a).Pairwise fun x y => W.number x < W.number y
  pending_lt : ∀ a, ∀ x ∈ s.pending a, W.number x < s.received a
  accepted_sorted : ∀ k, (s.accepted k).Pairwise fun x y =>
    W.origin x = W.origin y → W.number x < W.number y
  accepted_lt : ∀ k, ∀ x ∈ s.accepted k, W.number x < s.received (W.origin x)
  accepted_pending : ∀ k a, ∀ x ∈ s.accepted k, ∀ y ∈ s.pending a, W.origin x = a →
    W.number x < W.number y
  /-- no two queues accept an item -/
  accepted_one : ∀ j k, ∀ x ∈ s.accepted j, ∀ y ∈ s.accepted k, W.origin x = W.origin y →
    W.number x = W.number y → j = k
  collector_le : ∀ t, (s.collector t).length ≤ W.cap
  calls_le : ∀ c ∈ s.calls, c ≤ W.cap

/-- The state before anything happens. -/
def Pipeline.empty : Pipeline σ κ τ α β :=
  ⟨fun _ => 0, fun _ => [], fun _ => [], fun _ => [], fun _ => [], fun _ => [], []⟩

theorem Pipeline.Inv.empty (W : Wires σ κ τ α β) : (Pipeline.empty : Pipeline σ κ τ α β).Inv W := by
  constructor <;> simp [Pipeline.empty, itemsOf]

/-- What can happen. -/
inductive Pipeline.Step [DecidableEq σ] [DecidableEq τ] (W : Wires σ κ τ α β)
    (s : Pipeline σ κ τ α β) : Pipeline σ κ τ α β → Prop
  | supply (a : σ) (xs : List α) (hpending : s.pending a = []) (horigin : ∀ x ∈ xs, W.origin x = a)
      (hnumber : xs.Pairwise fun x y => W.number x < W.number y)
      (hrange : ∀ x ∈ xs, s.received a ≤ W.number x ∧ W.number x < s.received a + xs.length) :
      Pipeline.Step W s { s with
        received := update s.received a (s.received a + xs.length)
        pending := update s.pending a xs }
  | accept (a : σ) (k : κ) (x y : α) (rest : List α) (hpending : s.pending a = x :: rest)
      (horigin : W.origin y = W.origin x) (hnumber : W.number y = W.number x)
      (haccepts : W.accepts k y) :
      Pipeline.Step W s { s with
        pending := update s.pending a rest
        queue := update s.queue k (s.queue k ++ [y])
        accepted := update s.accepted k (s.accepted k ++ [y]) }
  | discard (a : σ) (x : α) (rest : List α) (hpending : s.pending a = x :: rest) :
      Pipeline.Step W s { s with pending := update s.pending a rest }
  | pull (t : τ) (k : κ) (x : α) (rest : List α) (e : β) (hdrains : W.drains t k)
      (hqueue : s.queue k = x :: rest) (hsource : W.source e = k) (hitem : W.item e = x)
      (hemits : W.accepts k x → W.emits t e) (hcap : (s.collector t).length < W.cap) :
      Pipeline.Step W s { s with
        queue := update s.queue k rest
        collector := update s.collector t (s.collector t ++ [e]) }
  | call (t : τ) :
      Pipeline.Step W s { s with calls := s.calls ++ [(s.collector t).length] }
  | flush (t : τ) :
      Pipeline.Step W s { s with
        sent := update s.sent t (s.sent t ++ s.collector t)
        collector := update s.collector t [] }

section Families

variable {ι γ : Type*} [DecidableEq ι] {f : ι → List γ} {i j : ι} {x z : γ} {xs : List γ}

/-- Where an item is after items were appended to one list of a family. -/
theorem mem_update_append (hz : z ∈ update f i (f i ++ xs) j) : z ∈ f j ∨ j = i ∧ z ∈ xs := by
  by_cases hj : j = i
  · subst hj
    rw [update_self, List.mem_append] at hz
    exact hz.imp_right fun h => ⟨rfl, h⟩
  · rw [update_of_ne hj] at hz
    exact .inl hz

/-- Taking the first item of one list of a family brings nothing new. -/
theorem mem_of_mem_update_tail (hi : f i = x :: xs) (hz : z ∈ update f i xs j) : z ∈ f j := by
  by_cases hj : j = i
  · subst hj
    rw [update_self] at hz
    rw [hi]
    exact List.mem_cons_of_mem x hz
  · rwa [update_of_ne hj] at hz

end Families

theorem Pipeline.Inv.supply [DecidableEq σ] (h : s.Inv W) {a : σ} {xs : List α}
    (hpending : s.pending a = []) (horigin : ∀ x ∈ xs, W.origin x = a)
    (hnumber : xs.Pairwise fun x y => W.number x < W.number y)
    (hrange : ∀ x ∈ xs, s.received a ≤ W.number x ∧ W.number x < s.received a + xs.length) :
    Pipeline.Inv W { s with
      received := update s.received a (s.received a + xs.length)
      pending := update s.pending a xs } := by
  have hle : ∀ b, s.received b ≤ update s.received a (s.received a + xs.length) b := by
    intro b
    by_cases hb : b = a
    · subst hb
      calc s.received b ≤ s.received b + xs.length := Nat.le_add_right _ _
        _ = _ := (update_self b _ s.received).symm
    · exact Nat.le_of_eq (update_of_ne hb _ _).symm
  refine ⟨h.flow, h.emitted, h.accepts, ?_, ?_, ?_, h.accepted_sorted, ?_, ?_, h.accepted_one,
    h.collector_le, h.calls_le⟩
  · intro b x hx
    by_cases hb : b = a
    · subst hb; exact horigin x (by simpa using hx)
    · exact h.pending_origin b x (by simpa [hb] using hx)
  · intro b
    by_cases hb : b = a
    · subst hb; simpa using hnumber
    · simpa [hb] using h.pending_sorted b
  · intro b x hx
    by_cases hb : b = a
    · subst hb
      simpa using (hrange x (by simpa using hx)).2
    · simpa [hb] using h.pending_lt b x (by simpa [hb] using hx)
  · intro k x hx
    exact Nat.lt_of_lt_of_le (h.accepted_lt k x hx) (hle _)
  · intro k b x hx y hy hxb
    by_cases hb : b = a
    · -- numbers given out now are above all numbers given out before
      subst hb
      have hlt := h.accepted_lt k x hx
      rw [hxb] at hlt
      exact Nat.lt_of_lt_of_le hlt (hrange y (by simpa using hy)).1
    · exact h.accepted_pending k b x hx y (by simpa [hb] using hy) hxb

theorem Pipeline.Inv.handled [DecidableEq σ] (h : s.Inv W) {a : σ} {x : α} {rest : List α}
    (hpending : s.pending a = x :: rest) :
    Pipeline.Inv W { s with pending := update s.pending a rest } := by
  have hmem : ∀ b, ∀ y ∈ update s.pending a rest b, y ∈ s.pending b := fun b y hy =>
    mem_of_mem_update_tail hpending hy
  refine ⟨h.flow, h.emitted, h.accepts, fun b y hy => h.pending_origin b y (hmem b y hy), ?_,
    fun b y hy => h.pending_lt b y (hmem b y hy), h.accepted_sorted, h.accepted_lt,
    fun k b y hy z hz => h.accepted_pending k b y hy z (hmem b z hz), h.accepted_one,
    h.collector_le, h.calls_le⟩
  intro b
  by_cases hb : b = a
  · subst hb
    have hsorted := h.pending_sorted b
    rw [hpending] at hsorted
    simpa using hsorted.of_cons
  · simpa [hb] using h.pending_sorted b

theorem Pipeline.Inv.accept [DecidableEq σ] (h : s.Inv W) {a : σ} {k : κ} {x y : α} {rest : List α}
    (hpending : s.pending a = x :: rest) (horigin : W.origin y = W.origin x)
    (hnumber : W.number y = W.number x) (haccepts : W.accepts k y) :
    Pipeline.Inv W { s with
      pending := update s.pending a rest
      queue := update s.queue k (s.queue k ++ [y])
      accepted := update s.accepted k (s.accepted k ++ [y]) } := by
  have hrest := h.handled hpending
  have hxa : x ∈ s.pending a := by rw [hpending]; exact List.mem_cons_self
  have hxorigin : W.origin y = a := horigin.trans (h.pending_origin a x hxa)
  -- an item that is still pending is in no queue
  have hfresh : ∀ j, ∀ z ∈ s.accepted j, W.origin z = W.origin y → W.number z ≠ W.number y := by
    intro j z hz hzy
    rw [hnumber]
    exact Nat.ne_of_lt (h.accepted_pending j a z hz x hxa (hzy.trans hxorigin))
  have hnew : ∀ j, ∀ z ∈ update s.accepted k (s.accepted k ++ [y]) j,
      z ∈ s.accepted j ∨ j = k ∧ z = y := by
    intro j z hz
    exact (mem_update_append hz).imp_right fun h => ⟨h.1, List.mem_singleton.1 h.2⟩
  refine ⟨?_, h.emitted, ?_, hrest.pending_origin, hrest.pending_sorted, hrest.pending_lt,
    ?_, ?_, ?_, ?_, h.collector_le, h.calls_le⟩
  · intro t j hd
    by_cases hj : j = k
    · subst hj
      simp only [update_self]
      rw [h.flow t j hd, List.append_assoc]
    · simp only [update_of_ne hj]
      exact h.flow t j hd
  · intro j z hz
    rcases mem_update_append hz with hz | ⟨rfl, hzy⟩
    · exact h.accepts j z hz
    · rw [List.mem_singleton.1 hzy]
      exact haccepts
  · intro j
    by_cases hj : j = k
    · subst hj
      simp only [update_self, List.pairwise_append]
      refine ⟨h.accepted_sorted j, List.pairwise_singleton _ _, fun z hz w hw hzw => ?_⟩
      rw [List.mem_singleton] at hw
      subst hw
      rw [hnumber]
      exact h.accepted_pending j a z hz x hxa (hzw.trans hxorigin)
    · simp only [update_of_ne hj]
      exact h.accepted_sorted j
  · intro j z hz
    rcases hnew j z hz with hz | ⟨-, rfl⟩
    · exact h.accepted_lt j z hz
    · simp only [hnumber, hxorigin]
      exact h.pending_lt a x hxa
  · intro j b z hz w hw hzb
    rcases hnew j z hz with hz | ⟨-, rfl⟩
    · exact hrest.accepted_pending j b z hz w hw hzb
    · -- the rest of the burst comes after the item just handled
      obtain rfl : b = a := hzb.symm.trans hxorigin
      have hsorted := h.pending_sorted b
      rw [hpending, List.pairwise_cons] at hsorted
      rw [hnumber]
      exact hsorted.1 w (by simpa using hw)
  · intro i j z hz w hw horig hnum
    rcases hnew i z hz with hzi | ⟨hi, hzy⟩
    · rcases hnew j w hw with hwj | ⟨-, rfl⟩
      · exact h.accepted_one i j z hzi w hwj horig hnum
      · exact absurd hnum (hfresh i z hzi horig)
    · rcases hnew j w hw with hwj | ⟨hj, -⟩
      · subst hzy
        exact absurd hnum.symm (hfresh j w hwj horig.symm)
      · exact hi.trans hj.symm

theorem Pipeline.Inv.pull [DecidableEq τ] (h : s.Inv W) {t : τ} {k : κ} {x : α} {rest : List α}
    {e : β} (hdrains : W.drains t k) (hqueue : s.queue k = x :: rest) (hsource : W.source e = k)
    (hitem : W.item e = x) (hemits : W.accepts k x → W.emits t e)
    (hcap : (s.collector t).length < W.cap) :
    Pipeline.Inv W { s with
      queue := update s.queue k rest
      collector := update s.collector t (s.collector t ++ [e]) } := by
  have hxk : x ∈ s.queue k := by rw [hqueue]; exact List.mem_cons_self
  refine ⟨?_, ?_, ?_, h.pending_origin, h.pending_sorted, h.pending_lt, h.accepted_sorted,
    h.accepted_lt, h.accepted_pending, h.accepted_one, ?_, h.calls_le⟩
  · intro u j hd
    simp only
    by_cases hj : j = k
    · subst hj
      obtain rfl := W.drains_unique u t j hd hdrains
      have he : itemsOf W j [e] = [x] := by simp [itemsOf, hsource, hitem]
      rw [update_self, update_self, h.flow u j hd, hqueue, ← List.append_assoc, itemsOf_append,
        itemsOf_append, itemsOf_append, he, List.append_assoc, List.append_assoc,
        List.append_assoc]
      rfl
    · rw [update_of_ne hj]
      by_cases hu : u = t
      · subst hu
        have he : itemsOf W j [e] = [] := by simp [itemsOf, hsource, Ne.symm hj]
        rw [update_self, h.flow u j hd]
        simp only [itemsOf_append, he, List.append_nil]
      · rw [update_of_ne hu]
        exact h.flow u j hd
  · intro u e' he'
    by_cases hu : u = t
    · subst hu
      simp only [update_self] at he'
      rw [← List.append_assoc, List.mem_append, List.mem_singleton] at he'
      rcases he' with he' | rfl
      · exact h.emitted u e' he'
      · exact hemits (h.accepts k x hxk)
    · simp only [update_of_ne hu] at he'
      exact h.emitted u e' he'
  · intro j z hz
    exact h.accepts j z (mem_of_mem_update_tail hqueue hz)
  · intro u
    by_cases hu : u = t
    · subst hu
      simp only [update_self, List.length_append, List.length_singleton]
      exact hcap
    · simp only [update_of_ne hu]
      exact h.collector_le u

theorem Pipeline.Inv.call (h : s.Inv W) (t : τ) :
    Pipeline.Inv W { s with calls := s.calls ++ [(s.collector t).length] } := by
  refine { h with calls_le := fun c hc => ?_ }
  rw [List.mem_append, List.mem_singleton] at hc
  rcases hc with hc | rfl
  · exact h.calls_le c hc
  · exact h.collector_le t

theorem Pipeline.Inv.flush [DecidableEq τ] (h : s.Inv W) (t : τ) :
    Pipeline.Inv W { s with
      sent := update s.sent t (s.sent t ++ s.collector t)
      collector := update s.collector t [] } := by
  have hsame : ∀ u, update s.sent t (s.sent t ++ s.collector t) u ++ update s.collector t [] u =
      s.sent u ++ s.collector u := by
    intro u
    by_cases hu : u = t
    · subst hu; simp
    · simp [hu]
  refine { h with
    flow := fun u k hd => ?_
    emitted := fun u e he => ?_
    collector_le := fun u => ?_ }
  · simp only [hsame]
    exact h.flow u k hd
  · simp only [hsame] at he
    exact h.emitted u e he
  · by_cases hu : u = t
    · subst hu; simp
    · simpa [hu] using h.collector_le u

/-- **Every step keeps the invariant.** -/
theorem Pipeline.Inv.step [DecidableEq σ] [DecidableEq τ] (h : s.Inv W)
    (hstep : Pipeline.Step W s s') : s'.Inv W := by
  cases hstep with
  | supply a xs hpending horigin hnumber hrange => exact h.supply hpending horigin hnumber hrange
  | accept a k x y rest hpending horigin hnumber haccepts =>
    exact h.accept hpending horigin hnumber haccepts
  | discard a x rest hpending => exact h.handled hpending
  | pull t k x rest e hdrains hqueue hsource hitem hemits hcap =>
    exact h.pull hdrains hqueue hsource hitem hemits hcap
  | call t => exact h.call t
  | flush t => exact h.flush t

/-! ### The order in which entries are sent -/

section Order

variable {t : τ} {k : κ} {i j : ℕ} {e e' : β}

/-- `sent[i]` is the entry `e`, and it comes from queue `k`. -/
def SentAt (W : Wires σ κ τ α β) (s : Pipeline σ κ τ α β) (t : τ) (k : κ) (i : ℕ) (e : β) : Prop :=
  (s.sent t)[i]? = some e ∧ W.source e = k

/-- What the queue accepted, cut at an entry that was sent. -/
theorem Pipeline.Inv.split (h : s.Inv W) (hd : W.drains t k) (he : SentAt W s t k j e) :
    ∃ l r r', s.sent t = l ++ e :: r ∧ l.length = j ∧
      s.accepted k = itemsOf W k l ++ W.item e :: r' := by
  obtain ⟨hj, hget⟩ := List.getElem?_eq_some_iff.1 he.1
  have hl : s.sent t = (s.sent t).take j ++ e :: (s.sent t).drop (j + 1) := by
    rw [← hget, List.getElem_cons_drop, List.take_append_drop]
  have hcons : ∀ r, itemsOf W k (e :: r) = W.item e :: itemsOf W k r := by
    intro r; simp [itemsOf, he.2]
  refine ⟨(s.sent t).take j, (s.sent t).drop (j + 1),
    itemsOf W k ((s.sent t).drop (j + 1) ++ s.collector t) ++ s.queue k, hl,
    by rw [List.length_take]; omega, ?_⟩
  rw [h.flow t k hd, hl, List.append_assoc, itemsOf_append, List.cons_append, hcons,
    List.append_assoc, ← hl]
  rfl

/-- **An item received before another one of its source leaves the queue before it.** -/
theorem Pipeline.Inv.precedes (h : s.Inv W) (hd : W.drains t k) {x : α} (hx : x ∈ s.accepted k)
    (he : SentAt W s t k j e) (horigin : W.origin x = W.origin (W.item e))
    (hlt : W.number x < W.number (W.item e)) :
    ∃ i < j, ∃ e', SentAt W s t k i e' ∧ W.item e' = x := by
  obtain ⟨l, r, r', hl, hlen, hacc⟩ := h.split hd he
  have hsorted := h.accepted_sorted k
  rw [hacc, List.pairwise_append, List.pairwise_cons] at hsorted
  rw [hacc, List.mem_append, List.mem_cons] at hx
  rcases hx with hx | rfl | hx
  · obtain ⟨e', he', hsource, hitem⟩ := mem_itemsOf.1 hx
    obtain ⟨i, hi, hget⟩ := List.getElem_of_mem he'
    refine ⟨i, by omega, e', ⟨?_, hsource⟩, hitem⟩
    rw [hl, List.getElem?_append_left hi, List.getElem?_eq_getElem hi, hget]
  · exact absurd hlt (Nat.lt_irrefl _)
  · exact absurd (hsorted.2.1.1 x hx horigin.symm) (by omega)

theorem Pipeline.Inv.mem_accepted (h : s.Inv W) (hd : W.drains t k) (he : SentAt W s t k j e) :
    W.item e ∈ s.accepted k := by
  obtain ⟨l, r, r', -, -, hacc⟩ := h.split hd he
  rw [hacc]
  exact List.mem_append_right _ List.mem_cons_self

/-- Of two entries from one queue the later one has the larger number. -/
theorem Pipeline.Inv.number_ne (h : s.Inv W) (hd : W.drains t k) (he : SentAt W s t k i e)
    (he' : SentAt W s t k j e') (horigin : W.origin (W.item e) = W.origin (W.item e'))
    (hij : i < j) : W.number (W.item e) ≠ W.number (W.item e') := by
  obtain ⟨l, r, r', hl, hlen, hacc⟩ := h.split hd he'
  have hsorted := h.accepted_sorted k
  rw [hacc, List.pairwise_append] at hsorted
  have hmem : e ∈ l := by
    have hget := he.1
    rw [hl, List.getElem?_append_left (by omega)] at hget
    exact List.mem_of_getElem? hget
  exact Nat.ne_of_lt (hsorted.2.2 (W.item e) (mem_itemsOf.2 ⟨e, hmem, he.2, rfl⟩) (W.item e')
    List.mem_cons_self horigin)

/-- **An item is sent once.** -/
theorem Pipeline.Inv.once (h : s.Inv W) {t' : τ} {k' : κ} (hd : W.drains t k)
    (hd' : W.drains t' k') (he : SentAt W s t k i e) (he' : SentAt W s t' k' j e')
    (horigin : W.origin (W.item e) = W.origin (W.item e'))
    (hnumber : W.number (W.item e) = W.number (W.item e')) : t = t' ∧ i = j := by
  obtain rfl := h.accepted_one k k' _ (h.mem_accepted hd he) _ (h.mem_accepted hd' he') horigin
    hnumber
  obtain rfl := W.drains_unique t t' k hd hd'
  refine ⟨rfl, ?_⟩
  rcases Nat.lt_trichotomy i j with hij | hij | hij
  · exact absurd hnumber (h.number_ne hd he he' horigin hij)
  · exact hij
  · exact absurd hnumber.symm (h.number_ne hd he' he horigin.symm hij)

/-- **An item that a queue accepted is in the queue, in the collector or sent.** -/
theorem Pipeline.Inv.somewhere (h : s.Inv W) (hd : W.drains t k) {x : α} (hx : x ∈ s.accepted k) :
    x ∈ s.queue k ∨ (∃ e ∈ s.collector t, W.source e = k ∧ W.item e = x) ∨
      ∃ i e, SentAt W s t k i e ∧ W.item e = x := by
  rw [h.flow t k hd, itemsOf_append, List.mem_append, List.mem_append, mem_itemsOf,
    mem_itemsOf] at hx
  rcases hx with (⟨e, he, hsource, hitem⟩ | hx) | hx
  · obtain ⟨i, hi⟩ := List.getElem?_of_mem he
    exact .inr (.inr ⟨i, e, ⟨hi, hsource⟩, hitem⟩)
  · exact .inr (.inl hx)
  · exact .inl hx

end Order

end Pipelines
