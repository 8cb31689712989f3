import RotorXdp.Lib.Heap
import RotorXdp.Lib.Pipeline

/-!
# A pipeline whose items hold objects of the heap

When a source handles an item it allocates an object for it. The object of an item that a queue
accepts is freed when a server pulls the item, and that of a discarded item at once, unless it is
lost. The name of an object is that of its item: the source and the number.

* `Pipeline.Ends`, `queue_name_ne`, `queue_unique`: the items in the queues have different names;
* `Leased`: the calls of one step;
* `Fits`: the heap has a live object for each item in a queue and no other;
* `Fits.leased`: the calls of a step are allowed and keep this.
-/

namespace Pipelines

open Function Heaps Runs

variable {σ κ τ α β : Type*} {W : Wires σ κ τ α β} {s s' : Pipeline σ κ τ α β}

/-- The source and the number of an item. -/
def Wires.name (W : Wires σ κ τ α β) (x : α) : σ × ℕ := (W.origin x, W.number x)

/-! ### What is in the queues -/

/-- A queue is the end of what it has accepted. -/
def Pipeline.Ends (s : Pipeline σ κ τ α β) : Prop := ∀ k, s.queue k <:+ s.accepted k

theorem Pipeline.Ends.empty : (Pipeline.empty : Pipeline σ κ τ α β).Ends :=
  fun _ => List.suffix_rfl

theorem Pipeline.Ends.step [DecidableEq σ] [DecidableEq κ] [DecidableEq τ] (h : s.Ends)
    (hstep : Pipeline.Step W s s') : s'.Ends := by
  cases hstep with
  | supply | discard | call | flush => exact h
  | accept a k x y rest hpending horigin hnumber haccepts =>
    intro j
    by_cases hj : j = k
    · subst hj
      simp only [update_self]
      exact List.suffix_append_self_iff.2 (h j)
    · simp only [update_of_ne hj]
      exact h j
  | pull t k x rest e hdrains hqueue hsource hitem hemits hcap =>
    intro j
    by_cases hj : j = k
    · subst hj
      simp only [update_self]
      refine List.IsSuffix.trans ?_ (h j)
      rw [hqueue]
      exact List.suffix_cons x rest
    · simp only [update_of_ne hj]
      exact h j

/-! ### The heap of a pipeline -/

/-- The heap has a live object for each item in a queue and no other. -/
structure Fits (W : Wires σ κ τ α β) (L : σ × ℕ → Prop) (s : Pipeline σ κ τ α β)
    (h : Heap (σ × ℕ)) : Prop where
  live : ∀ d, d ∈ h.live ↔ ∃ k, ∃ x ∈ s.queue k, W.name x = d
  lost : ∀ d ∈ h.lost, L d
  used_lt : ∀ d, h.Used d → d.2 < s.received d.1
  used_pending : ∀ d, h.Used d → ∀ x ∈ s.pending d.1, d.2 < W.number x

variable {L : σ × ℕ → Prop} {h h' : Heap (σ × ℕ)} {a : σ} {x : α} {rest : List α}

theorem Fits.empty (W : Wires σ κ τ α β) (L : σ × ℕ → Prop) :
    Fits W L Pipeline.empty Heap.empty := by
  have hunused : ∀ d, ¬ (Heap.empty : Heap (σ × ℕ)).Used d := by
    intro d hd
    rcases hd with hd | hd | hd <;> exact absurd hd (Finset.notMem_empty d)
  refine ⟨fun d => ⟨fun hd => absurd hd (Finset.notMem_empty d), ?_⟩,
    fun d hd => absurd hd (Finset.notMem_empty d), fun d hd => absurd hd (hunused d),
    fun d hd => absurd hd (hunused d)⟩
  rintro ⟨k, x, hx, -⟩
  exact absurd hx List.not_mem_nil

/-- More objects may be lost. -/
theorem Fits.mono {L' : σ × ℕ → Prop} (hf : Fits W L s h) (hL : ∀ d, L d → L' d) :
    Fits W L' s h :=
  { hf with lost := fun d hd => hL d (hf.lost d hd) }

theorem Fits.idle (hf : Fits W L s h) (hqueue : s'.queue = s.queue)
    (hreceived : ∀ a, s.received a ≤ s'.received a)
    (hpending : ∀ a, ∀ x ∈ s'.pending a, x ∈ s.pending a ∨ s.received a ≤ W.number x) :
    Fits W L s' h := by
  refine ⟨?_, hf.lost, ?_, ?_⟩
  · rw [hqueue]
    exact hf.live
  · intro d hd
    exact Nat.lt_of_lt_of_le (hf.used_lt d hd) (hreceived d.1)
  · intro d hd x hx
    rcases hpending d.1 x hx with hx | hle
    · exact hf.used_pending d hd x hx
    · exact Nat.lt_of_lt_of_le (hf.used_lt d hd) hle

variable [DecidableEq κ]

/-- No two items of a queue have one name. -/
theorem Pipeline.Inv.queue_name_ne (h : s.Inv W) (hends : s.Ends) (k : κ) :
    (s.queue k).Pairwise fun x y => W.name x ≠ W.name y := by
  refine List.Pairwise.imp ?_ ((h.accepted_sorted k).sublist (hends k).sublist)
  intro x y hlt hname
  obtain ⟨horigin, hnumber⟩ := Prod.mk.inj hname
  exact absurd hnumber (Nat.ne_of_lt (hlt horigin))

theorem Pipeline.Inv.queue_unique (h : s.Inv W) (hends : s.Ends) {j k : κ} {x y : α}
    (hx : x ∈ s.queue j) (hy : y ∈ s.queue k) (hname : W.name x = W.name y) : j = k :=
  h.accepted_one j k x ((hends j).mem hx) y ((hends k).mem hy) (Prod.mk.inj hname).1
    (Prod.mk.inj hname).2

/-- Once the first item of a queue is pulled its name is in no queue. -/
theorem Pipeline.Inv.name_ne_of_pulled (h : s.Inv W) (hends : s.Ends) {j k : κ} {x z : α}
    {rest : List α} (hqueue : s.queue k = x :: rest) (hz : z ∈ update s.queue k rest j) :
    W.name z ≠ W.name x := by
  intro hname
  have hzj : z ∈ s.queue j := mem_of_mem_update_tail hqueue hz
  have hxk : x ∈ s.queue k := by
    rw [hqueue]
    exact List.mem_cons_self
  obtain rfl := h.queue_unique hends hzj hxk hname
  rw [update_self] at hz
  have hdistinct := h.queue_name_ne hends j
  rw [hqueue, List.pairwise_cons] at hdistinct
  exact hdistinct.1 z hz hname.symm

/-- The name of an item that is to be handled is new. -/
theorem Fits.fresh (hf : Fits W L s h) (hinv : s.Inv W) (hpending : s.pending a = x :: rest) :
    ¬ h.Used (W.name x) := by
  intro hused
  have hx : x ∈ s.pending a := by
    rw [hpending]
    exact List.mem_cons_self
  have horigin : W.origin x = a := hinv.pending_origin a x hx
  exact Nat.lt_irrefl _ (hf.used_pending _ hused x (by rwa [Wires.name, horigin]))

/-! ### The calls of a step -/

variable [DecidableEq σ]

/-- The calls of a step, where the objects with a name in `L` may be lost. -/
inductive Leased (W : Wires σ κ τ α β) (L : σ × ℕ → Prop) (s : Pipeline σ κ τ α β) :
    List (Call (σ × ℕ)) → Pipeline σ κ τ α β → Prop
  /-- nothing is handled or pulled; the numbers given out are new -/
  | idle {t : Pipeline σ κ τ α β} (hqueue : t.queue = s.queue)
      (hreceived : ∀ a, s.received a ≤ t.received a)
      (hpending : ∀ a, ∀ x ∈ t.pending a, x ∈ s.pending a ∨ s.received a ≤ W.number x) :
      Leased W L s [] t
  | accept {t : Pipeline σ κ τ α β} (a : σ) (k : κ) (x y : α) (rest : List α)
      (hpending : s.pending a = x :: rest)
      (hname : W.name y = W.name x) (hreceived : t.received = s.received)
      (hrest : t.pending = update s.pending a rest)
      (hqueue : t.queue = update s.queue k (s.queue k ++ [y])) :
      Leased W L s [.malloc (W.name x)] t
  | reject {t : Pipeline σ κ τ α β} (a : σ) (x : α) (rest : List α)
      (hpending : s.pending a = x :: rest)
      (hreceived : t.received = s.received) (hrest : t.pending = update s.pending a rest)
      (hqueue : t.queue = s.queue) :
      Leased W L s [.malloc (W.name x), .free (W.name x)] t
  | lose {t : Pipeline σ κ τ α β} (a : σ) (x : α) (rest : List α)
      (hpending : s.pending a = x :: rest)
      (hlose : L (W.name x)) (hreceived : t.received = s.received)
      (hrest : t.pending = update s.pending a rest) (hqueue : t.queue = s.queue) :
      Leased W L s [.malloc (W.name x), .lose (W.name x)] t
  | pull {t : Pipeline σ κ τ α β} (k : κ) (x : α) (rest : List α) (hqueue : s.queue k = x :: rest)
      (hreceived : t.received = s.received) (hpending : t.pending = s.pending)
      (hrest : t.queue = update s.queue k rest) :
      Leased W L s [.free (W.name x)] t

/-- When an item is handled its name is the only one that comes to be used. -/
theorem Fits.handled (hf : Fits W L s h) (hinv : s.Inv W) (hpending : s.pending a = x :: rest)
    (hused : ∀ d, h'.Used d → d = W.name x ∨ h.Used d) (hreceived : s'.received = s.received)
    (hrest : s'.pending = update s.pending a rest) :
    (∀ d, h'.Used d → d.2 < s'.received d.1) ∧
      ∀ d, h'.Used d → ∀ y ∈ s'.pending d.1, d.2 < W.number y := by
  have hx : x ∈ s.pending a := by
    rw [hpending]
    exact List.mem_cons_self
  have horigin : W.origin x = a := hinv.pending_origin a x hx
  rw [hreceived, hrest]
  constructor
  · intro d hd
    rcases hused d hd with rfl | hd
    · rw [Wires.name, horigin]
      exact hinv.pending_lt a x hx
    · exact hf.used_lt d hd
  · intro d hd y hy
    rcases hused d hd with rfl | hd
    · rw [Wires.name, horigin, update_self] at hy
      have hsorted := hinv.pending_sorted a
      rw [hpending, List.pairwise_cons] at hsorted
      exact hsorted.1 y hy
    · exact hf.used_pending d hd y (mem_of_mem_update_tail hpending hy)

theorem Fits.accept (hf : Fits W L s h) (hinv : s.Inv W) {k : κ} {y : α}
    (hpending : s.pending a = x :: rest) (hname : W.name y = W.name x)
    (hreceived : s'.received = s.received) (hrest : s'.pending = update s.pending a rest)
    (hqueue : s'.queue = update s.queue k (s.queue k ++ [y])) :
    Fits W L s' { h with live := insert (W.name x) h.live } := by
  have hused : ∀ d, Heap.Used { h with live := insert (W.name x) h.live } d →
      d = W.name x ∨ h.Used d := by
    rintro d (hd | hd | hd)
    · exact (Finset.mem_insert.1 hd).imp_right .inl
    · exact .inr (.inr (.inl hd))
    · exact .inr (.inr (.inr hd))
  obtain ⟨hlt, hlate⟩ := hf.handled hinv hpending hused hreceived hrest
  refine ⟨fun d => ?_, hf.lost, hlt, hlate⟩
  rw [Finset.mem_insert, hf.live, hqueue]
  constructor
  · rintro (rfl | ⟨j, z, hz, rfl⟩)
    · refine ⟨k, y, ?_, hname⟩
      rw [update_self]
      exact List.mem_append_right _ List.mem_cons_self
    · refine ⟨j, z, ?_, rfl⟩
      by_cases hj : j = k
      · subst hj
        rw [update_self]
        exact List.mem_append_left _ hz
      · rwa [update_of_ne hj]
  · rintro ⟨j, z, hz, rfl⟩
    rcases mem_update_append hz with hz | ⟨-, hzy⟩
    · exact .inr ⟨j, z, hz, rfl⟩
    · rw [List.mem_singleton.1 hzy]
      exact .inl hname

/-- A discarded item leaves the live objects as they were. -/
theorem Fits.discard (hf : Fits W L s h) (hinv : s.Inv W) {freed lost : Finset (σ × ℕ)}
    (hpending : s.pending a = x :: rest) (hfreed : freed ⊆ insert (W.name x) h.freed)
    (hlost : lost ⊆ insert (W.name x) h.lost) (hlose : W.name x ∈ lost → L (W.name x))
    (hreceived : s'.received = s.received) (hrest : s'.pending = update s.pending a rest)
    (hqueue : s'.queue = s.queue) : Fits W L s' ⟨h.live, freed, lost⟩ := by
  have hused : ∀ d, Heap.Used ⟨h.live, freed, lost⟩ d → d = W.name x ∨ h.Used d := by
    rintro d (hd | hd | hd)
    · exact .inr (.inl hd)
    · exact (Finset.mem_insert.1 (hfreed hd)).imp_right fun hd => .inr (.inl hd)
    · exact (Finset.mem_insert.1 (hlost hd)).imp_right fun hd => .inr (.inr hd)
  obtain ⟨hlt, hlate⟩ := hf.handled hinv hpending hused hreceived hrest
  refine ⟨?_, fun d hd => ?_, hlt, hlate⟩
  · rw [hqueue]
    exact hf.live
  · rcases Finset.mem_insert.1 (hlost hd) with rfl | hold
    · exact hlose hd
    · exact hf.lost d hold

theorem Fits.pull (hf : Fits W L s h) (hinv : s.Inv W) (hends : s.Ends) {k : κ}
    (hqueue : s.queue k = x :: rest) (hreceived : s'.received = s.received)
    (hpending : s'.pending = s.pending) (hrest : s'.queue = update s.queue k rest) :
    Fits W L s' { h with
      live := h.live.erase (W.name x)
      freed := insert (W.name x) h.freed } := by
  have hx : W.name x ∈ h.live := by
    refine (hf.live _).2 ⟨k, x, ?_, rfl⟩
    rw [hqueue]
    exact List.mem_cons_self
  have hused : ∀ d, Heap.Used { h with
      live := h.live.erase (W.name x)
      freed := insert (W.name x) h.freed } d → h.Used d := by
    rintro d (hd | hd | hd)
    · exact .inl (Finset.mem_of_mem_erase hd)
    · rcases Finset.mem_insert.1 hd with rfl | hd
      · exact .inl hx
      · exact .inr (.inl hd)
    · exact .inr (.inr hd)
  refine ⟨fun d => ?_, hf.lost, ?_, ?_⟩
  · rw [Finset.mem_erase, hf.live, hrest]
    constructor
    · rintro ⟨hne, j, z, hz, rfl⟩
      refine ⟨j, z, ?_, rfl⟩
      by_cases hj : j = k
      · subst hj
        rw [hqueue, List.mem_cons] at hz
        rw [update_self]
        exact hz.resolve_left fun hzx => hne (congrArg W.name hzx)
      · rwa [update_of_ne hj]
    · rintro ⟨j, z, hz, rfl⟩
      exact ⟨hinv.name_ne_of_pulled hends hqueue hz, j, z, mem_of_mem_update_tail hqueue hz, rfl⟩
  · intro d hd
    rw [hreceived]
    exact hf.used_lt d (hused d hd)
  · intro d hd
    rw [hpending]
    exact hf.used_pending d (hused d hd)

/-- **The calls of a step are allowed, and the heap fits again.** -/
theorem Fits.leased {cs : List (Call (σ × ℕ))} (hf : Fits W L s h) (hinv : s.Inv W)
    (hends : s.Ends) (hl : Leased W L s cs s') :
    ∃ h', run Heap.step h cs = some h' ∧ Fits W L s' h' := by
  cases hl with
  | idle hqueue hreceived hpending => exact ⟨h, rfl, hf.idle hqueue hreceived hpending⟩
  | accept a k x y rest hpending hname hreceived hrest hqueue =>
    refine ⟨_, ?_, hf.accept hinv hpending hname hreceived hrest hqueue⟩
    rw [run_singleton, Heap.step_malloc (hf.fresh hinv hpending)]
  | reject a x rest hpending hreceived hrest hqueue =>
    have hnew := hf.fresh hinv hpending
    refine ⟨⟨h.live, insert (W.name x) h.freed, h.lost⟩, ?_, hf.discard hinv hpending
      (Finset.Subset.refl _) (Finset.subset_insert _ _) (fun hlost => ?_) hreceived hrest hqueue⟩
    · rw [run_cons_of_step (Heap.step_malloc hnew), run_singleton,
        Heap.step_free (Finset.mem_insert_self _ _)]
      simp only [Finset.erase_insert fun hlive => hnew (.inl hlive)]
    · exact absurd (.inr (.inr hlost)) hnew
  | lose a x rest hpending hlose hreceived hrest hqueue =>
    have hnew := hf.fresh hinv hpending
    refine ⟨⟨h.live, h.freed, insert (W.name x) h.lost⟩, ?_, hf.discard hinv hpending
      (Finset.subset_insert _ _) (Finset.Subset.refl _) (fun _ => hlose) hreceived hrest hqueue⟩
    rw [run_cons_of_step (Heap.step_malloc hnew), run_singleton,
      Heap.step_lose (Finset.mem_insert_self _ _)]
    simp only [Finset.erase_insert fun hlive => hnew (.inl hlive)]
  | pull k x rest hqueue hreceived hpending hrest =>
    have hx : W.name x ∈ h.live := by
      refine (hf.live _).2 ⟨k, x, ?_, rfl⟩
      rw [hqueue]
      exact List.mem_cons_self
    refine ⟨_, ?_, hf.pull hinv hends hqueue hreceived hpending hrest⟩
    rw [run_singleton, Heap.step_free hx]

end Pipelines
