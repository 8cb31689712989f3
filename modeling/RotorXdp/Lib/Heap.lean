import Mathlib.Data.Finset.Card
import RotorXdp.Lib.Run

/-!
# The calls of an allocator

A program that allocates objects, frees them and sometimes loses the last pointer to one, as a list
of calls. Every object has a name of its own, so a name is allocated once.

* `Call`, `Heap`, `Heap.step`: the calls and the objects that are allocated, freed and lost; a call
  that the allocator does not allow has no next state;
* `callsOf`, `Heap.callsAt`: the calls about one object, and those that lead to its place;
* `callsOf_run`: in an allowed list of calls an object is allocated, and then freed or lost at most
  once.
-/

namespace Heaps

open Runs

variable {δ : Type*} [DecidableEq δ]

/-- An allocator call for object `d`, or the loss of the last pointer to it. -/
inductive Call (δ : Type*)
  | malloc (d : δ)
  | free (d : δ)
  | lose (d : δ)
  deriving DecidableEq

/-- The object that a call is about. -/
def Call.object : Call δ → δ
  | .malloc d => d
  | .free d => d
  | .lose d => d

structure Heap (δ : Type*) where
  /-- allocated, and something points to them -/
  live : Finset δ
  freed : Finset δ
  /-- allocated, and nothing points to them -/
  lost : Finset δ

namespace Heap

/-- The heap before the first call. -/
def empty : Heap δ := ⟨∅, ∅, ∅⟩

/-- Object `d` has been allocated. -/
def Used (h : Heap δ) (d : δ) : Prop := d ∈ h.live ∨ d ∈ h.freed ∨ d ∈ h.lost

instance (h : Heap δ) (d : δ) : Decidable (h.Used d) :=
  inferInstanceAs (Decidable (_ ∨ _ ∨ _))

/-- One call. -/
def step (h : Heap δ) : Call δ → Option (Heap δ)
  | .malloc d => if h.Used d then none else some { h with live := insert d h.live }
  | .free d =>
    if d ∈ h.live then some { h with live := h.live.erase d, freed := insert d h.freed } else none
  | .lose d =>
    if d ∈ h.live then some { h with live := h.live.erase d, lost := insert d h.lost } else none

variable {h h' : Heap δ} {c : Call δ} {d : δ}

theorem step_malloc (hd : ¬ h.Used d) :
    h.step (.malloc d) = some { h with live := insert d h.live } := if_neg hd

theorem step_free (hd : d ∈ h.live) :
    h.step (.free d) = some { h with live := h.live.erase d, freed := insert d h.freed } :=
  if_pos hd

theorem step_lose (hd : d ∈ h.live) :
    h.step (.lose d) = some { h with live := h.live.erase d, lost := insert d h.lost } :=
  if_pos hd

/-- What an allowed call does. -/
theorem step_cases (hstep : h.step c = some h') :
    (∃ d, c = .malloc d ∧ ¬ h.Used d ∧ h' = { h with live := insert d h.live }) ∨
    (∃ d, c = .free d ∧ d ∈ h.live ∧
      h' = { h with live := h.live.erase d, freed := insert d h.freed }) ∨
    ∃ d, c = .lose d ∧ d ∈ h.live ∧
      h' = { h with live := h.live.erase d, lost := insert d h.lost } := by
  cases c with
  | malloc d =>
    simp only [step] at hstep
    split at hstep
    · cases hstep
    · rename_i hd
      exact .inl ⟨d, rfl, hd, (Option.some.inj hstep).symm⟩
  | free d =>
    simp only [step] at hstep
    split at hstep
    · rename_i hd
      exact .inr (.inl ⟨d, rfl, hd, (Option.some.inj hstep).symm⟩)
    · cases hstep
  | lose d =>
    simp only [step] at hstep
    split at hstep
    · rename_i hd
      exact .inr (.inr ⟨d, rfl, hd, (Option.some.inj hstep).symm⟩)
    · cases hstep

end Heap

/-! ### The calls about one object -/

def callsOf (d : δ) (cs : List (Call δ)) : List (Call δ) := cs.filter fun c => c.object = d

/-- The calls about object `d` that lead to its place. -/
def Heap.callsAt (h : Heap δ) (d : δ) : List (Call δ) :=
  if d ∈ h.live then [.malloc d]
  else if d ∈ h.freed then [.malloc d, .free d]
  else if d ∈ h.lost then [.malloc d, .lose d]
  else []

variable {h h' : Heap δ} {c : Call δ} {cs : List (Call δ)} {d e : δ}

theorem callsOf_append_singleton (d : δ) (cs : List (Call δ)) (c : Call δ) :
    callsOf d (cs ++ [c]) = if c.object = d then callsOf d cs ++ [c] else callsOf d cs := by
  rw [callsOf, List.filter_append, List.filter_singleton]
  by_cases hc : c.object = d
  · rw [if_pos hc, decide_eq_true hc]
    rfl
  · rw [if_neg hc, decide_eq_false hc]
    exact List.append_nil _

theorem Heap.callsAt_of_live (hd : d ∈ h.live) : h.callsAt d = [.malloc d] := if_pos hd

theorem Heap.callsAt_of_unused (hd : ¬ h.Used d) : h.callsAt d = [] := by
  unfold Heap.Used at hd
  push Not at hd
  rw [callsAt, if_neg hd.1, if_neg hd.2.1, if_neg hd.2.2]

/-- The other objects stay where they are. -/
theorem Heap.callsAt_congr (hlive : d ∈ h'.live ↔ d ∈ h.live)
    (hfreed : d ∈ h'.freed ↔ d ∈ h.freed) (hlost : d ∈ h'.lost ↔ d ∈ h.lost) :
    h'.callsAt d = h.callsAt d := by
  simp only [callsAt, hlive, hfreed, hlost]

/-- An object that is live was not freed. -/
def Heap.Tidy (h : Heap δ) : Prop := Disjoint h.live h.freed

omit [DecidableEq δ] in
theorem Heap.Tidy.empty : (Heap.empty : Heap δ).Tidy := Finset.disjoint_empty_left ∅

theorem Heap.Tidy.step (ht : h.Tidy) (hstep : h.step c = some h') : h'.Tidy := by
  unfold Tidy at ht ⊢
  rcases Heap.step_cases hstep with ⟨d, rfl, hd, rfl⟩ | ⟨d, rfl, hd, rfl⟩ | ⟨d, rfl, hd, rfl⟩
  · exact Finset.disjoint_insert_left.2 ⟨fun hfreed => hd (.inr (.inl hfreed)), ht⟩
  · exact Finset.disjoint_insert_right.2
      ⟨Finset.notMem_erase d h.live, ht.mono_left (Finset.erase_subset d h.live)⟩
  · exact ht.mono_left (Finset.erase_subset d h.live)

/-- **A call is the next call about its object.** -/
theorem Heap.callsAt_step (ht : h.Tidy) (hstep : h.step c = some h') (e : δ) :
    h'.callsAt e = if c.object = e then h.callsAt e ++ [c] else h.callsAt e := by
  rcases Heap.step_cases hstep with ⟨d, rfl, hd, rfl⟩ | ⟨d, rfl, hd, rfl⟩ | ⟨d, rfl, hd, rfl⟩
  · by_cases hde : d = e
    · subst hde
      rw [Call.object, if_pos rfl, callsAt_of_unused hd]
      exact if_pos (Finset.mem_insert_self d h.live)
    · rw [Call.object, if_neg hde]
      exact callsAt_congr (Finset.mem_insert.trans (or_iff_right (Ne.symm hde))) Iff.rfl Iff.rfl
  · by_cases hde : d = e
    · subst hde
      rw [Call.object, if_pos rfl, callsAt_of_live hd, callsAt,
        if_neg (Finset.notMem_erase d h.live), if_pos (Finset.mem_insert_self d h.freed)]
      rfl
    · rw [Call.object, if_neg hde]
      exact callsAt_congr (Finset.mem_erase.trans (and_iff_right (Ne.symm hde)))
        (Finset.mem_insert.trans (or_iff_right (Ne.symm hde))) Iff.rfl
  · by_cases hde : d = e
    · subst hde
      rw [Call.object, if_pos rfl, callsAt_of_live hd, callsAt,
        if_neg (Finset.notMem_erase d h.live), if_neg (Finset.disjoint_left.1 ht hd),
        if_pos (Finset.mem_insert_self d h.lost)]
      rfl
    · rw [Call.object, if_neg hde]
      exact callsAt_congr (Finset.mem_erase.trans (and_iff_right (Ne.symm hde))) Iff.rfl
        (Finset.mem_insert.trans (or_iff_right (Ne.symm hde)))

/-- **An object is allocated once and then freed or lost at most once.** -/
theorem callsOf_run (pre : List (Call δ)) (ht : h.Tidy) (hpre : ∀ d, callsOf d pre = h.callsAt d)
    (hrun : run Heap.step h cs = some h') (d : δ) : callsOf d (pre ++ cs) = h'.callsAt d := by
  induction cs generalizing h pre with
  | nil =>
    cases hrun
    rw [List.append_nil]
    exact hpre d
  | cons c cs ih =>
    obtain ⟨h₁, hstep, hrest⟩ := run_cons_eq_some.1 hrun
    have hsplit : pre ++ c :: cs = pre ++ [c] ++ cs := by
      rw [List.append_assoc, List.singleton_append]
    rw [hsplit]
    refine ih _ (ht.step hstep) (fun e => ?_) hrest
    rw [callsOf_append_singleton, Heap.callsAt_step ht hstep, hpre e]

end Heaps
