import Mathlib.Tactic.Basic
import Mathlib.Data.List.Basic
import Mathlib.Algebra.Ring.Nat

/-!
# Runs of a partial step function

A system is a function `step : σ → α → Option σ`: in state `s` the action `a` is either not
enabled (`none`) or leads to one next state. A run is a list of actions. An interleaving of
several parties is a run whose actions name the party that moves, so a statement about every
list of actions is a statement about every schedule.

* `run step s as`: the state after the actions `as`;
* `Along step C s as`: every step of the run is taken in a state and by an action that meet `C`;
* `run_invariant`, `run_invariant_along`: the induction over runs, without and with a condition
  on the steps;
* `run_invariant_cost`: the induction for an invariant that counts what the actions cost;
* `outputs`, `run_drives`: what a run puts out, and a second system that is driven by it;
* `run_lockstep`: a second system that makes the same steps.
-/

namespace Runs

variable {σ α : Type*} (step : σ → α → Option σ)

/-- The state after a list of actions, `none` when one of them is not enabled. -/
def run : σ → List α → Option σ
  | s, [] => some s
  | s, a :: as => (step s a).bind fun t => run t as

/-- `s` reaches `t` by some list of actions. -/
def Reaches (s t : σ) : Prop := ∃ as, run step s as = some t

/-- Every step of the run from `s` along `as` is taken under the condition `C`. -/
def Along (C : σ → α → Prop) : σ → List α → Prop
  | _, [] => True
  | s, a :: as => C s a ∧ ∀ t, step s a = some t → Along C t as

/-- A step function whose steps can go wrong, as a step function that stops there: `error` ends the
run, `ok none` is an action that is not enabled. -/
def sound {ε : Type*} (step : σ → α → Except ε (Option σ)) (s : σ) (a : α) : Option σ :=
  match step s a with
  | .ok t => t
  | .error _ => none

theorem sound_eq_some {ε : Type*} {step : σ → α → Except ε (Option σ)} {s t : σ} {a : α} :
    sound step s a = some t ↔ step s a = .ok (some t) := by
  unfold sound
  cases step s a <;> simp

variable {step}

@[simp] theorem run_nil (s : σ) : run step s [] = some s := rfl

theorem run_cons (s : σ) (a : α) (as : List α) :
    run step s (a :: as) = (step s a).bind fun t => run step t as := rfl

theorem run_cons_of_step {s t : σ} {a : α} (h : step s a = some t) (as : List α) :
    run step s (a :: as) = run step t as := by
  rw [run_cons, h]; rfl

theorem run_singleton (s : σ) (a : α) : run step s [a] = step s a := by
  rw [run_cons]
  cases step s a <;> rfl

theorem run_cons_eq_some {s u : σ} {a : α} {as : List α} :
    run step s (a :: as) = some u ↔ ∃ t, step s a = some t ∧ run step t as = some u := by
  rw [run_cons, Option.bind_eq_some_iff]

theorem run_append (s : σ) (as bs : List α) :
    run step s (as ++ bs) = (run step s as).bind fun t => run step t bs := by
  induction as generalizing s with
  | nil => rfl
  | cons a as ih =>
    rw [List.cons_append, run_cons, run_cons]
    cases step s a with
    | none => rfl
    | some t => exact ih t

theorem run_append_of_eq {s t : σ} {as : List α} (h : run step s as = some t) (bs : List α) :
    run step s (as ++ bs) = run step t bs := by
  rw [run_append, h]; rfl

theorem Reaches.refl (s : σ) : Reaches step s s := ⟨[], rfl⟩

theorem Reaches.single {s t : σ} {a : α} (h : step s a = some t) : Reaches step s t :=
  ⟨[a], by rw [run_singleton, h]⟩

theorem Reaches.trans {s t u : σ} (h : Reaches step s t) (h' : Reaches step t u) :
    Reaches step s u := by
  obtain ⟨as, has⟩ := h
  obtain ⟨bs, hbs⟩ := h'
  exact ⟨as ++ bs, by rw [run_append_of_eq has, hbs]⟩

theorem Reaches.tail {s t u : σ} {a : α} (h : Reaches step s t) (ha : step t a = some u) :
    Reaches step s u :=
  h.trans (Reaches.single ha)

/-- What the first state satisfies and each step taken under `C` preserves holds after every run
whose steps are all taken under `C`. -/
theorem run_invariant_along {C : σ → α → Prop} (I : σ → Prop)
    (hstep : ∀ s a t, I s → C s a → step s a = some t → I t) {s t : σ} {as : List α}
    (hs : I s) (hC : Along step C s as) (h : run step s as = some t) : I t := by
  induction as generalizing s with
  | nil => cases h; exact hs
  | cons a as ih =>
    obtain ⟨u, hu, hrest⟩ := run_cons_eq_some.1 h
    exact ih (hstep s a u hs hC.1 hu) (hC.2 u hu) hrest

/-- A condition on the actions alone. -/
theorem Along.of_forall {C : σ → α → Prop} {s : σ} {as : List α} (h : ∀ a ∈ as, ∀ s, C s a) :
    Along step C s as := by
  induction as generalizing s with
  | nil => trivial
  | cons a as ih =>
    refine ⟨h a List.mem_cons_self s, fun t _ => ih fun b hb => ?_⟩
    exact h b (List.mem_cons_of_mem a hb)

theorem Along.mono {C D : σ → α → Prop} (h : ∀ s a, C s a → D s a) {s : σ} {as : List α}
    (hC : Along step C s as) : Along step D s as := by
  induction as generalizing s with
  | nil => trivial
  | cons a as ih => exact ⟨h s a hC.1, fun t ht => ih (hC.2 t ht)⟩

/-- A condition along a run can be checked step by step. -/
instance Along.decidable {C : σ → α → Prop} [∀ s a, Decidable (C s a)] :
    ∀ (s : σ) (as : List α), Decidable (Along step C s as)
  | _, [] => isTrue trivial
  | s, a :: as =>
    match h : step s a with
    | none => decidable_of_iff (C s a) ⟨fun hC => ⟨hC, fun t ht => by simp [h] at ht⟩, And.left⟩
    | some t =>
      have := Along.decidable (C := C) t as
      decidable_of_iff (C s a ∧ Along step C t as)
        (and_congr_right fun _ => ⟨fun hC u hu => by rw [h] at hu; cases hu; exact hC,
          fun hC => hC t h⟩)

/-- The unconditional case of `run_invariant_along`. -/
theorem run_invariant (I : σ → Prop) (hstep : ∀ s a t, I s → step s a = some t → I t)
    {s t : σ} {as : List α} (hs : I s) (h : run step s as = some t) : I t :=
  run_invariant_along (C := fun _ _ => True) I (fun s a t hs _ => hstep s a t hs) hs
    (Along.of_forall fun _ _ _ => trivial) h

/-- An invariant with a parameter that every action raises by its cost. -/
theorem run_invariant_cost (I : ℕ → σ → Prop) (cost : α → ℕ)
    (hstep : ∀ p s a t, I p s → step s a = some t → I (p + cost a) t) {p : ℕ} {s t : σ}
    {as : List α} (hs : I p s) (h : run step s as = some t) : I (p + (as.map cost).sum) t := by
  induction as generalizing s p with
  | nil => cases h; exact hs
  | cons a as ih =>
    obtain ⟨u, hu, hrest⟩ := run_cons_eq_some.1 h
    rw [List.map_cons, List.sum_cons, ← Nat.add_assoc]
    exact ih (hstep p s a u hs hu) hrest

/-! ### One system driving another -/

variable {υ β : Type*} {step' : υ → β → Option υ} {out : σ → α → List β}

/-- What the actions of a run put out, up to the first that is not enabled. -/
def outputs (step : σ → α → Option σ) (out : σ → α → List β) : σ → List α → List β
  | _, [] => []
  | s, a :: as =>
    match step s a with
    | none => []
    | some t => out s a ++ outputs step out t as

/-- If the outputs of every step are a run of the second system between states that fit, so are the
outputs of a run. What fits may depend on what has been noted of the actions so far. -/
theorem run_drives {ρ : Type*} (I : ρ → σ → υ → Prop) (note : ρ → α → ρ)
    (hstep : ∀ r s a t u, I r s u → step s a = some t →
      ∃ v, run step' u (out s a) = some v ∧ I (note r a) t v)
    {r : ρ} {s t : σ} {u : υ} {as : List α} (hs : I r s u) (h : run step s as = some t) :
    ∃ v, run step' u (outputs step out s as) = some v ∧ I (as.foldl note r) t v := by
  induction as generalizing r s u with
  | nil =>
    cases h
    exact ⟨u, rfl, hs⟩
  | cons a as ih =>
    obtain ⟨s₁, hs₁, hrest⟩ := run_cons_eq_some.1 h
    obtain ⟨u₁, hu₁, hI⟩ := hstep r s a s₁ u hs hs₁
    obtain ⟨v, hv, hI'⟩ := ih hI hrest
    refine ⟨v, ?_, hI'⟩
    rw [outputs, hs₁]
    exact (run_append_of_eq hu₁ _).trans hv

/-- Two systems in lockstep: if a step of the one is always a step of the other, between states
that fit, so is a run. -/
theorem run_lockstep {β : Type*} {step' : υ → β → Option υ} {C : α → Prop} (I : σ → υ → Prop)
    (name : α → β)
    (hstep : ∀ s u a, I s u → C a → Option.Rel I (step s a) (step' u (name a)))
    {s : σ} {u : υ} {as : List α} (hs : I s u) (hC : ∀ a ∈ as, C a) :
    Option.Rel I (run step s as) (run step' u (as.map name)) := by
  induction as generalizing s u with
  | nil => exact .some hs
  | cons a as ih =>
    obtain ⟨ha, has⟩ := List.forall_mem_cons.1 hC
    have hrel := hstep s u a hs ha
    rw [List.map_cons, run_cons, run_cons]
    revert hrel
    generalize step s a = r, step' u (name a) = r'
    intro hrel
    cases hrel with
    | none => exact .none
    | some ht => exact ih ht has

end Runs
