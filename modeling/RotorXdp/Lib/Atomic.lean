import RotorXdp.Lib.Run
import Mathlib.Logic.Function.Basic

/-!
# Atomic objects

An object that several threads call at once is atomic when every call seems to take effect at one
instant between its call and its return. `Canon` is the automaton that does exactly this: a thread
calls an operation, later the operation takes effect on the state of the object, later the thread
returns with the answer. Only the calls and the returns are seen; a history is a list of them.

* `Meaning`: what an operation may answer and how it changes the state;
* `Canon.Step`, `Exec`: the automaton and its histories;
* `Linearizable`: a history of the automaton;
* `history`: the calls and returns along a run of an implementation;
* `exec_of_simulation`: an implementation whose steps the automaton can follow has only histories
  of the automaton.
-/

namespace Atomic

open Function Runs

variable {ι σ Op Res : Type*}

/-- A thread that is in no call, in a call that has not taken effect, in one that has. -/
inductive Phase (Op Res : Type*)
  | idle
  | called (o : Op)
  | done (o : Op) (r : Res)
  deriving DecidableEq

/-- What is seen of a call. -/
inductive Event (ι Op Res : Type*)
  | call (i : ι) (o : Op)
  | ret (i : ι) (o : Op) (r : Res)
  deriving DecidableEq

/-- An atomic object: with the threads in these phases and in state `s`, the operation `o` of
thread `i` may answer `r` and leave the state `s'`. -/
abbrev Meaning (ι σ Op Res : Type*) := (ι → Phase Op Res) → σ → ι → Op → Res → σ → Prop

/-- The state of the object, and the phases of the threads. -/
structure Canon (ι σ Op Res : Type*) where
  obj : σ
  phase : ι → Phase Op Res

/-- No thread is in a call. -/
def Canon.quiet (s : σ) : Canon ι σ Op Res := ⟨s, fun _ => .idle⟩

variable [DecidableEq ι]

/-- A step of the automaton with what is seen of it. -/
inductive Canon.Step (M : Meaning ι σ Op Res) :
    Canon ι σ Op Res → Option (Event ι Op Res) → Canon ι σ Op Res → Prop
  | call {c : Canon ι σ Op Res} {i : ι} (o : Op) (h : c.phase i = .idle) :
      Step M c (some (.call i o)) { c with phase := update c.phase i (.called o) }
  | effect {c : Canon ι σ Op Res} {i : ι} {o : Op} {r : Res} {s : σ}
      (h : c.phase i = .called o) (hM : M c.phase c.obj i o r s) :
      Step M c none ⟨s, update c.phase i (.done o r)⟩
  | ret {c : Canon ι σ Op Res} {i : ι} {o : Op} {r : Res} (h : c.phase i = .done o r) :
      Step M c (some (.ret i o r)) { c with phase := update c.phase i .idle }

/-- `c` can become `d` with the history `h`. -/
inductive Exec (M : Meaning ι σ Op Res) :
    Canon ι σ Op Res → List (Event ι Op Res) → Canon ι σ Op Res → Prop
  | nil (c : Canon ι σ Op Res) : Exec M c [] c
  | snoc {c d e : Canon ι σ Op Res} {h : List (Event ι Op Res)} {ev : Option (Event ι Op Res)}
      (hd : Exec M c h d) (hs : Canon.Step M d ev e) : Exec M c (h ++ ev.toList) e

/-- A history of the object that starts in `s`. -/
def Linearizable (M : Meaning ι σ Op Res) (s : σ) (h : List (Event ι Op Res)) : Prop :=
  ∃ d, Exec M (.quiet s) h d

variable {M : Meaning ι σ Op Res} {c d e : Canon ι σ Op Res} {h h' : List (Event ι Op Res)}

theorem Exec.trans (hcd : Exec M c h d) (hde : Exec M d h' e) : Exec M c (h ++ h') e := by
  induction hde with
  | nil => rwa [List.append_nil]
  | snoc _ hs ih =>
    rw [← List.append_assoc]
    exact ih.snoc hs

theorem Exec.single {ev : Option (Event ι Op Res)} (hs : Canon.Step M c ev d) :
    Exec M c ev.toList d :=
  (Exec.nil c).snoc hs

/-- A call that takes effect while nothing is seen. -/
theorem Exec.effect {i : ι} {o : Op} {r : Res} {s : σ} (h : c.phase i = .called o)
    (hM : M c.phase c.obj i o r s) : Exec M c [] ⟨s, update c.phase i (.done o r)⟩ :=
  Exec.single (.effect h hM)

/-- A call that nothing interrupts. -/
theorem Exec.round {i : ι} {o : Op} {r : Res} {s s' : σ}
    (hM : M (update (fun _ => .idle) i (.called o)) s i o r s') :
    Exec M (.quiet s) [.call i o, .ret i o r] (.quiet s') := by
  have hcall : Canon.Step M (.quiet s) (some (.call i o))
      ⟨s, update (fun _ => .idle) i (.called o)⟩ := .call o rfl
  have heff : Canon.Step M ⟨s, update (fun _ => .idle) i (.called o)⟩ none
      ⟨s', update (update (fun _ => .idle) i (.called o)) i (.done o r)⟩ :=
    .effect (by simp only [update_self]) hM
  have hret : Canon.Step M ⟨s', update (update (fun _ => .idle) i (.called o)) i (.done o r)⟩
      (some (.ret i o r)) (.quiet s') := by
    have hidle : update (update (update (fun _ : ι => Phase.idle) i (.called o)) i (.done o r)) i
        (.idle : Phase Op Res) = fun _ => .idle := by
      rw [update_idem, update_idem, update_eq_self_iff]
    have hstep := Canon.Step.ret (M := M)
      (c := ⟨s', update (update (fun _ => .idle) i (.called o)) i (.done o r)⟩)
      (i := i) (o := o) (r := r) (by simp only [update_self])
    rwa [hidle] at hstep
  exact (((Exec.nil _).snoc hcall).snoc heff).snoc hret

/-! ### Implementations -/

variable {S A : Type*} (step : S → A → Option S) (event : S → A → Option (Event ι Op Res))

/-- What is seen along a run. -/
def history : S → List A → List (Event ι Op Res)
  | _, [] => []
  | s, a :: as => (event s a).toList ++ ((step s a).map fun t => history t as).getD []

omit [DecidableEq ι] in
theorem history_cons {s t : S} {a : A} (ha : step s a = some t) (as : List A) :
    history step event s (a :: as) = (event s a).toList ++ history step event t as := by
  simp only [history, ha, Option.map_some, Option.getD_some]

variable {step event}

omit [DecidableEq ι] in
/-- What is seen along a run is seen of one of its steps. -/
theorem exists_of_mem_history {C : S → A → Prop} {s : S} {as : List A} (hC : Along step C s as)
    {ev : Event ι Op Res} (hev : ev ∈ history step event s as) :
    ∃ t a, C t a ∧ event t a = some ev := by
  induction as generalizing s with
  | nil => exact absurd hev (by simp [history])
  | cons a as ih =>
    rcases List.mem_append.1 hev with h | h
    · exact ⟨s, a, hC.1, Option.mem_toList.1 h⟩
    · cases ht : step s a with
      | none => rw [ht] at h; exact absurd h (by simp)
      | some t =>
        rw [ht] at h
        exact ih (hC.2 t ht) h

/-- **Forward simulation.** If the automaton can follow every step that is taken under `C`, with
the same call or return seen, it can follow every run whose steps are taken under `C`. -/
theorem exec_of_simulation {C : S → A → Prop} (R : S → Canon ι σ Op Res → Prop)
    (hstep : ∀ s a t c, R s c → C s a → step s a = some t →
      ∃ d, Exec M c (event s a).toList d ∧ R t d)
    {s t : S} {as : List A} (hs : R s c) (hC : Along step C s as) (hrun : run step s as = some t) :
    ∃ d, Exec M c (history step event s as) d ∧ R t d := by
  induction as generalizing s c with
  | nil =>
    cases hrun
    exact ⟨c, .nil c, hs⟩
  | cons a as ih =>
    obtain ⟨u, hu, hrest⟩ := run_cons_eq_some.1 hrun
    obtain ⟨d, hcd, hud⟩ := hstep s a u c hs hC.1 hu
    obtain ⟨e, hde, hte⟩ := ih hud (hC.2 u hu) hrest
    refine ⟨e, ?_, hte⟩
    rw [history_cons step event hu]
    exact hcd.trans hde

end Atomic
