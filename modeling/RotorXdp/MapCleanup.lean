import RotorXdp.MapOps
import RotorXdp.Lib.Run

/-!
# Maps that are cleaned up

`mg_map_cleanup` releases the block and sets `count` and `node_size` to 0, but it keeps the pointer
`data`, by which every function decides whether the map is live.

* `mgMapCleanup`, `MgMap.exec`: the calls on one map, with everything that they check;
* `CleanupLaw`: between a cleanup and the next initialisation the map answers as one that was never
  initialised;
* `LeftAlone`, `cleanupLaw_iff`: the sequences of calls for which that holds.
-/

namespace RotorXdp

open Bytes Runs

/-- `mg_map_cleanup`: the status and the map, `none` when a released block is freed again. -/
def mgMapCleanup (m : MgMap) : Option (ℤ × MgMap) :=
  match m.data with
  | .null => some (-2, m)
  | .live _ => some (0, ⟨0, 0, .freed⟩)
  | .freed => none

/-- A call on the map. An object is the bytes that the pointer refers to, or `NULL`. -/
inductive MapCall
  | init (valueSize initialCount : ℕ)
  | cleanup
  | add (key : ℕ) (object : Option (List UInt8))
  | set (key : ℕ) (object : Option (List UInt8))
  | get (key : ℕ)
  | del (key : ℕ)

/-- What a call returns: a status, or the offset of a value in the block. -/
inductive MapAnswer
  | status (code : ℤ)
  | pointer (value : Option ℕ)
  deriving DecidableEq

/-- `object == NULL` is looked at after the block and the key. -/
def MgMap.withObject (m : MgMap) (key : ℕ) (object : Option (List UInt8))
    (store : List UInt8 → Option (ℤ × MgMap)) : Option (ℤ × MgMap) :=
  match m.data, object with
  | .null, none => some (-2, m)
  | _, none => if key = 0 then some (-3, m) else some (-4, m)
  | _, some bytes => store bytes

/-- A call, `none` when it touches or frees a block that was released. -/
def MgMap.exec (m : MgMap) : MapCall → Option (MapAnswer × MgMap)
  | .init valueSize initialCount =>
    let r := mgMapInit m valueSize initialCount
    some (.status r.1, r.2)
  | .cleanup => (mgMapCleanup m).map fun r => (.status r.1, r.2)
  | .add key object => (m.withObject key object (mgMapAdd m key)).map fun r => (.status r.1, r.2)
  | .set key object => (m.withObject key object (mgMapSet m key)).map fun r => (.status r.1, r.2)
  | .get key => some (.pointer (mgMapGet m key), m)
  | .del key =>
    let r := mgMapDel m key
    some (.status r.1, r.2)

/-! ### The law -/

/-- What a map without a block answers: initialising it succeeds unless a size is refused, the rest
is turned down for lack of data. -/
def MapCall.uninitialised : MapCall → MapAnswer
  | .init valueSize initialCount =>
    .status (if valueSize = 0 then -10 else if initialCount = 0 then -11 else 0)
  | .get _ => .pointer none
  | _ => .status (-2)

/-- Whether the map has been cleaned up and not been initialised since. -/
def MapCall.cleanedUp (cleaned : Bool) : MapCall → MapAnswer → Bool
  | .cleanup, .status 0 => true
  | .init _ _, .status 0 => false
  | _, _ => cleaned

/-- A call on a map, with the record of cleanups. -/
def cleanupStep (s : MgMap × Bool) (c : MapCall) : Option (MgMap × Bool) :=
  (s.1.exec c).map fun r => (r.2, c.cleanedUp s.2 r.1)

/-- On a map that was cleaned up a call is answered as on one that was never initialised. -/
def AnswersClean (s : MgMap × Bool) (c : MapCall) : Prop :=
  s.2 = true → (s.1.exec c).map Prod.fst = some c.uninitialised

/-- A cleaned-up map is an uninitialised map, in all calls on a map that is zero at first. -/
def CleanupLaw (calls : List MapCall) : Prop :=
  Along cleanupStep AnswersClean (MgMap.zero, false) calls

/-- A call that gives an uninitialised map its block. -/
def MapCall.Creates : MapCall → Prop
  | .init valueSize initialCount => valueSize ≠ 0 ∧ initialCount ≠ 0
  | _ => False

/-- A lookup, or an initialisation that is refused for its sizes. -/
def MapCall.Harmless : MapCall → Prop
  | .get _ => True
  | .init valueSize initialCount => valueSize = 0 ∨ initialCount = 0
  | _ => False

/-- After the cleanup of a map that has a block, only harmless calls follow. -/
def LeftAlone (calls : List MapCall) : Prop :=
  ∀ pre post, calls = pre ++ .cleanup :: post → (∃ c ∈ pre, c.Creates) → ∀ c ∈ post, c.Harmless

variable {m : MgMap} {d : Mem} {c : MapCall} {calls : List MapCall}

/-! ### The three states of a map -/

/-- Without a block, only an initialisation with sizes changes the map. -/
theorem cleanupStep_zero (h : ¬ c.Creates) :
    cleanupStep (MgMap.zero, false) c = some (MgMap.zero, false) := by
  cases c with
  | init valueSize initialCount =>
    simp only [cleanupStep, MgMap.exec, mgMapInit, MgMap.zero]
    split_ifs with hv hc
    · rfl
    · rfl
    · exact absurd ⟨hv, hc⟩ h
  | cleanup => rfl
  | add key object => cases object <;> rfl
  | set key object => cases object <;> rfl
  | get key => rfl
  | del key => rfl

theorem cleanupStep_zero_creates (h : c.Creates) :
    ∃ m d, cleanupStep (MgMap.zero, false) c = some (m, false) ∧ m.data = .live d := by
  cases c with
  | init valueSize initialCount =>
    refine ⟨⟨initialCount, valueSize + 4, .live fun _ => 0⟩, _, ?_, rfl⟩
    simp only [cleanupStep, MgMap.exec, mgMapInit, MgMap.zero, if_neg h.1, if_neg h.2]
    rfl
  | _ => exact absurd h id

theorem mgMapAdd_live (h : m.data = .live d) (key : ℕ) (object : List UInt8) :
    ∃ r d', mgMapAdd m key object = some r ∧ r.2.data = .live d' := by
  simp only [mgMapAdd, h]
  split
  · exact ⟨_, d, rfl, h⟩
  · split <;> exact ⟨_, _, rfl, rfl⟩

theorem mgMapSet_live (h : m.data = .live d) (key : ℕ) (object : List UInt8) :
    ∃ r d', mgMapSet m key object = some r ∧ r.2.data = .live d' := by
  simp only [mgMapSet, h]
  split
  · exact ⟨_, d, rfl, h⟩
  · split
    · obtain ⟨r, d', hadd, hr⟩ := mgMapAdd_live h key object
      refine ⟨(0, r.2), d', ?_, hr⟩
      rw [hadd]
      rfl
    · exact ⟨_, _, rfl, rfl⟩

theorem mgMapDel_live (h : m.data = .live d) (key : ℕ) :
    ∃ d', (mgMapDel m key).2.data = .live d' := by
  simp only [mgMapDel, h]
  split
  · exact ⟨d, h⟩
  · split
    · exact ⟨d, h⟩
    · exact ⟨_, rfl⟩

theorem withObject_live (h : m.data = .live d) (key : ℕ) (object : Option (List UInt8))
    {store : List UInt8 → Option (ℤ × MgMap)}
    (hstore : ∀ bytes, ∃ r d', store bytes = some r ∧ r.2.data = .live d') :
    ∃ r d', m.withObject key object store = some r ∧ r.2.data = .live d' := by
  cases object with
  | none =>
    simp only [MgMap.withObject, h]
    split <;> exact ⟨_, d, rfl, h⟩
  | some bytes =>
    simp only [MgMap.withObject, h]
    exact hstore bytes

/-- A live map stays live until it is cleaned up. -/
theorem cleanupStep_live (h : m.data = .live d) (hc : c ≠ .cleanup) :
    ∃ m' d', cleanupStep (m, false) c = some (m', false) ∧ m'.data = .live d' := by
  cases c with
  | init valueSize initialCount =>
    refine ⟨m, d, ?_, h⟩
    simp only [cleanupStep, MgMap.exec, mgMapInit, h]
    split_ifs <;> rfl
  | cleanup => exact absurd rfl hc
  | add key object =>
    obtain ⟨r, d', hr, hlive⟩ := withObject_live h key object (mgMapAdd_live h key)
    refine ⟨r.2, d', ?_, hlive⟩
    simp only [cleanupStep, MgMap.exec, hr]
    rfl
  | set key object =>
    obtain ⟨r, d', hr, hlive⟩ := withObject_live h key object (mgMapSet_live h key)
    refine ⟨r.2, d', ?_, hlive⟩
    simp only [cleanupStep, MgMap.exec, hr]
    rfl
  | get key => exact ⟨m, d, rfl, h⟩
  | del key =>
    obtain ⟨d', hlive⟩ := mgMapDel_live h key
    exact ⟨_, d', rfl, hlive⟩

/-- A map whose block was released. -/
def MgMap.released : MgMap := ⟨0, 0, .freed⟩

theorem cleanupStep_cleanup (h : m.data = .live d) :
    cleanupStep (m, false) .cleanup = some (MgMap.released, true) := by
  simp only [cleanupStep, MgMap.exec, mgMapCleanup, h]
  rfl

theorem exec_released (h : c.Harmless) :
    MgMap.released.exec c = some (c.uninitialised, MgMap.released) := by
  cases c with
  | init valueSize initialCount =>
    simp only [MgMap.exec, mgMapInit, MapCall.uninitialised]
    split_ifs with hv hc
    · rfl
    · rfl
    · exact absurd h (not_or.2 ⟨hv, hc⟩)
  | get key => rfl
  | _ => exact absurd h id

/-- Every other call on a released map gives another answer, or none at all. -/
theorem exec_released_ne (h : ¬ c.Harmless) :
    (MgMap.released.exec c).map Prod.fst ≠ some c.uninitialised := by
  cases c with
  | init valueSize initialCount =>
    obtain ⟨hv, hc⟩ := not_or.1 h
    simp [MgMap.exec, mgMapInit, MapCall.uninitialised, MgMap.released, hv, hc]
  | cleanup => exact Option.some_ne_none _ ∘ Eq.symm
  | add key object =>
    cases object <;> simp only [MgMap.exec, MgMap.withObject, mgMapAdd, MgMap.released] <;>
      split_ifs <;> simp [MapCall.uninitialised]
  | set key object =>
    cases object <;> simp only [MgMap.exec, MgMap.withObject, mgMapSet, mgMapGet, mgMapAdd,
      MgMap.released] <;> split_ifs <;> simp [MapCall.uninitialised]
  | get key => exact absurd trivial h
  | del key =>
    simp only [MgMap.exec, mgMapDel, mgMapGet, MgMap.released]
    split_ifs <;> simp [MapCall.uninitialised]

/-! ### Sequences of calls -/

/-- A property of all the places at which `a` stands in a list. -/
theorem splits_cons {α : Type*} {a b : α} {l : List α} {P : List α → List α → Prop} :
    (∀ pre post, b :: l = pre ++ a :: post → P pre post) ↔
      (b = a → P [] l) ∧ ∀ pre post, l = pre ++ a :: post → P (b :: pre) post := by
  constructor
  · intro h
    refine ⟨fun hb => h [] l (by rw [hb]; rfl), fun pre post hl => ?_⟩
    exact h (b :: pre) post (by rw [hl]; rfl)
  · rintro ⟨hfirst, hrest⟩ pre post hl
    cases pre with
    | nil =>
      obtain ⟨hb, rfl⟩ := List.cons.inj hl
      exact hfirst hb
    | cons x pre =>
      obtain ⟨rfl, hl'⟩ := List.cons.inj hl
      exact hrest pre post hl'

theorem along_cons_of_step {s t : MgMap × Bool} (h : cleanupStep s c = some t) :
    Along cleanupStep AnswersClean s (c :: calls) ↔
      AnswersClean s c ∧ Along cleanupStep AnswersClean t calls := by
  constructor
  · rintro ⟨hanswer, hrest⟩
    exact ⟨hanswer, hrest t h⟩
  · rintro ⟨hanswer, hrest⟩
    refine ⟨hanswer, fun u hu => ?_⟩
    cases h.symm.trans hu
    exact hrest

theorem answersClean_false (m : MgMap) (c : MapCall) : AnswersClean (m, false) c :=
  fun h => absurd h Bool.false_ne_true

theorem along_released (calls : List MapCall) :
    Along cleanupStep AnswersClean (MgMap.released, true) calls ↔ ∀ c ∈ calls, c.Harmless := by
  induction calls with
  | nil => exact ⟨fun _ c hc => absurd hc List.not_mem_nil, fun _ => trivial⟩
  | cons c calls ih =>
    rw [List.forall_mem_cons]
    by_cases hc : c.Harmless
    · have hexec := exec_released hc
      have hstep : cleanupStep (MgMap.released, true) c = some (MgMap.released, true) := by
        rw [cleanupStep, hexec]
        cases c with
        | init valueSize initialCount =>
          simp only [MapCall.uninitialised]
          split_ifs with hv hcount
          · rfl
          · rfl
          · exact absurd hc (not_or.2 ⟨hv, hcount⟩)
        | get key => rfl
        | _ => exact absurd hc id
      rw [along_cons_of_step hstep, ih]
      exact and_congr_left fun _ => ⟨fun _ => hc, fun _ _ => by rw [hexec]; rfl⟩
    · constructor
      · intro h
        exact absurd (h.1 rfl) (exec_released_ne hc)
      · rintro ⟨h, -⟩
        exact absurd h hc

theorem along_live (h : m.data = .live d) :
    Along cleanupStep AnswersClean (m, false) calls ↔
      ∀ pre post, calls = pre ++ .cleanup :: post → ∀ c ∈ post, c.Harmless := by
  induction calls generalizing m d with
  | nil =>
    refine ⟨fun _ pre post hl => ?_, fun _ => trivial⟩
    exact absurd hl (by simp)
  | cons c calls ih =>
    rw [splits_cons]
    by_cases hc : c = .cleanup
    · subst hc
      rw [along_cons_of_step (cleanupStep_cleanup h), along_released]
      constructor
      · rintro ⟨-, hall⟩
        refine ⟨fun _ => hall, fun pre post hl c hmem => hall c ?_⟩
        rw [hl]
        exact List.mem_append_right _ (List.mem_cons_of_mem _ hmem)
      · rintro ⟨hall, -⟩
        exact ⟨answersClean_false m _, hall rfl⟩
    · obtain ⟨m', d', hstep, hlive⟩ := cleanupStep_live h hc
      rw [along_cons_of_step hstep, ih hlive]
      constructor
      · rintro ⟨-, hrest⟩
        exact ⟨fun h => absurd h hc, hrest⟩
      · rintro ⟨-, hrest⟩
        exact ⟨answersClean_false m c, hrest⟩

/-- **A cleaned-up map is an uninitialised map exactly when it is left alone**: after the cleanup it
may only be looked up, or be refused an initialisation. -/
theorem cleanupLaw_iff (calls : List MapCall) : CleanupLaw calls ↔ LeftAlone calls := by
  unfold CleanupLaw LeftAlone
  induction calls with
  | nil =>
    refine ⟨fun _ pre post hl => ?_, fun _ => trivial⟩
    exact absurd hl (by simp)
  | cons c calls ih =>
    rw [splits_cons]
    by_cases hc : c.Creates
    · obtain ⟨m, d, hstep, hlive⟩ := cleanupStep_zero_creates hc
      rw [along_cons_of_step hstep, along_live hlive]
      constructor
      · rintro ⟨-, hrest⟩
        refine ⟨fun heq => ?_, fun pre post hl _ => hrest pre post hl⟩
        rw [heq] at hc
        exact absurd hc id
      · rintro ⟨-, hrest⟩
        exact ⟨answersClean_false _ c, fun pre post hl =>
          hrest pre post hl ⟨c, List.mem_cons_self, hc⟩⟩
    · rw [along_cons_of_step (cleanupStep_zero hc), ih]
      constructor
      · rintro ⟨-, hrest⟩
        refine ⟨fun _ ⟨c', hmem, _⟩ => absurd hmem List.not_mem_nil, fun pre post hl hex => ?_⟩
        obtain ⟨c', hmem, hcreates⟩ := hex
        rcases List.mem_cons.1 hmem with rfl | hpre
        · exact absurd hcreates hc
        · exact hrest pre post hl ⟨c', hpre, hcreates⟩
      · rintro ⟨-, hrest⟩
        refine ⟨answersClean_false _ c, fun pre post hl ⟨c', hmem, hcreates⟩ => ?_⟩
        exact hrest pre post hl ⟨c', List.mem_cons_of_mem c hmem, hcreates⟩

/-- A map that is initialised, cleaned up and initialised again: the second `mg_map_init` refuses it
with -20. A second cleanup frees the block twice. -/
theorem cleaned_map_not_reusable :
    run cleanupStep (MgMap.zero, false) [.init 4 1, .cleanup] = some (MgMap.released, true) ∧
    (MgMap.released.exec (.init 4 1)).map Prod.fst = some (.status (-20)) ∧
    MgMap.released.exec .cleanup = none ∧
    ¬ CleanupLaw [.init 4 1, .cleanup, .init 4 1] ∧
    ¬ CleanupLaw [.init 4 1, .cleanup, .cleanup] := by
  refine ⟨rfl, rfl, rfl, ?_, ?_⟩
  · intro h
    have hanswer := (((h.2 _ rfl).2 _ rfl).1 rfl)
    exact exec_released_ne (c := .init 4 1) (not_or.2 ⟨by decide, by decide⟩) hanswer
  · intro h
    have hanswer := (((h.2 _ rfl).2 _ rfl).1 rfl)
    exact exec_released_ne (c := .cleanup) id hanswer

end RotorXdp
