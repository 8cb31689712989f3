import Mathlib.Logic.Function.Basic
import Mathlib.Data.Nat.Notation

/-!
# Finite maps in an array of slots

The first `n` slots of an array are free or hold a key with its value, in no order. They represent a
map from keys to values when no key is in two slots.

* `Represents`: the slots and the map agree;
* `Represents.write`: a slot is given an entry of a key, or freed;
* `Represents.grow`: free slots are added.
-/

open Function

namespace SlotMaps

variable {K V : Type*}

/-- The first `n` slots hold the entries of `f`. -/
structure Represents (n : ℕ) (slot : ℕ → Option (K × V)) (f : K → Option V) : Prop where
  unique : ∀ i < n, ∀ j < n, ∀ k v w, slot i = some (k, v) → slot j = some (k, w) → i = j
  entry : ∀ k v, f k = some v ↔ ∃ i < n, slot i = some (k, v)

variable {n : ℕ} {slot : ℕ → Option (K × V)} {f : K → Option V} {i : ℕ} {k : K} {v : V}

theorem Represents.empty (h : ∀ i < n, slot i = none) : Represents n slot (fun _ => none) where
  unique i hi j _ k v w hv _ := by
    rw [h i hi] at hv
    cases hv
  entry k v := by
    constructor
    · intro hv
      cases hv
    · rintro ⟨i, hi, hv⟩
      rw [h i hi] at hv
      cases hv

theorem Represents.eq_none_iff (h : Represents n slot f) :
    f k = none ↔ ∀ i < n, ∀ v, slot i ≠ some (k, v) := by
  constructor
  · intro hk i hi v hv
    have hsome := (h.entry k v).2 ⟨i, hi, hv⟩
    rw [hk] at hsome
    cases hsome
  · intro hnone
    cases hk : f k with
    | none => rfl
    | some v =>
      obtain ⟨i, hi, hv⟩ := (h.entry k v).1 hk
      exact absurd hv (hnone i hi v)

/-- More free slots. -/
theorem Represents.grow (h : Represents n slot f) {n' : ℕ} (hn : n ≤ n')
    (hfree : ∀ i, n ≤ i → i < n' → slot i = none) : Represents n' slot f := by
  have hlow : ∀ i < n', ∀ k v, slot i = some (k, v) → i < n := by
    intro i hi k v hv
    by_contra hge
    rw [hfree i (by omega) hi] at hv
    cases hv
  refine ⟨fun i hi j hj k v w hv hw => ?_, fun k v => ?_⟩
  · exact h.unique i (hlow i hi k v hv) j (hlow j hj k w hw) k v w hv hw
  · rw [h.entry k v]
    constructor
    · rintro ⟨i, hi, hv⟩
      exact ⟨i, by omega, hv⟩
    · rintro ⟨i, hi, hv⟩
      exact ⟨i, hlow i hi k v hv, hv⟩

/-- The representation depends on the first `n` slots. -/
theorem Represents.congr (h : Represents n slot f) {slot' : ℕ → Option (K × V)}
    (heq : ∀ i < n, slot' i = slot i) : Represents n slot' f := by
  refine ⟨fun i hi j hj k v w hv hw => ?_, fun k v => ?_⟩
  · rw [heq i hi] at hv
    rw [heq j hj] at hw
    exact h.unique i hi j hj k v w hv hw
  · rw [h.entry k v]
    exact exists_congr fun i => and_congr_right fun hi => by rw [heq i hi]

variable [DecidableEq K]

/-- Slot `i` is free, and the map does not have the key, or the slot holds the key. It is given a
new value for the key, or freed. -/
theorem Represents.write (h : Represents n slot f) (hi : i < n)
    (hslot : (slot i = none ∧ f k = none) ∨ ∃ w, slot i = some (k, w)) (o : Option V) :
    Represents n (update slot i (o.map fun v => (k, v))) (update f k o) := by
  -- the key is in no other slot, and no other key in this one
  have helse : ∀ j < n, ∀ w, slot j = some (k, w) → j = i := by
    intro j hj w hw
    rcases hslot with ⟨-, hk⟩ | ⟨w', hw'⟩
    · exact absurd hw (h.eq_none_iff.1 hk j hj w)
    · exact h.unique j hj i hi k w w' hw hw'
  have hother : ∀ l w, slot i = some (l, w) → l = k := by
    intro l w hw
    rcases hslot with ⟨hfree, -⟩ | ⟨w', hw'⟩
    · rw [hfree] at hw
      cases hw
    · rw [hw'] at hw
      cases hw
      rfl
  have hnew : ∀ l w, update slot i (o.map fun v => (k, v)) i = some (l, w) →
      l = k ∧ o = some w := by
    intro l w hw
    rw [update_self] at hw
    obtain ⟨v, rfl, heq⟩ := Option.map_eq_some_iff.1 hw
    cases heq
    exact ⟨rfl, rfl⟩
  refine ⟨fun a ha b hb l x y hx hy => ?_, fun l x => ?_⟩
  · by_cases hai : a = i
    · subst hai
      by_contra hba
      rw [update_of_ne (Ne.symm hba)] at hy
      obtain ⟨rfl, -⟩ := hnew l x hx
      exact hba (helse b hb y hy).symm
    · rw [update_of_ne hai] at hx
      by_cases hbi : b = i
      · subst hbi
        obtain ⟨rfl, -⟩ := hnew l y hy
        exact helse a ha x hx
      · rw [update_of_ne hbi] at hy
        exact h.unique a ha b hb l x y hx hy
  · by_cases hl : l = k
    · subst hl
      rw [update_self]
      constructor
      · rintro rfl
        exact ⟨i, hi, update_self ..⟩
      · rintro ⟨a, ha, hx⟩
        by_cases hai : a = i
        · subst hai
          exact (hnew l x hx).2
        · rw [update_of_ne hai] at hx
          exact absurd (helse a ha x hx) hai
    · rw [update_of_ne hl, h.entry l x]
      constructor
      · rintro ⟨a, ha, hx⟩
        have hai : a ≠ i := by
          rintro rfl
          exact hl (hother l x hx)
        exact ⟨a, ha, by rwa [update_of_ne hai]⟩
      · rintro ⟨a, ha, hx⟩
        have hai : a ≠ i := by
          rintro rfl
          exact hl (hnew l x hx).1
        rw [update_of_ne hai] at hx
        exact ⟨a, ha, hx⟩

end SlotMaps
