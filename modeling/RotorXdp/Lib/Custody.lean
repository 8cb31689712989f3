import Mathlib.Data.List.Nodup
import Mathlib.Data.Set.Insert
import Mathlib.Logic.Function.Basic
import RotorXdp.Lib.Run

/-!
# Items that pass from hand to hand

Items are made one after the other and numbered. An item goes into a slot when it is made. The slot
may give it away once, to a common store, from where it goes into another slot; every slot receives
one item in its life. The store keeps no order, and an item may stay there for ever.

* `Custody`, `Custody.Step`: the store and the slots, and what can happen;
* `Custody.Inv`, `Inv.step`: an item is in one place;
* `Inv.kept_unique`: no two slots keep one item.
-/

namespace Custodies

open Function

variable {S : Type*}

/-- The items made, those in the store, what each slot has received and which slots have given it
away. -/
structure Custody (S : Type*) where
  made : ℕ
  store : List ℕ
  held : S → Option ℕ
  gone : Set S

/-- Nothing is made. -/
def Custody.empty : Custody S := ⟨0, [], fun _ => none, ∅⟩

/-- What can happen. -/
inductive Custody.Step [DecidableEq S] (c : Custody S) : Custody S → Prop
  | make (x : S) (hx : c.held x = none) :
      Custody.Step c { c with made := c.made + 1, held := update c.held x (some c.made) }
  | take (x : S) (i : ℕ) (l r : List ℕ) (hx : c.held x = none) (hstore : c.store = l ++ i :: r) :
      Custody.Step c { c with store := l ++ r, held := update c.held x (some i) }
  | give (x : S) (i : ℕ) (hx : c.held x = some i) (hkept : x ∉ c.gone) :
      Custody.Step c { c with store := c.store ++ [i], gone := insert x c.gone }

/-- Slot `x` keeps item `i`. -/
def Custody.Keeps (c : Custody S) (x : S) (i : ℕ) : Prop := c.held x = some i ∧ x ∉ c.gone

/-- Every item is in one place. -/
structure Custody.Inv (c : Custody S) : Prop where
  store_nodup : c.store.Nodup
  store_lt : ∀ i ∈ c.store, i < c.made
  held_lt : ∀ x i, c.held x = some i → i < c.made
  gone_held : ∀ x ∈ c.gone, c.held x ≠ none
  store_kept : ∀ x, ∀ i ∈ c.store, ¬ c.Keeps x i
  kept_unique : ∀ x y i, c.Keeps x i → c.Keeps y i → x = y

theorem Custody.Inv.empty : (Custody.empty : Custody S).Inv := by
  refine ⟨List.nodup_nil, ?_, ?_, ?_, ?_, ?_⟩
  · intro i hi
    exact absurd hi List.not_mem_nil
  · intro x i hx
    cases hx
  · intro x hx
    exact absurd hx (Set.notMem_empty x)
  · intro x i hi
    exact absurd hi List.not_mem_nil
  · intro x y i hx
    cases hx.1

variable [DecidableEq S] {c c' : Custody S} {x y : S} {i j : ℕ}

/-- A slot that receives an item keeps it, and the other slots keep theirs. -/
theorem Custody.keeps_update (hgone : ∀ x ∈ c.gone, c.held x ≠ none) (hx : c.held x = none)
    (made : ℕ) (store : List ℕ) :
    Custody.Keeps ⟨made, store, update c.held x (some i), c.gone⟩ y j ↔
      y = x ∧ j = i ∨ y ≠ x ∧ c.Keeps y j := by
  unfold Keeps
  by_cases hy : y = x
  · subst hy
    have hkept : y ∉ c.gone := fun h => hgone y h hx
    simp only [update_self, Option.some.injEq, hkept, not_false_eq_true, and_true, true_and,
      ne_eq, not_true_eq_false, false_and, or_false]
    exact eq_comm
  · simp only [update_of_ne hy, hy, false_and, ne_eq, not_false_eq_true, true_and, false_or]

theorem Custody.Inv.make (h : c.Inv) (hx : c.held x = none) :
    Custody.Inv { c with made := c.made + 1, held := update c.held x (some c.made) } := by
  have hkeeps : ∀ {y j}, Custody.Keeps
      { c with made := c.made + 1, held := update c.held x (some c.made) } y j ↔
      y = x ∧ j = c.made ∨ y ≠ x ∧ c.Keeps y j := Custody.keeps_update h.gone_held hx _ _
  have hnew : ∀ {y}, ¬ c.Keeps y c.made := fun hy => Nat.lt_irrefl _ (h.held_lt _ _ hy.1)
  refine ⟨h.store_nodup, fun i hi => Nat.lt_succ_of_lt (h.store_lt i hi), ?_, ?_, ?_, ?_⟩
  · intro y i hy
    by_cases hyx : y = x
    · subst hyx
      simp only [update_self, Option.some.injEq] at hy
      exact Nat.lt_succ_of_le (Nat.le_of_eq hy.symm)
    · simp only [update_of_ne hyx] at hy
      exact Nat.lt_succ_of_lt (h.held_lt y i hy)
  · intro y hy
    by_cases hyx : y = x
    · subst hyx
      simp
    · simp only [update_of_ne hyx]
      exact h.gone_held y hy
  · intro y i hi hy
    rcases hkeeps.1 hy with ⟨-, rfl⟩ | ⟨-, hold⟩
    · exact Nat.lt_irrefl _ (h.store_lt _ hi)
    · exact h.store_kept y i hi hold
  · intro y z i hy hz
    rcases hkeeps.1 hy with ⟨rfl, rfl⟩ | ⟨-, hold⟩
    · rcases hkeeps.1 hz with ⟨rfl, -⟩ | ⟨-, hold⟩
      · rfl
      · exact absurd hold hnew
    · rcases hkeeps.1 hz with ⟨-, rfl⟩ | ⟨-, hold'⟩
      · exact absurd hold hnew
      · exact h.kept_unique y z i hold hold'

theorem Custody.Inv.take (h : c.Inv) {l r : List ℕ} (hx : c.held x = none)
    (hstore : c.store = l ++ i :: r) :
    Custody.Inv { c with store := l ++ r, held := update c.held x (some i) } := by
  have hkeeps : ∀ {y j}, Custody.Keeps
      { c with store := l ++ r, held := update c.held x (some i) } y j ↔
      y = x ∧ j = i ∨ y ≠ x ∧ c.Keeps y j := Custody.keeps_update h.gone_held hx _ _
  have hi : i ∈ c.store := by
    rw [hstore]
    exact List.mem_append_right l List.mem_cons_self
  have hmem : ∀ j ∈ l ++ r, j ∈ c.store := by
    intro j hj
    rw [hstore]
    exact (List.sublist_cons_self i r).append_left l |>.mem hj
  have hnodup := h.store_nodup
  rw [hstore] at hnodup
  refine ⟨hnodup.sublist ((List.sublist_cons_self i r).append_left l),
    fun j hj => h.store_lt j (hmem j hj), ?_, ?_, ?_, ?_⟩
  · intro y j hy
    by_cases hyx : y = x
    · subst hyx
      simp only [update_self, Option.some.injEq] at hy
      exact hy ▸ h.store_lt i hi
    · simp only [update_of_ne hyx] at hy
      exact h.held_lt y j hy
  · intro y hy
    by_cases hyx : y = x
    · subst hyx
      simp
    · simp only [update_of_ne hyx]
      exact h.gone_held y hy
  · intro y j hj hy
    rcases hkeeps.1 hy with ⟨-, rfl⟩ | ⟨-, hold⟩
    · exact (List.nodup_middle.1 hnodup).notMem hj
    · exact h.store_kept y j (hmem j hj) hold
  · intro y z j hy hz
    rcases hkeeps.1 hy with ⟨rfl, rfl⟩ | ⟨-, hold⟩
    · rcases hkeeps.1 hz with ⟨rfl, -⟩ | ⟨-, hold⟩
      · rfl
      · exact absurd hold (h.store_kept z j hi)
    · rcases hkeeps.1 hz with ⟨-, rfl⟩ | ⟨-, hold'⟩
      · exact absurd hold (h.store_kept y j hi)
      · exact h.kept_unique y z j hold hold'

omit [DecidableEq S] in
theorem Custody.Inv.give (h : c.Inv) (hx : c.held x = some i) (hkept : x ∉ c.gone) :
    Custody.Inv { c with store := c.store ++ [i], gone := insert x c.gone } := by
  have hkeeps : ∀ {y j}, Custody.Keeps
      { c with store := c.store ++ [i], gone := insert x c.gone } y j → y ≠ x ∧ c.Keeps y j := by
    rintro y j ⟨hy, hgone⟩
    rw [Set.mem_insert_iff, not_or] at hgone
    exact ⟨hgone.1, hy, hgone.2⟩
  refine ⟨?_, ?_, h.held_lt, ?_, ?_, ?_⟩
  · rw [List.nodup_append]
    refine ⟨h.store_nodup, List.nodup_singleton i, ?_⟩
    intro j hj k hk hjk
    rw [List.mem_singleton] at hk
    exact h.store_kept x i (by rwa [← hk, ← hjk]) ⟨hx, hkept⟩
  · intro j hj
    rcases List.mem_append.1 hj with hj | hj
    · exact h.store_lt j hj
    · rw [List.mem_singleton.1 hj]
      exact h.held_lt x i hx
  · intro y hy
    rcases Set.mem_insert_iff.1 hy with rfl | hy
    · rw [hx]
      exact Option.some_ne_none i
    · exact h.gone_held y hy
  · intro y j hj hy
    obtain ⟨hne, hy⟩ := hkeeps hy
    rcases List.mem_append.1 hj with hj | hj
    · exact h.store_kept y j hj hy
    · rw [List.mem_singleton.1 hj] at hy
      exact hne (h.kept_unique y x i hy ⟨hx, hkept⟩)
  · intro y z j hy hz
    exact h.kept_unique y z j (hkeeps hy).2 (hkeeps hz).2

/-- **Whatever happens, an item stays in one place.** -/
theorem Custody.Inv.step (h : c.Inv) (hstep : Custody.Step c c') : c'.Inv := by
  cases hstep with
  | make x hx => exact h.make hx
  | take x i l r hx hstore => exact h.take hx hstore
  | give x i hx hkept => exact h.give hx hkept

end Custodies
