import Mathlib.Algebra.BigOperators.Group.Finset.Basic
import Mathlib.Algebra.BigOperators.Group.Finset.Piecewise
import Mathlib.Algebra.Order.BigOperators.Group.Finset
import Mathlib.Algebra.Order.Group.Multiset
import Mathlib.Algebra.BigOperators.Group.Multiset.Basic
import Mathlib.Data.Fintype.Basic
import Mathlib.Logic.Equiv.Basic
import Mathlib.Tactic.Abel

/-!
# Racks of trays and families of lists

A rack has places, each with one tray standing at it and a fill level; the filled cells of the
tray are what the place holds. Trays change places by exchange only, so a tray is never copied,
and what lies above a fill level is never looked at. Beside a rack, items travel between the lists
of a family (rings, queues, batches).

* `Rack`, `Rack.contents`, `Rack.stock`: places, what one holds, what all hold together;
* `exchange`, `push`, `pop` and what each does to the stock;
* `total`: what a family of lists holds together, and its change when one list is replaced;
* `nodup_sum`, `unique_of_nodup_sum`: a sum without duplicates is one in which every item has one
  place.
-/

open Function

namespace Racks

/-! ### Sums over families -/

section Sums

variable {ι α M : Type*} [Fintype ι]

theorem sum_update_add [DecidableEq ι] [AddCommMonoid M] {β : Type*} (F : β → M) (g : ι → β)
    (j : ι) (v : β) :
    ∑ i, F (update g j v i) + F (g j) = ∑ i, F (g i) + F v := by
  have h : (fun i => F (update g j v i)) = update (fun i => F (g i)) j (F v) := by
    funext i
    by_cases hi : i = j
    · subst hi; simp
    · simp [hi]
  have hsplit : F (g j) + ∑ i ∈ Finset.univ \ {j}, F (g i) = ∑ i, F (g i) := by
    rw [← Finset.sum_update_of_mem (Finset.mem_univ j)]
    exact Finset.sum_congr rfl fun i _ => by rw [update_eq_self_iff.2 rfl]
  rw [h, Finset.sum_update_of_mem (Finset.mem_univ j), ← hsplit]
  abel

theorem unique_of_nodup_sum [DecidableEq α] {m : ι → Multiset α} (h : (∑ i, m i).Nodup) {a : α}
    {i j : ι} (hi : a ∈ m i) (hj : a ∈ m j) : i = j := by
  by_contra hij
  have hle : (m i).count a + (m j).count a ≤ ∑ k, (m k).count a :=
    Finset.add_le_sum (f := fun k => (m k).count a) (fun _ _ => Nat.zero_le _)
      (Finset.mem_univ i) (Finset.mem_univ j) hij
  rw [← Multiset.count_sum'] at hle
  have hone := Multiset.nodup_iff_count_le_one.1 h a
  have hpi := Multiset.count_pos.2 hi
  have hpj := Multiset.count_pos.2 hj
  omega

theorem nodup_sum [DecidableEq α] {m : ι → Multiset α} (hm : ∀ i, (m i).Nodup)
    (h : ∀ i j a, a ∈ m i → a ∈ m j → i = j) : (∑ i, m i).Nodup := by
  refine Multiset.nodup_iff_count_le_one.2 fun a => ?_
  rw [Multiset.count_sum']
  by_cases ha : ∃ i, a ∈ m i
  · obtain ⟨i, hi⟩ := ha
    rw [Finset.sum_eq_single i]
    · exact Multiset.nodup_iff_count_le_one.1 (hm i) a
    · intro j _ hj
      exact Multiset.count_eq_zero.2 fun haj => hj (h j i a haj hi)
    · exact fun hni => absurd (Finset.mem_univ i) hni
  · have hzero : ∀ i, (m i).count a = 0 := fun i => Multiset.count_eq_zero.2 fun hi => ha ⟨i, hi⟩
    simp only [hzero, Finset.sum_const_zero, Nat.zero_le]

theorem count_eq_one_of_nodup_sum [DecidableEq α] {m : ι → Multiset α} (h : (∑ i, m i).Nodup)
    {a : α} {i : ι} (hi : a ∈ m i) : (m i).count a = 1 := by
  refine le_antisymm ?_ (Multiset.count_pos.2 hi)
  calc (m i).count a ≤ ∑ k, (m k).count a :=
        Finset.single_le_sum (f := fun k => (m k).count a) (fun k _ => Nat.zero_le _)
          (Finset.mem_univ i)
    _ = (∑ k, m k).count a := (Multiset.count_sum' ..).symm
    _ ≤ 1 := Multiset.nodup_iff_count_le_one.1 h a

end Sums

/-! ### Families of lists -/

section Lists

variable {κ α : Type*} [Fintype κ] [DecidableEq κ]

/-- What a family of lists holds together. -/
def total (held : κ → List α) : Multiset α := ∑ k, (held k : Multiset α)

theorem total_update (held : κ → List α) (k : κ) (l : List α) :
    total (update held k l) + (held k : Multiset α) = total held + (l : Multiset α) :=
  sum_update_add (fun l : List α => (l : Multiset α)) held k l

/-- The lists after the first `n` items of `x` are appended to `y`. -/
def shift (held : κ → List α) (x y : κ) (n : ℕ) : κ → List α :=
  update (update held x ((held x).drop n)) y (held y ++ (held x).take n)

theorem total_shift (held : κ → List α) {x y : κ} (n : ℕ) (h : x ≠ y) :
    total (shift held x y n) = total held := by
  have hx := total_update held x ((held x).drop n)
  have hy := total_update (update held x ((held x).drop n)) y (held y ++ (held x).take n)
  rw [update_of_ne h.symm, ← Multiset.coe_add] at hy
  have hsplit : ((held x : List α) : Multiset α)
      = ((held x).take n : Multiset α) + ((held x).drop n : Multiset α) := by
    rw [Multiset.coe_add, List.take_append_drop]
  rw [hsplit] at hx
  rw [shift]
  have hx' : total (update held x ((held x).drop n)) + ((held x).take n : Multiset α)
      = total held := by
    refine add_right_cancel (b := ((held x).drop n : Multiset α)) ?_
    rw [add_assoc, hx]
  refine add_right_cancel (b := (held y : Multiset α)) ?_
  rw [hy, ← hx']
  abel

end Lists

/-! ### Racks -/

/-- Places `L`, each with one tray of `C` at it, filled up to a level with items of `α`. -/
@[ext]
structure Rack (L C α : Type*) where
  tray : L → C
  level : L → ℕ
  cell : C → ℕ → α

namespace Rack

variable {L C α : Type*}

/-- The filled cells of the tray at `x`. -/
def contents (r : Rack L C α) (x : L) : List α := (List.range (r.level x)).map (r.cell (r.tray x))

/-- What all places hold together. -/
def stock [Fintype L] (r : Rack L C α) : Multiset α := ∑ x, (r.contents x : Multiset α)

/-- The item in the last filled cell of the tray at `x`. -/
def top (r : Rack L C α) (x : L) : α := r.cell (r.tray x) (r.level x - 1)

/-- No tray stands at two places. -/
def Proper (r : Rack L C α) : Prop := Injective r.tray

@[simp] theorem contents_length (r : Rack L C α) (x : L) : (r.contents x).length = r.level x := by
  simp [contents]

theorem card_stock [Fintype L] (r : Rack L C α) : Multiset.card r.stock = ∑ x, r.level x := by
  simp [stock, Multiset.card_sum]

variable [DecidableEq L]

/-- Two places exchange their trays, filled as they are. -/
def exchange (r : Rack L C α) (x y : L) : Rack L C α where
  tray := r.tray ∘ Equiv.swap x y
  level := r.level ∘ Equiv.swap x y
  cell := r.cell

/-- Put an item into the next free cell of the tray at `x`. -/
def push [DecidableEq C] (r : Rack L C α) (x : L) (a : α) : Rack L C α where
  tray := r.tray
  level := update r.level x (r.level x + 1)
  cell := update r.cell (r.tray x) (update (r.cell (r.tray x)) (r.level x) a)

/-- Take the item out of the last filled cell of the tray at `x`. -/
def pop (r : Rack L C α) (x : L) : Rack L C α :=
  { r with level := update r.level x (r.level x - 1) }

theorem Proper.exchange {r : Rack L C α} (h : r.Proper) (x y : L) : (r.exchange x y).Proper :=
  h.comp (Equiv.swap x y).injective

theorem contents_push_self [DecidableEq C] (r : Rack L C α) (x : L) (a : α) :
    (r.push x a).contents x = r.contents x ++ [a] := by
  have hbelow : (List.range (r.level x)).map (update (r.cell (r.tray x)) (r.level x) a)
      = (List.range (r.level x)).map (r.cell (r.tray x)) := by
    refine List.map_congr_left fun i hi => ?_
    rw [update_of_ne (List.mem_range.1 hi).ne]
  simp only [contents, push, update_self, List.range_succ, List.map_append, hbelow, List.map_cons,
    List.map_nil]

theorem contents_push_of_ne [DecidableEq C] {r : Rack L C α} (h : r.Proper) {x z : L} (a : α)
    (hz : z ≠ x) : (r.push x a).contents z = r.contents z := by
  simp only [contents, push, update_of_ne hz, update_of_ne (h.ne hz)]

theorem contents_pop_self (r : Rack L C α) {x : L} (h : 0 < r.level x) :
    (r.pop x).contents x ++ [r.top x] = r.contents x := by
  obtain ⟨n, hn⟩ : ∃ n, r.level x = n + 1 := ⟨r.level x - 1, by omega⟩
  simp only [contents, pop, top, update_self, hn, Nat.add_sub_cancel, List.range_succ,
    List.map_append, List.map_cons, List.map_nil]

theorem contents_pop_of_ne (r : Rack L C α) {x z : L} (hz : z ≠ x) :
    (r.pop x).contents z = r.contents z := by
  simp only [contents, pop, update_of_ne hz]

section Stock

variable [Fintype L]

theorem stock_exchange (r : Rack L C α) (x y : L) : (r.exchange x y).stock = r.stock :=
  Equiv.sum_comp (Equiv.swap x y) fun z => (r.contents z : Multiset α)

/-- A rack whose contents differ from those of `r` at `x` only. -/
theorem stock_of_contents {r r' : Rack L C α} {x : L}
    (h : ∀ z, z ≠ x → r'.contents z = r.contents z) :
    r'.stock + (r.contents x : Multiset α) = r.stock + (r'.contents x : Multiset α) := by
  have hr : r'.contents = update r.contents x (r'.contents x) := by
    funext z
    by_cases hz : z = x
    · subst hz; rw [update_self]
    · rw [update_of_ne hz, h z hz]
  have := total_update r.contents x (r'.contents x)
  rw [← hr] at this
  exact this

theorem stock_push [DecidableEq C] {r : Rack L C α} (h : r.Proper) (x : L) (a : α) :
    (r.push x a).stock = a ::ₘ r.stock := by
  have hs := stock_of_contents (x := x) fun z hz => contents_push_of_ne h a hz
  rw [contents_push_self, ← Multiset.coe_add] at hs
  refine add_right_cancel (b := (r.contents x : Multiset α)) ?_
  rw [hs, Multiset.coe_singleton, ← Multiset.singleton_add]
  abel

theorem stock_pop (r : Rack L C α) {x : L} (h : 0 < r.level x) :
    r.top x ::ₘ (r.pop x).stock = r.stock := by
  have hs := stock_of_contents (x := x) fun z hz => contents_pop_of_ne r (x := x) hz
  rw [← contents_pop_self r h, ← Multiset.coe_add] at hs
  refine add_right_cancel (b := ((r.pop x).contents x : Multiset α)) ?_
  rw [← hs, Multiset.coe_singleton, ← Multiset.singleton_add]
  abel

end Stock

end Rack

end Racks
