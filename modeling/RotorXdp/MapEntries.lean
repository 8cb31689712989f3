import RotorXdp.Map
import Mathlib.Data.List.Nodup
import Mathlib.Tactic.Ring

/-!
# A map as a list of entries

What a `mg_Map` is for: an association list in the order of insertion. Adding an entry appends to
the list, a lookup finds the first entry with the key.

* `MgMap.Holds`: the nodes of the block are the entries of a list, followed by free nodes;
* `Holds.init`, `Holds.add`: a new map holds nothing, `mg_map_add` appends;
* `Holds.get_none`, `Holds.get_some`: `mg_map_get` finds the first entry with the key.
-/

namespace RotorXdp

open Bytes

/-- The nodes of `m` are the entries of `l`, then free nodes. -/
structure MgMap.Holds (m : MgMap) (l : List (ℕ × List UInt8)) : Prop where
  live : m.data = .live m.mem
  node : 4 ≤ m.nodeSize
  count_pos : 0 < m.count
  length_le : l.length ≤ m.count
  key : ∀ i (h : i < l.length), le32 m.mem (i * m.nodeSize) = l[i].1
  value : ∀ i (h : i < l.length), load m.mem (i * m.nodeSize + 4) (m.nodeSize - 4) = l[i].2
  free : ∀ i, l.length ≤ i → i < m.count → le32 m.mem (i * m.nodeSize) = 0
  key_pos : ∀ e ∈ l, 0 < e.1

variable {m : MgMap} {l : List (ℕ × List UInt8)} {d : Mem} {ns i j key n : ℕ} {obj : List UInt8}

theorem findNode_eq_some : findNode d ns key n = some i ↔
    i < n ∧ le32 d (i * ns) = key ∧ ∀ j < i, le32 d (j * ns) ≠ key := by
  rw [findNode, List.find?_range_eq_some, List.mem_range]
  simp only [decide_eq_true_eq, Bool.not_eq_true', decide_eq_false_iff_not]
  tauto

theorem findNode_eq_none : findNode d ns key n = none ↔ ∀ i < n, le32 d (i * ns) ≠ key := by
  rw [findNode, List.find?_range_eq_none]
  simp only [Bool.not_eq_true', decide_eq_false_iff_not]

/-- Two nodes do not overlap. -/
theorem node_disjoint (ns : ℕ) (h : i ≠ j) : i * ns + ns ≤ j * ns ∨ j * ns + ns ≤ i * ns := by
  rcases Nat.lt_or_gt_of_ne h with hlt | hlt
  · left
    calc i * ns + ns = (i + 1) * ns := by ring
      _ ≤ j * ns := Nat.mul_le_mul_right ns hlt
  · right
    calc j * ns + ns = (j + 1) * ns := by ring
      _ ≤ i * ns := Nat.mul_le_mul_right ns hlt

/-! ### Setting up -/

theorem MgMap.Holds.init (valueSize count : ℕ) (hv : 0 < valueSize) (hc : 0 < count) :
    ∃ m, mgMapInit .zero valueSize count = (0, m) ∧ m.Holds [] ∧ m.nodeSize = valueSize + 4 := by
  refine ⟨⟨count, valueSize + 4, .live fun _ => 0⟩, ?_, ?_, rfl⟩
  · rw [mgMapInit, if_neg (by omega), if_neg (by omega)]
    rfl
  · exact ⟨rfl, by simp only; omega, hc, Nat.zero_le _, fun i h => absurd h (by simp),
      fun i h => absurd h (by simp), fun i _ _ => rfl, by simp⟩

/-! ### Adding -/

/-- The node that `mg_map_add` fills, seen from the start of the node. -/
theorem le32_writeNode (d : Mem) (ns i j key : ℕ) {obj : List UInt8} (hobj : obj.length = ns - 4)
    (hns : 4 ≤ ns) (hkey : key < 4294967296) :
    le32 (store (setLe32 d (j * ns) key) (j * ns + 4) obj) (i * ns) =
      if i = j then key else le32 d (i * ns) := by
  by_cases hij : i = j
  · subst hij
    rw [if_pos rfl, le32_store_of_ne _ (by omega), le32_setLe32, Nat.mod_eq_of_lt hkey]
  · rw [if_neg hij]
    have hdis := node_disjoint ns hij
    refine le32_congr fun k hk => ?_
    rw [store_of_ne _ (by omega), setLe32_of_ne _ _ (by omega)]

theorem load_writeNode (d : Mem) (ns i j key : ℕ) {obj : List UInt8} (hobj : obj.length = ns - 4)
    (hns : 4 ≤ ns) :
    load (store (setLe32 d (j * ns) key) (j * ns + 4) obj) (i * ns + 4) (ns - 4) =
      if i = j then obj else load d (i * ns + 4) (ns - 4) := by
  by_cases hij : i = j
  · subst hij
    rw [if_pos rfl, ← hobj, load_store]
  · rw [if_neg hij]
    have hdis := node_disjoint ns hij
    refine load_congr fun k hk => ?_
    rw [store_of_ne _ (by omega), setLe32_of_ne _ _ (by omega)]

/-- Filling the first free node appends an entry. -/
theorem MgMap.Holds.write (h : m.Holds l) (hroom : l.length < m.count) (hkey : 0 < key)
    (hlt : key < 4294967296) (hobj : obj.length = m.nodeSize - 4) :
    MgMap.Holds { m with data := .live (store (setLe32 m.mem (l.length * m.nodeSize) key)
      (l.length * m.nodeSize + 4) obj) } (l ++ [(key, obj)]) := by
  have hkeys := fun i => le32_writeNode m.mem m.nodeSize i l.length key hobj h.node hlt
  have hvalues := fun i => load_writeNode m.mem m.nodeSize i l.length key hobj h.node
  have hlen : (l ++ [(key, obj)]).length ≤ m.count := by
    rw [List.length_append, List.length_singleton]; exact hroom
  refine ⟨rfl, h.node, h.count_pos, hlen, ?_, ?_, ?_, ?_⟩
  · intro i hi
    rw [List.length_append, List.length_singleton] at hi
    show le32 (store _ _ _) _ = _
    rw [hkeys]
    by_cases hil : i = l.length
    · subst hil; simp
    · rw [if_neg hil, List.getElem_append_left (by omega), h.key i (by omega)]
  · intro i hi
    rw [List.length_append, List.length_singleton] at hi
    show load (store _ _ _) _ _ = _
    rw [hvalues]
    by_cases hil : i = l.length
    · subst hil; simp
    · rw [if_neg hil, List.getElem_append_left (by omega), h.value i (by omega)]
  · intro i hi hic
    rw [List.length_append, List.length_singleton] at hi
    show le32 (store _ _ _) _ = _
    rw [hkeys, if_neg (by omega)]
    exact h.free i (by omega) hic
  · intro e he
    rcases List.mem_append.1 he with he | he
    · exact h.key_pos e he
    · rw [List.mem_singleton] at he
      subst he
      exact hkey

/-- The bytes of the nodes below the resize. -/
theorem resize_kept (d : Mem) {ns count i k : ℕ} (hi : i < count) (hk : k < ns) :
    (if ns * count * 2 / 2 ≤ i * ns + k ∧ i * ns + k < ns * count * 2 then 0 else d (i * ns + k)) =
      d (i * ns + k) := by
  have hhalf : ns * count * 2 / 2 = count * ns := by
    rw [Nat.mul_div_cancel _ (by decide), Nat.mul_comm]
  have hlow : i * ns + k < count * ns := by
    calc i * ns + k < i * ns + ns := by omega
      _ = (i + 1) * ns := by ring
      _ ≤ count * ns := Nat.mul_le_mul_right _ hi
  exact if_neg (by omega)

/-- The keys after the resize: the new nodes are free. -/
theorem le32_resize (d : Mem) {ns count i : ℕ} (hns : 4 ≤ ns) (hi : i < count * 2) :
    le32 (fun a => if ns * count * 2 / 2 ≤ a ∧ a < ns * count * 2 then 0 else d a) (i * ns) =
      if i < count then le32 d (i * ns) else 0 := by
  by_cases hlt : i < count
  · rw [if_pos hlt]
    exact le32_congr fun k hk => resize_kept d hlt (by omega)
  · rw [if_neg hlt]
    have hhalf : ns * count * 2 / 2 = count * ns := by
      rw [Nat.mul_div_cancel _ (by decide), Nat.mul_comm]
    have hge : count * ns ≤ i * ns := Nat.mul_le_mul_right _ (by omega)
    have hup : i * ns + ns ≤ ns * count * 2 := by
      calc i * ns + ns = (i + 1) * ns := by ring
        _ ≤ (count * 2) * ns := Nat.mul_le_mul_right _ hi
        _ = ns * count * 2 := by ring
    have hzero : le32 (fun _ => 0) 0 = 0 := rfl
    rw [← hzero]
    exact le32_congr fun k hk => if_pos (by omega)

theorem load_resize (d : Mem) {ns count i : ℕ} (hns : 4 ≤ ns) (hi : i < count) :
    load (fun a => if ns * count * 2 / 2 ≤ a ∧ a < ns * count * 2 then 0 else d a) (i * ns + 4)
      (ns - 4) = load d (i * ns + 4) (ns - 4) := by
  refine load_congr fun k hk => ?_
  rw [Nat.add_assoc]
  exact resize_kept d hi (by omega)

/-- The block after the resize: twice the nodes, the new ones free. -/
theorem MgMap.Holds.resize (h : m.Holds l) :
    MgMap.Holds { m with
      count := m.count * 2
      data := .live fun a =>
        if m.nodeSize * m.count * 2 / 2 ≤ a ∧ a < m.nodeSize * m.count * 2 then 0 else m.mem a }
      l := by
  have hpos := h.count_pos
  have hlen := h.length_le
  have hnode := h.node
  refine ⟨rfl, hnode, by simp only; omega, by simp only; omega, ?_, ?_, ?_, h.key_pos⟩
  · intro i hi
    have hkey := le32_resize m.mem hnode (by omega : i < m.count * 2)
    rw [if_pos (by omega), h.key i hi] at hkey
    exact hkey
  · intro i hi
    rw [← h.value i hi]
    exact load_resize m.mem hnode (by omega)
  · intro i hi hic
    have hkey := le32_resize m.mem hnode hic
    refine hkey.trans ?_
    by_cases hlt : i < m.count
    · rw [if_pos hlt, h.free i hi hlt]
    · rw [if_neg hlt]

/-- `mg_map_add` appends an entry, with or without a resize. -/
theorem MgMap.Holds.add (h : m.Holds l) (hkey : 0 < key) (hlt : key < 4294967296)
    (hobj : obj.length = m.nodeSize - 4) :
    ∃ m', mgMapAdd m key obj = some (0, m') ∧ m'.Holds (l ++ [(key, obj)]) ∧
      m'.nodeSize = m.nodeSize := by
  have htake : obj.take (m.nodeSize - 4) = obj := List.take_of_length_le hobj.le
  have hused : ∀ j < l.length, le32 m.mem (j * m.nodeSize) ≠ 0 := by
    intro j hj
    rw [h.key j hj]
    exact (h.key_pos _ (List.getElem_mem hj)).ne'
  unfold mgMapAdd
  rw [h.live]
  simp only [if_neg hkey.ne', htake]
  by_cases hroom : l.length < m.count
  · have hfind : findNode m.mem m.nodeSize 0 m.count = some l.length :=
      findNode_eq_some.2 ⟨hroom, h.free _ (Nat.le_refl _) hroom, hused⟩
    rw [hfind]
    exact ⟨_, rfl, h.write hroom hkey hlt hobj, rfl⟩
  · have hfull : l.length = m.count := Nat.le_antisymm h.length_le (Nat.le_of_not_lt hroom)
    have hfind : findNode m.mem m.nodeSize 0 m.count = none :=
      findNode_eq_none.2 fun j hj => hused j (by omega)
    rw [hfind]
    have hplace : m.nodeSize * m.count * 2 / 2 = l.length * m.nodeSize := by
      rw [Nat.mul_div_cancel _ (by decide), Nat.mul_comm, hfull]
    have hwrite := h.resize.write (by have := h.count_pos; simp only; omega) hkey hlt hobj
    refine ⟨_, rfl, ?_, rfl⟩
    simp only [Nat.add_sub_cancel, hplace] at hwrite ⊢
    exact hwrite

/-- Key 0 is refused. -/
theorem MgMap.Holds.add_zero (h : m.Holds l) : mgMapAdd m 0 obj = some (-3, m) := by
  rw [mgMapAdd, h.live]
  rfl

/-! ### Looking up -/

theorem MgMap.Holds.get_none (h : m.Holds l) (hkey : 0 < key)
    (hl : l.find? (fun e => e.1 = key) = none) : mgMapGet m key = none := by
  rw [List.find?_eq_none] at hl
  have hfind : findNode m.mem m.nodeSize key m.count = none := by
    refine findNode_eq_none.2 fun i hi => ?_
    by_cases hil : i < l.length
    · rw [h.key i hil]
      simpa using hl _ (List.getElem_mem hil)
    · rw [h.free i (by omega) hi]
      exact hkey.ne
  rw [mgMapGet, h.live]
  simp only [if_neg hkey.ne', hfind, Option.map_none]

/-- `mg_map_get` finds the first entry with the key. -/
theorem MgMap.Holds.get_some (h : m.Holds l) (hkey : 0 < key) {e : ℕ × List UInt8}
    (hl : l.find? (fun e => e.1 = key) = some e) :
    ∃ p, mgMapGet m key = some p ∧ load m.mem p (m.nodeSize - 4) = e.2 := by
  obtain ⟨he, i, hil, rfl, hbefore⟩ := List.find?_eq_some_iff_getElem.1 hl
  have hfind : findNode m.mem m.nodeSize key m.count = some i := by
    refine findNode_eq_some.2 ⟨by have := h.length_le; omega, ?_, fun j hj => ?_⟩
    · rw [h.key i hil]
      simpa using he
    · rw [h.key j (by omega)]
      simpa using hbefore j hj
  refine ⟨i * m.nodeSize + 4, ?_, h.value i hil⟩
  rw [mgMapGet, h.live]
  simp only [if_neg hkey.ne', hfind, Option.map_some]

/-- Among entries with different keys every entry is found. -/
theorem MgMap.Holds.get_mem (h : m.Holds l) (hkeys : (l.map Prod.fst).Nodup)
    {e : ℕ × List UInt8} (he : e ∈ l) :
    ∃ p, mgMapGet m e.1 = some p ∧ load m.mem p (m.nodeSize - 4) = e.2 := by
  cases hfind : l.find? fun e' => e'.1 = e.1 with
  | none =>
    have hnone := List.find?_eq_none.1 hfind e he
    exact absurd (decide_eq_true rfl) hnone
  | some e' =>
    have hmem : e' ∈ l := List.mem_of_find?_eq_some hfind
    have hkey : e'.1 = e.1 := by simpa using List.find?_some hfind
    have heq : e' = e := List.inj_on_of_nodup_map hkeys hmem he hkey
    rw [heq] at hfind
    exact h.get_some (h.key_pos e he) hfind

/-- A key that no entry has is not found. -/
theorem MgMap.Holds.get_not_mem (h : m.Holds l) (hkey : key ∉ l.map Prod.fst) :
    mgMapGet m key = none := by
  rcases Nat.eq_zero_or_pos key with rfl | hpos
  · rw [mgMapGet, h.live]
    exact if_pos rfl
  · refine h.get_none hpos (List.find?_eq_none.2 fun e he hek => hkey ?_)
    rw [← of_decide_eq_true hek]
    exact List.mem_map_of_mem he

end RotorXdp
