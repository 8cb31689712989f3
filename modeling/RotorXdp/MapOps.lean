import RotorXdp.MapEntries
import RotorXdp.Lib.SlotMap

/-!
# The operations of a map

`mg_map_set` and `mg_map_del`, and what all operations do to a map that is read as a finite map from
keys to values: a deleted node is free again and is used for another key.

* `mgMapSet`, `mgMapDel`: the functions of `map.c`;
* `MgMap.Represents`: the nodes are slots that hold a finite map;
* `Represents.get`, `Represents.add`, `Represents.set`, `Represents.del`: the operations on it.
-/

namespace RotorXdp

open Bytes Function

/-- The node whose value is at `place` is given a key and the bytes of a value. -/
def MgMap.writeAt (m : MgMap) (place key : ℕ) (bytes : List UInt8) : MgMap :=
  { m with data := .live (store (setLe32 m.mem (place - 4) key) place bytes) }

/-- `mg_map_set`: the status and the map; the status of `mg_map_add` is not looked at. -/
def mgMapSet (m : MgMap) (key : ℕ) (object : List UInt8) : Option (ℤ × MgMap) :=
  match m.data with
  | .null => some (-2, m)
  | _ =>
    if key = 0 then some (-3, m)
    else
      match mgMapGet m key with
      | none => (mgMapAdd m key object).map fun r => (0, r.2)
      | some place => some (0, m.writeAt place key (object.take (m.nodeSize - 4)))

/-- `mg_map_del`: the status and the map. -/
def mgMapDel (m : MgMap) (key : ℕ) : ℤ × MgMap :=
  match m.data with
  | .null => (-2, m)
  | _ =>
    if key = 0 then (-3, m)
    else
      match mgMapGet m key with
      | none => (0, m)
      | some place => (0, m.writeAt place 0 (List.replicate (m.nodeSize - 4) 0))

/-- The slot that a key and a value make; key 0 makes a free one. -/
def slotOfNode (key : ℕ) (value : List UInt8) : Option (ℕ × List UInt8) :=
  if key = 0 then none else some (key, value)

/-- Node `i` as a slot. -/
def MgMap.node (m : MgMap) (i : ℕ) : Option (ℕ × List UInt8) :=
  slotOfNode (le32 m.mem (i * m.nodeSize)) (load m.mem (i * m.nodeSize + 4) (m.nodeSize - 4))

/-- The map holds the values of `f`. -/
structure MgMap.Represents (m : MgMap) (f : ℕ → Option (List UInt8)) : Prop where
  live : m.data = .live m.mem
  node : 4 ≤ m.nodeSize
  count_pos : 0 < m.count
  slots : SlotMaps.Represents m.count m.node f

variable {m : MgMap} {f : ℕ → Option (List UInt8)} {i j key : ℕ} {obj : List UInt8}

/-! ### Nodes -/

@[simp] theorem MgMap.writeAt_nodeSize (m : MgMap) (place key : ℕ) (bytes : List UInt8) :
    (m.writeAt place key bytes).nodeSize = m.nodeSize := rfl

theorem MgMap.mem_writeAt (m : MgMap) (place key : ℕ) (bytes : List UInt8) :
    (m.writeAt place key bytes).mem = store (setLe32 m.mem (place - 4) key) place bytes := rfl

theorem MgMap.node_eq (m : MgMap) (i : ℕ) : m.node i =
    slotOfNode (le32 m.mem (i * m.nodeSize)) (load m.mem (i * m.nodeSize + 4) (m.nodeSize - 4)) :=
  rfl

theorem MgMap.node_eq_none : m.node i = none ↔ le32 m.mem (i * m.nodeSize) = 0 := by
  unfold MgMap.node slotOfNode
  split <;> simp_all

theorem MgMap.node_eq_some {v : List UInt8} : m.node i = some (key, v) ↔
    le32 m.mem (i * m.nodeSize) = key ∧ key ≠ 0 ∧
      load m.mem (i * m.nodeSize + 4) (m.nodeSize - 4) = v := by
  unfold MgMap.node slotOfNode
  split
  · rename_i hzero
    simp only [hzero, reduceCtorEq, false_iff, not_and]
    intro hkey hne
    exact absurd hkey.symm hne
  · rename_i hne
    simp only [Option.some.injEq, Prod.mk.injEq]
    constructor
    · rintro ⟨rfl, rfl⟩
      exact ⟨rfl, hne, rfl⟩
    · rintro ⟨rfl, -, rfl⟩
      exact ⟨rfl, rfl⟩

/-- A write changes one node. -/
theorem MgMap.node_writeAt (hns : 4 ≤ m.nodeSize) (hlt : key < 4294967296)
    (hobj : obj.length = m.nodeSize - 4) :
    (m.writeAt (j * m.nodeSize + 4) key obj).node =
      update m.node j (slotOfNode key obj) := by
  funext i
  have hkey := le32_writeNode m.mem m.nodeSize i j key hobj hns hlt
  have hvalue := load_writeNode m.mem m.nodeSize i j key hobj hns
  by_cases hij : i = j
  · subst hij
    rw [if_pos rfl] at hkey hvalue
    rw [update_self, MgMap.node_eq, mem_writeAt, Nat.add_sub_cancel, writeAt_nodeSize, hkey, hvalue]
  · rw [if_neg hij] at hkey hvalue
    rw [update_of_ne hij, MgMap.node_eq, mem_writeAt, Nat.add_sub_cancel, writeAt_nodeSize, hkey,
      hvalue, ← MgMap.node_eq]

/-! ### Looking up -/

theorem MgMap.Represents.find_none (h : m.Represents f) (hkey : key ≠ 0) (hf : f key = none) :
    findNode m.mem m.nodeSize key m.count = none := by
  refine findNode_eq_none.2 fun i hi heq => ?_
  exact h.slots.eq_none_iff.1 hf i hi _ (MgMap.node_eq_some.2 ⟨heq, hkey, rfl⟩)

theorem MgMap.Represents.find_some (h : m.Represents f) {v : List UInt8} (hf : f key = some v) :
    ∃ i < m.count, m.node i = some (key, v) ∧
      findNode m.mem m.nodeSize key m.count = some i := by
  obtain ⟨i, hi, hnode⟩ := (h.slots.entry key v).1 hf
  obtain ⟨hki, hne, -⟩ := MgMap.node_eq_some.1 hnode
  refine ⟨i, hi, hnode, findNode_eq_some.2 ⟨hi, hki, fun j hj heq => ?_⟩⟩
  have hnodej := MgMap.node_eq_some.2 ⟨heq, hne, rfl⟩
  have hji := h.slots.unique j (by omega) i hi key _ v hnodej hnode
  omega

theorem MgMap.Represents.get_none (h : m.Represents f) (hf : f key = none) :
    mgMapGet m key = none := by
  rw [mgMapGet, h.live]
  by_cases hkey : key = 0
  · exact if_pos hkey
  · simp only [if_neg hkey, h.find_none hkey hf, Option.map_none]

theorem MgMap.Represents.get_some (h : m.Represents f) {v : List UInt8} (hf : f key = some v) :
    ∃ i < m.count, m.node i = some (key, v) ∧ mgMapGet m key = some (i * m.nodeSize + 4) ∧
      load m.mem (i * m.nodeSize + 4) (m.nodeSize - 4) = v := by
  obtain ⟨i, hi, hnode, hfind⟩ := h.find_some hf
  obtain ⟨-, hne, hvalue⟩ := MgMap.node_eq_some.1 hnode
  refine ⟨i, hi, hnode, ?_, hvalue⟩
  rw [mgMapGet, h.live]
  simp only [if_neg hne, hfind, Option.map_some]

/-! ### Storing -/

/-- A free node, or the node of the key, is given the entry. -/
theorem MgMap.Represents.write (h : m.Represents f) (hi : i < m.count)
    (hslot : (m.node i = none ∧ f key = none) ∨ ∃ w, m.node i = some (key, w)) (hkey : key ≠ 0)
    (hlt : key < 4294967296) (hobj : obj.length = m.nodeSize - 4) :
    (m.writeAt (i * m.nodeSize + 4) key obj).Represents (update f key (some obj)) := by
  refine ⟨rfl, h.node, h.count_pos, ?_⟩
  rw [MgMap.node_writeAt h.node hlt hobj, slotOfNode, if_neg hkey]
  exact h.slots.write hi hslot (some obj)

/-- The block after the resize. -/
def MgMap.resized (m : MgMap) : MgMap :=
  { m with
    count := m.count * 2
    data := .live fun a =>
      if m.nodeSize * m.count * 2 / 2 ≤ a ∧ a < m.nodeSize * m.count * 2 then 0 else m.mem a }

theorem MgMap.Represents.resized (h : m.Represents f) : m.resized.Represents f := by
  have hpos := h.count_pos
  have hns := h.node
  have hlow : ∀ i < m.count, m.resized.node i = m.node i := by
    intro i hi
    have hkey := le32_resize m.mem hns (by omega : i < m.count * 2)
    have hvalue := load_resize m.mem hns hi
    rw [if_pos hi] at hkey
    exact congrArg₂ slotOfNode hkey hvalue
  refine ⟨rfl, h.node, by simp only [MgMap.resized]; omega, ?_⟩
  refine (h.slots.congr hlow).grow (by simp only [MgMap.resized]; omega) fun i hi hlt => ?_
  have hkey := le32_resize m.mem h.node hlt
  rw [if_neg (by omega)] at hkey
  exact MgMap.node_eq_none.2 hkey

/-- `mg_map_add` of a key that the map does not have. -/
theorem MgMap.Represents.add (h : m.Represents f) (hkey : key ≠ 0) (hlt : key < 4294967296)
    (hobj : obj.length = m.nodeSize - 4) (hf : f key = none) :
    ∃ m', mgMapAdd m key obj = some (0, m') ∧ m'.Represents (update f key (some obj)) ∧
      m'.nodeSize = m.nodeSize := by
  have htake : obj.take (m.nodeSize - 4) = obj := List.take_of_length_le hobj.le
  unfold mgMapAdd
  rw [h.live]
  simp only [if_neg hkey, htake]
  cases hfind : findNode m.mem m.nodeSize 0 m.count with
  | some i =>
    obtain ⟨hi, hfree, -⟩ := findNode_eq_some.1 hfind
    exact ⟨_, rfl, h.write hi (.inl ⟨MgMap.node_eq_none.2 hfree, hf⟩) hkey hlt hobj, rfl⟩
  | none =>
    have hplace : m.nodeSize * m.count * 2 / 2 = m.count * m.nodeSize := by
      rw [Nat.mul_div_cancel _ (by decide), Nat.mul_comm]
    have hpos := h.count_pos
    -- the first node of the new half
    have hlast : m.count < m.resized.count := by
      simp only [MgMap.resized]
      omega
    have hkey0 := le32_resize m.mem h.node hlast
    rw [if_neg (Nat.lt_irrefl _)] at hkey0
    have hwrite := h.resized.write hlast (.inl ⟨MgMap.node_eq_none.2 hkey0, hf⟩) hkey hlt hobj
    refine ⟨_, rfl, ?_, rfl⟩
    simp only [MgMap.writeAt, MgMap.resized, MgMap.mem, Nat.add_sub_cancel, hplace] at hwrite ⊢
    exact hwrite

theorem MgMap.Represents.set (h : m.Represents f) (hkey : key ≠ 0) (hlt : key < 4294967296)
    (hobj : obj.length = m.nodeSize - 4) :
    ∃ m', mgMapSet m key obj = some (0, m') ∧ m'.Represents (update f key (some obj)) ∧
      m'.nodeSize = m.nodeSize := by
  have htake : obj.take (m.nodeSize - 4) = obj := List.take_of_length_le hobj.le
  rw [mgMapSet, h.live]
  simp only [if_neg hkey, htake]
  cases hf : f key with
  | none =>
    obtain ⟨m', hadd, hrep, hsize⟩ := h.add hkey hlt hobj hf
    rw [h.get_none hf]
    simp only [hadd, Option.map_some]
    exact ⟨m', rfl, hrep, hsize⟩
  | some v =>
    obtain ⟨i, hi, hnode, hget, -⟩ := h.get_some hf
    rw [hget]
    exact ⟨_, rfl, h.write hi (.inr ⟨v, hnode⟩) hkey hlt hobj, rfl⟩

/-! ### Deleting -/

theorem MgMap.Represents.del (h : m.Represents f) (hkey : key ≠ 0) :
    (mgMapDel m key).1 = 0 ∧ (mgMapDel m key).2.Represents (update f key none) ∧
      (mgMapDel m key).2.nodeSize = m.nodeSize := by
  rw [mgMapDel, h.live]
  simp only [if_neg hkey]
  cases hf : f key with
  | none =>
    rw [h.get_none hf]
    refine ⟨rfl, ?_, rfl⟩
    rwa [← hf, update_eq_self]
  | some v =>
    obtain ⟨i, hi, hnode, hget, -⟩ := h.get_some hf
    rw [hget]
    refine ⟨rfl, ⟨rfl, h.node, h.count_pos, ?_⟩, rfl⟩
    simp only
    rw [MgMap.node_writeAt h.node (by decide) List.length_replicate]
    exact h.slots.write hi (.inr ⟨v, hnode⟩) none

/-- A new map holds nothing. -/
theorem MgMap.Represents.init (valueSize initialCount : ℕ) (hv : 0 < valueSize)
    (hc : 0 < initialCount) :
    MgMap.Represents ⟨initialCount, valueSize + 4, .live fun _ => 0⟩ fun _ => none :=
  ⟨rfl, by simp only; omega, hc, .empty fun _ _ => MgMap.node_eq_none.2 rfl⟩

end RotorXdp
