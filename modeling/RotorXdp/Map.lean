import RotorXdp.Lib.Bytes
import Mathlib.Data.Int.Notation

/-!
# The packed key-value array `mg_Map`

`map.c`: `count` nodes of `node_size` bytes in one block, each a 32-bit key followed by the value;
key 0 marks a free node. A value is handed out as a pointer into the block, modelled as its
offset.
-/

namespace RotorXdp

open Bytes

/-- What the `data` pointer of a map refers to. -/
inductive Block
  | null
  | live (mem : Mem)
  /-- released with `free`, the pointer kept -/
  | freed

/-- `mg_Map`. -/
structure MgMap where
  count : ℕ
  nodeSize : ℕ
  data : Block

/-- A zero-initialised global map. -/
def MgMap.zero : MgMap := ⟨0, 0, .null⟩

/-- `mg_map_init`: the status and the map. -/
def mgMapInit (m : MgMap) (valueSize initialCount : ℕ) : ℤ × MgMap :=
  if valueSize = 0 then (-10, m)
  else if initialCount = 0 then (-11, m)
  else match m.data with
    | .null => (0, ⟨initialCount, valueSize + 4, .live fun _ => 0⟩)
    | _ => (-20, m)

/-- The first node among `count` whose key is `key`. -/
def findNode (d : Mem) (ns key count : ℕ) : Option ℕ :=
  (List.range count).find? fun i => le32 d (i * ns) = key

/-- `mg_map_get`: the offset of the value, `none` for `NULL`. Cleaning a map up sets `count` to 0,
so the scan of a released block has no iteration. -/
def mgMapGet (m : MgMap) (key : ℕ) : Option ℕ :=
  match m.data with
  | .live d =>
    if key = 0 then none else (findNode d m.nodeSize key m.count).map (· * m.nodeSize + 4)
  | _ => none

/-- `mg_map_add`: the status and the map; `none` when a released block is handed to `realloc`. -/
def mgMapAdd (m : MgMap) (key : ℕ) (object : List UInt8) : Option (ℤ × MgMap) :=
  match m.data with
  | .null => some (-2, m)
  | .freed => if key = 0 then some (-3, m) else none
  | .live d =>
    if key = 0 then some (-3, m)
    else
      let obj := object.take (m.nodeSize - 4)
      match findNode d m.nodeSize 0 m.count with
      | some i =>
        let place := i * m.nodeSize + 4
        some (0, { m with data := .live (store (setLe32 d (place - 4) key) place obj) })
      | none =>
        -- resize: the upper half of the doubled block is zeroed and its first node used
        let total := m.nodeSize * m.count * 2
        let d' : Mem := fun a => if total / 2 ≤ a ∧ a < total then 0 else d a
        let place := total / 2 + 4
        some (0, { m with
          count := m.count * 2
          data := .live (store (setLe32 d' (place - 4) key) place obj) })

/-- The bytes a value pointer of the map reads. -/
def MgMap.mem (m : MgMap) : Mem :=
  match m.data with
  | .live d => d
  | _ => fun _ => 0

/-- A 32-bit pattern read as a C `int`. -/
def toInt32 (v : ℕ) : ℤ := if v < 2147483648 then v else (v : ℤ) - 4294967296

/-- `((struct ip_set *) p)->index`. -/
def ipSetIndex (m : MgMap) (p : ℕ) : ℤ := toInt32 (le32 m.mem p)

/-- `((struct mac_addr *) p)->bytes`, the six bytes that are used. -/
def macAddrBytes (m : MgMap) (p : ℕ) : List UInt8 := load m.mem p 6

end RotorXdp
