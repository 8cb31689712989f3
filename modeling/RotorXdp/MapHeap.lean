import RotorXdp.MapOps
import RotorXdp.Structures
import RotorXdp.Lib.Run

/-!
# Maps in blocks of memory

The functions of `map.c` with the sizes of the blocks: sizes are computed in `size_t`, and a node
outside the block cannot be accessed. As long as no size overflows they are the functions on a
memory without end, and the map is a finite map over any calls.

* `HeapMap` and its functions;
* `HeapMap.Fits`: the block has the size of its nodes;
* `find_eq`, `add_eq`, `set_eq`, `del_eq`: the functions of such a map never leave the block;
* `map_is_finite`: the calls of a run.
-/

namespace RotorXdp

open Bytes Function Runs

/-- Arithmetic in `size_t`. -/
def sizeT (n : ℕ) : ℕ := n % 18446744073709551616

/-- A live `mg_Map` and the size that its block was asked for. -/
structure HeapMap where
  count : ℕ
  nodeSize : ℕ
  size : ℕ
  mem : Mem

/-- What `mg_map_init` leaves when it succeeds. -/
def HeapMap.init (valueSize initialCount : ℕ) : HeapMap where
  count := initialCount
  nodeSize := sizeT (valueSize + 4)
  size := sizeT (sizeT (valueSize + 4) * initialCount)
  mem := fun _ => 0

/-- The scan for the first node with a key. It reads the nodes up to the one at which it stops. -/
def HeapMap.find (m : HeapMap) (key : ℕ) : Except Fault (Option ℕ) :=
  let found := findNode m.mem m.nodeSize key m.count
  let scanned := (found.map (· + 1)).getD m.count
  if scanned = 0 ∨ (scanned - 1) * m.nodeSize + 4 ≤ m.size then .ok found
  else .error .outOfBounds

/-- A key and the bytes of a value are written to the node whose value is at `place`. -/
def HeapMap.write (m : HeapMap) (place key : ℕ) (bytes : List UInt8) : Except Fault HeapMap :=
  if place + bytes.length ≤ m.size then
    .ok { m with mem := store (setLe32 m.mem (place - 4) key) place bytes }
  else .error .outOfBounds

/-- `mg_map_get`. -/
def HeapMap.get (m : HeapMap) (key : ℕ) : Except Fault (Option ℕ) :=
  if key = 0 then .ok none else (m.find key).map (Option.map (· * m.nodeSize + 4))

/-- `mg_map_add`. -/
def HeapMap.add (m : HeapMap) (key : ℕ) (object : List UInt8) : Except Fault (ℤ × HeapMap) :=
  if key = 0 then .ok (-3, m)
  else
    match m.find 0 with
    | .error e => .error e
    | .ok (some i) =>
      (m.write (i * m.nodeSize + 4) key (object.take (m.nodeSize - 4))).map fun m => (0, m)
    | .ok none =>
      -- resize: the upper half of the doubled block is zeroed and its first node used
      let total := sizeT (m.nodeSize * m.count * 2)
      let m' : HeapMap := { m with
        count := sizeT (m.count * 2)
        size := total
        mem := fun a => if total / 2 ≤ a ∧ a < total then 0 else m.mem a }
      (m'.write (total / 2 + 4) key (object.take (m.nodeSize - 4))).map fun m => (0, m)

/-- `mg_map_set`. -/
def HeapMap.set (m : HeapMap) (key : ℕ) (object : List UInt8) : Except Fault (ℤ × HeapMap) :=
  if key = 0 then .ok (-3, m)
  else
    match m.get key with
    | .error e => .error e
    | .ok none => (m.add key object).map fun r => (0, r.2)
    | .ok (some place) => (m.write place key (object.take (m.nodeSize - 4))).map fun m => (0, m)

/-- `mg_map_del`. -/
def HeapMap.del (m : HeapMap) (key : ℕ) : Except Fault (ℤ × HeapMap) :=
  if key = 0 then .ok (-3, m)
  else
    match m.get key with
    | .error e => .error e
    | .ok none => .ok (0, m)
    | .ok (some place) =>
      (m.write place 0 (List.replicate (m.nodeSize - 4) 0)).map fun m => (0, m)

/-- The bytes of the value that `mg_map_get` points to. -/
def HeapMap.value (m : HeapMap) (valueSize key : ℕ) : Except Fault (Option (List UInt8)) :=
  (m.get key).map (Option.map fun p => load m.mem p valueSize)

/-! ### Blocks of the right size -/

/-- The block has the size of its nodes. -/
structure HeapMap.Fits (m : HeapMap) : Prop where
  size_eq : m.size = m.nodeSize * m.count
  node : 4 ≤ m.nodeSize
  count_pos : 0 < m.count

/-- The map on a memory without end. -/
def HeapMap.toMgMap (m : HeapMap) : MgMap := ⟨m.count, m.nodeSize, .live m.mem⟩

section Functions

variable {m : HeapMap} {f : ℕ → Option (List UInt8)} {key : ℕ} {obj : List UInt8}

theorem node_le_size {ns count i : ℕ} (h : i < count) : i * ns + ns ≤ ns * count := by
  calc i * ns + ns = ns * (i + 1) := by ring
    _ ≤ ns * count := Nat.mul_le_mul_left ns h

/-- The scan never leaves the block. -/
theorem HeapMap.Fits.find_eq (h : m.Fits) (key : ℕ) :
    m.find key = .ok (findNode m.mem m.nodeSize key m.count) := by
  have hns := h.node
  have hpos := h.count_pos
  have hread : ∀ n, 0 < n → n ≤ m.count → (n - 1) * m.nodeSize + 4 ≤ m.size := by
    intro n hn hle
    have hnode := @node_le_size m.nodeSize m.count (n - 1) (by omega)
    rw [h.size_eq]
    omega
  simp only [HeapMap.find]
  cases hfind : findNode m.mem m.nodeSize key m.count with
  | none => exact if_pos (.inr (hread _ hpos (Nat.le_refl _)))
  | some i =>
    have hi := (findNode_eq_some.1 hfind).1
    exact if_pos (.inr (hread (i + 1) (by omega) hi))

theorem HeapMap.Fits.get_eq (h : m.Fits) (key : ℕ) : m.get key = .ok (mgMapGet m.toMgMap key) := by
  simp only [HeapMap.get, mgMapGet, HeapMap.toMgMap, h.find_eq key]
  split <;> rfl

theorem HeapMap.Fits.write_eq (h : m.Fits) {i : ℕ} (hi : i < m.count)
    (hobj : obj.length = m.nodeSize - 4) :
    ∃ m', m.write (i * m.nodeSize + 4) key obj = .ok m' ∧ m'.Fits ∧
      m'.toMgMap = m.toMgMap.writeAt (i * m.nodeSize + 4) key obj := by
  have hns := h.node
  have hnode := @node_le_size m.nodeSize m.count i hi
  have hroom : i * m.nodeSize + 4 + obj.length ≤ m.size := by
    rw [h.size_eq]
    omega
  exact ⟨_, if_pos hroom, ⟨h.size_eq, hns, h.count_pos⟩, rfl⟩

/-- The map holds the values of `f`, in a block of its size. -/
structure HeapMap.Represents (m : HeapMap) (f : ℕ → Option (List UInt8)) : Prop where
  fits : m.Fits
  map : m.toMgMap.Represents f

/-- Between nodes that are all used, a key can only be added if the doubled size is a `size_t`. -/
def HeapMap.CanGrow (m : HeapMap) : Prop :=
  findNode m.mem m.nodeSize 0 m.count = none →
    m.nodeSize * m.count * 2 < 18446744073709551616

theorem HeapMap.Represents.add_eq (h : m.Represents f) (hkey : key ≠ 0) (hlt : key < 4294967296)
    (hobj : obj.length = m.nodeSize - 4) (hf : f key = none) (hgrow : m.CanGrow) :
    ∃ m', m.add key obj = .ok (0, m') ∧ m'.Represents (update f key (some obj)) ∧
      m'.nodeSize = m.nodeSize := by
  have hns := h.fits.node
  have hpos := h.fits.count_pos
  have htake : obj.take (m.nodeSize - 4) = obj := List.take_of_length_le hobj.le
  obtain ⟨m₁, hadd, hrep, hsize⟩ := h.map.add hkey hlt hobj hf
  simp only [mgMapAdd, HeapMap.toMgMap, if_neg hkey, htake] at hadd
  simp only [HeapMap.add, if_neg hkey, h.fits.find_eq, htake]
  cases hfind : findNode m.mem m.nodeSize 0 m.count with
  | some i =>
    rw [hfind] at hadd
    obtain ⟨m', hwrite, hfits, hmap⟩ :=
      h.fits.write_eq (findNode_eq_some.1 hfind).1 hobj
    dsimp only
    rw [hwrite]
    refine ⟨m', rfl, ⟨hfits, ?_⟩, ?_⟩
    · cases hadd
      rwa [hmap]
    · exact congrArg MgMap.nodeSize hmap
  | none =>
    have hno := hgrow hfind
    have hle : m.count * 2 ≤ m.nodeSize * m.count * 2 :=
      Nat.mul_le_mul_right 2 (Nat.le_mul_of_pos_left _ (by omega))
    have htotal : sizeT (m.nodeSize * m.count * 2) = m.nodeSize * m.count * 2 :=
      Nat.mod_eq_of_lt hno
    have hcount : sizeT (m.count * 2) = m.count * 2 := Nat.mod_eq_of_lt (by omega)
    rw [hfind] at hadd
    simp only [htotal, hcount, HeapMap.write]
    -- the doubled block has room for the first node of its upper half
    have hroom : m.nodeSize * m.count * 2 / 2 + 4 + obj.length ≤ m.nodeSize * m.count * 2 := by
      have hone : m.nodeSize ≤ m.nodeSize * m.count := Nat.le_mul_of_pos_right _ hpos
      omega
    rw [if_pos hroom]
    refine ⟨_, rfl, ⟨⟨?_, hns, ?_⟩, ?_⟩, rfl⟩
    · simp only [Nat.mul_assoc]
    · simp only
      omega
    · cases hadd
      exact hrep

theorem HeapMap.Represents.get_none (h : m.Represents f) (hf : f key = none) :
    m.get key = .ok none := by
  rw [h.fits.get_eq, h.map.get_none hf]

theorem HeapMap.Represents.set_eq (h : m.Represents f) (hkey : key ≠ 0) (hlt : key < 4294967296)
    (hobj : obj.length = m.nodeSize - 4) (hgrow : f key = none → m.CanGrow) :
    ∃ m', m.set key obj = .ok (0, m') ∧ m'.Represents (update f key (some obj)) ∧
      m'.nodeSize = m.nodeSize := by
  have htake : obj.take (m.nodeSize - 4) = obj := List.take_of_length_le hobj.le
  simp only [HeapMap.set, if_neg hkey, htake]
  cases hf : f key with
  | none =>
    obtain ⟨m', hadd, hrep, hsize⟩ := h.add_eq hkey hlt hobj hf (hgrow hf)
    rw [h.get_none hf]
    simp only [hadd]
    exact ⟨m', rfl, hrep, hsize⟩
  | some v =>
    obtain ⟨i, hi, hnode, hget, -⟩ := h.map.get_some hf
    obtain ⟨m', hwrite, hfits, hmap⟩ := h.fits.write_eq hi hobj
    rw [h.fits.get_eq, hget]
    dsimp only [HeapMap.toMgMap]
    rw [hwrite]
    refine ⟨m', rfl, ⟨hfits, ?_⟩, congrArg MgMap.nodeSize hmap⟩
    rw [hmap]
    exact h.map.write hi (.inr ⟨v, hnode⟩) hkey hlt hobj

theorem HeapMap.Represents.del_eq (h : m.Represents f) (hkey : key ≠ 0) :
    ∃ m', m.del key = .ok (0, m') ∧ m'.Represents (update f key none) ∧
      m'.nodeSize = m.nodeSize := by
  simp only [HeapMap.del, if_neg hkey]
  obtain ⟨-, hrep, -⟩ := h.map.del hkey
  simp only [mgMapDel, if_neg hkey] at hrep
  cases hf : f key with
  | none =>
    rw [h.map.get_none hf] at hrep
    rw [h.get_none hf]
    exact ⟨m, rfl, ⟨h.fits, hrep⟩, rfl⟩
  | some v =>
    obtain ⟨i, hi, -, hget, -⟩ := h.map.get_some hf
    obtain ⟨m', hwrite, hfits, hmap⟩ : ∃ m', m.write (i * m.nodeSize + 4) 0
        (List.replicate (m.nodeSize - 4) 0) = .ok m' ∧ m'.Fits ∧ m'.toMgMap =
          m.toMgMap.writeAt (i * m.nodeSize + 4) 0 (List.replicate (m.nodeSize - 4) 0) :=
      h.fits.write_eq hi List.length_replicate
    rw [hget] at hrep
    rw [h.fits.get_eq, hget]
    dsimp only [HeapMap.toMgMap] at hrep ⊢
    rw [hwrite]
    exact ⟨m', rfl, ⟨hfits, by rwa [hmap]⟩, congrArg MgMap.nodeSize hmap⟩

end Functions

/-! ### Runs -/

/-- A call that changes a map. -/
inductive MapOp
  | add (key : ℕ) (object : List UInt8)
  | set (key : ℕ) (object : List UInt8)
  | del (key : ℕ)

def MapOp.key : MapOp → ℕ
  | .add key _ | .set key _ | .del key => key

def MapOp.object : MapOp → Option (List UInt8)
  | .add _ object | .set _ object => some object
  | .del _ => none

def HeapMap.exec (m : HeapMap) : MapOp → Except Fault (ℤ × HeapMap)
  | .add key object => m.add key object
  | .set key object => m.set key object
  | .del key => m.del key

/-- A call that stays inside the block. -/
def HeapMap.step (m : HeapMap) (op : MapOp) : Option HeapMap :=
  match m.exec op with
  | .ok r => some r.2
  | .error _ => none

/-- What a call does to a finite map. -/
def MapOp.apply (f : ℕ → Option (List UInt8)) (op : MapOp) : ℕ → Option (List UInt8) :=
  update f op.key op.object

/-- What is stored under each key after a list of calls, the value stored last if it was not deleted
since. -/
def contents (ops : List MapOp) : ℕ → Option (List UInt8) := ops.foldl MapOp.apply fun _ => none

/-- A call with a key, which is new when it is added, and an object of `value_size` bytes. -/
structure MapOp.Proper (valueSize : ℕ) (f : ℕ → Option (List UInt8)) (op : MapOp) : Prop where
  key_ne : op.key ≠ 0
  key_lt : op.key < 4294967296
  object_length : ∀ object, op.object = some object → object.length = valueSize
  fresh : ∀ key object, op = .add key object → f key = none

/-- If the call needs a new node between nodes that are all used, the doubled size is a `size_t`. -/
def HeapMap.HasRoom (m : HeapMap) : MapOp → Prop
  | .add _ _ => m.CanGrow
  | .set key _ => findNode m.mem m.nodeSize key m.count = none → m.CanGrow
  | .del _ => True

/-- Proper calls, from a map with the contents `f`. -/
def ProperCalls (valueSize : ℕ) (f : ℕ → Option (List UInt8)) (ops : List MapOp) : Prop :=
  Along (fun f op => some (MapOp.apply f op)) (MapOp.Proper valueSize) f ops

variable {m : HeapMap} {f : ℕ → Option (List UInt8)} {valueSize initialCount : ℕ} {op : MapOp}
  {ops : List MapOp}

theorem HeapMap.Represents.step (h : m.Represents f) (hns : m.nodeSize = valueSize + 4)
    (hop : op.Proper valueSize f) (hroom : m.HasRoom op) :
    ∃ m', m.step op = some m' ∧ m'.Represents (op.apply f) ∧ m'.nodeSize = valueSize + 4 := by
  have hobj : ∀ object, op.object = some object → object.length = m.nodeSize - 4 := by
    intro object hobject
    rw [hop.object_length object hobject, hns, Nat.add_sub_cancel]
  cases op with
  | add key object =>
    have hkey : key ≠ 0 := hop.key_ne
    obtain ⟨m', hadd, hrep, hsize⟩ := h.add_eq hkey hop.key_lt (hobj object rfl)
      (hop.fresh key object rfl) hroom
    refine ⟨m', ?_, hrep, hsize.trans hns⟩
    simp only [HeapMap.step, HeapMap.exec, hadd]
  | set key object =>
    have hkey : key ≠ 0 := hop.key_ne
    have hgrow : f key = none → m.CanGrow := fun hf => hroom (h.map.find_none hkey hf)
    obtain ⟨m', hset, hrep, hsize⟩ := h.set_eq hkey hop.key_lt (hobj object rfl) hgrow
    refine ⟨m', ?_, hrep, hsize.trans hns⟩
    simp only [HeapMap.step, HeapMap.exec, hset]
  | del key =>
    have hkey : key ≠ 0 := hop.key_ne
    obtain ⟨m', hdel, hrep, hsize⟩ := h.del_eq hkey
    refine ⟨m', ?_, hrep, hsize.trans hns⟩
    simp only [HeapMap.step, HeapMap.exec, hdel]

theorem HeapMap.Represents.run (h : m.Represents f) (hns : m.nodeSize = valueSize + 4)
    (hops : ProperCalls valueSize f ops) (hroom : Along HeapMap.step HeapMap.HasRoom m ops) :
    ∃ m', Runs.run HeapMap.step m ops = some m' ∧ m'.Represents (ops.foldl MapOp.apply f) ∧
      m'.nodeSize = valueSize + 4 := by
  induction ops generalizing m f with
  | nil => exact ⟨m, rfl, h, hns⟩
  | cons op ops ih =>
    obtain ⟨m₁, hstep, hrep, hsize⟩ := h.step hns hops.1 hroom.1
    obtain ⟨m₂, hrun, hrep', hsize'⟩ := ih hrep hsize (hops.2 _ rfl) (hroom.2 m₁ hstep)
    exact ⟨m₂, by rw [run_cons_of_step hstep, hrun], hrep', hsize'⟩

theorem HeapMap.Represents.init (hv : 0 < valueSize) (hc : 0 < initialCount)
    (hsize : (valueSize + 4) * initialCount < 18446744073709551616) :
    (HeapMap.init valueSize initialCount).Represents (fun _ => none) ∧
      (HeapMap.init valueSize initialCount).nodeSize = valueSize + 4 := by
  have hle : valueSize + 4 ≤ (valueSize + 4) * initialCount := Nat.le_mul_of_pos_right _ hc
  have hnode : sizeT (valueSize + 4) = valueSize + 4 := Nat.mod_eq_of_lt (by omega)
  have htotal : sizeT ((valueSize + 4) * initialCount) = (valueSize + 4) * initialCount :=
    Nat.mod_eq_of_lt hsize
  refine ⟨⟨⟨?_, ?_, hc⟩, ?_⟩, hnode⟩
  · simp only [HeapMap.init, hnode, htotal]
  · simp only [HeapMap.init, hnode]
    omega
  · simp only [HeapMap.toMgMap, HeapMap.init, hnode]
    exact MgMap.Represents.init valueSize initialCount hv hc

theorem HeapMap.Represents.value_eq (h : m.Represents f) (hns : m.nodeSize = valueSize + 4)
    (key : ℕ) : m.value valueSize key = .ok (f key) := by
  rw [HeapMap.value, h.fits.get_eq]
  cases hf : f key with
  | none =>
    rw [h.map.get_none hf]
    rfl
  | some v =>
    obtain ⟨i, -, -, hget, hvalue⟩ := h.map.get_some hf
    have hlen : m.toMgMap.nodeSize - 4 = valueSize := by
      show m.nodeSize - 4 = valueSize
      omega
    rw [hlen] at hvalue
    rw [hget, ← hvalue]
    rfl

/-- **A map is a finite map over any calls** as long as no size of a block overflows: `mg_map_get`
finds what was stored last, no key is in two nodes, and a call changes the value of its key only. -/
theorem map_is_finite (hv : 0 < valueSize) (hc : 0 < initialCount)
    (hsize : (valueSize + 4) * initialCount < 18446744073709551616)
    (hops : ProperCalls valueSize (fun _ => none) ops)
    (hroom : Along HeapMap.step HeapMap.HasRoom (HeapMap.init valueSize initialCount) ops) :
    ∃ m, run HeapMap.step (HeapMap.init valueSize initialCount) ops = some m ∧
      (∀ key, m.value valueSize key = .ok (contents ops key)) ∧
      (∀ i < m.count, ∀ j < m.count, le32 m.mem (i * m.nodeSize) ≠ 0 →
        le32 m.mem (i * m.nodeSize) = le32 m.mem (j * m.nodeSize) → i = j) ∧
      ∀ op, op.Proper valueSize (contents ops) → m.HasRoom op → ∃ m', m.step op = some m' ∧
        ∀ key, key ≠ op.key → m'.value valueSize key = m.value valueSize key := by
  obtain ⟨hinit, hns⟩ := HeapMap.Represents.init hv hc hsize
  obtain ⟨m, hrun, hrep, hns'⟩ := hinit.run hns hops hroom
  refine ⟨m, hrun, hrep.value_eq hns', ?_, ?_⟩
  · intro i hi j hj hne heq
    have hnodei := (MgMap.node_eq_some (m := m.toMgMap)).2 ⟨rfl, hne, rfl⟩
    have hnodej := (MgMap.node_eq_some (m := m.toMgMap)).2 ⟨heq.symm, hne, rfl⟩
    exact hrep.map.slots.unique i hi j hj _ _ _ hnodei hnodej
  · intro op hop hr
    obtain ⟨m', hstep, hrep', hns''⟩ := hrep.step hns' hop hr
    refine ⟨m', hstep, fun key hkey => ?_⟩
    rw [hrep'.value_eq hns'', hrep.value_eq hns', MapOp.apply, update_of_ne hkey]

/-- One node with a value of three bytes is filled, freed, and filled again for another key. -/
def reuse : List MapOp := [.set 5 [1, 2, 3], .del 5, .add 6 [4, 5, 6]]

theorem map_is_finite_reuse :
    ∃ m, run HeapMap.step (HeapMap.init 3 1) reuse = some m ∧
      (∀ key, m.value 3 key = .ok (contents reuse key)) ∧
      (∀ i < m.count, ∀ j < m.count, le32 m.mem (i * m.nodeSize) ≠ 0 →
        le32 m.mem (i * m.nodeSize) = le32 m.mem (j * m.nodeSize) → i = j) ∧
      ∀ op, op.Proper 3 (contents reuse) → m.HasRoom op → ∃ m', m.step op = some m' ∧
        ∀ key, key ≠ op.key → m'.value 3 key = m.value 3 key := by
  have hset : MapOp.Proper 3 (fun _ => none) (.set 5 [1, 2, 3]) :=
    ⟨by decide, by decide, fun o ho => (by cases ho; rfl), fun k o ho => (by cases ho)⟩
  have hdel : MapOp.Proper 3 (contents [.set 5 [1, 2, 3]]) (.del 5) :=
    ⟨by decide, by decide, fun o ho => (by cases ho), fun k o ho => (by cases ho)⟩
  have hadd : MapOp.Proper 3 (contents [.set 5 [1, 2, 3], .del 5]) (.add 6 [4, 5, 6]) :=
    ⟨by decide, by decide, fun o ho => (by cases ho; rfl), fun k o ho => (by cases ho; rfl)⟩
  apply map_is_finite (by decide) (by decide) (by decide)
  · refine ⟨hset, fun f hf => ?_⟩
    cases hf
    refine ⟨hdel, fun f hf => ?_⟩
    cases hf
    exact ⟨hadd, fun _ _ => trivial⟩
  · refine ⟨fun _ _ => by decide, fun m₁ h₁ =>
      ⟨trivial, fun m₂ h₂ => ⟨fun _ => ?_, fun _ _ => trivial⟩⟩⟩
    cases h₁
    cases h₂
    decide

/-- The size of the block overflows to 8 bytes, one node: the first lookup that fails reads behind
it. -/
theorem oversized_count :
    (HeapMap.init 4 2305843009213693953).size = 8 ∧
    (HeapMap.init 4 2305843009213693953).value 4 1 = .error .outOfBounds ∧
    ¬ ∀ valueSize initialCount ops, 0 < valueSize → 0 < initialCount →
      ProperCalls valueSize (fun _ => none) ops →
      ∃ m, run HeapMap.step (HeapMap.init valueSize initialCount) ops = some m ∧
        ∀ key, m.value valueSize key = .ok (contents ops key) := by
  have hnone : findNode (fun _ => 0) 8 1 2305843009213693953 = none := by
    refine findNode_eq_none.2 fun i _ h => ?_
    have hzero : le32 (fun _ => 0) (i * 8) = 0 := rfl
    rw [hzero] at h
    cases h
  have hfind : (HeapMap.init 4 2305843009213693953).find 1 = .error .outOfBounds := by
    show HeapMap.find ⟨2305843009213693953, 8, 8, fun _ => 0⟩ 1 = _
    simp only [HeapMap.find, hnone]
    rfl
  have hvalue : (HeapMap.init 4 2305843009213693953).value 4 1 = .error .outOfBounds := by
    rw [HeapMap.value, HeapMap.get, if_neg (by decide), hfind]
    rfl
  refine ⟨rfl, hvalue, fun h => ?_⟩
  obtain ⟨m, hrun, hall⟩ := h 4 2305843009213693953 [] (by decide) (by decide) trivial
  cases hrun
  have hkey := hall 1
  rw [hvalue] at hkey
  cases hkey

end RotorXdp
