import Mathlib.Logic.Function.Basic
import Mathlib.Algebra.Ring.Nat

/-!
# Byte-addressed memory

Memory is a function from addresses to bytes. Multi-byte fields are read and written in either
byte order, and `copy` moves a block. Every update comes with the pair of facts its users need:
what is read back from the written bytes, and that the other bytes are unchanged.
-/

namespace Bytes

/-- Memory contents by address. -/
abbrev Mem := ℕ → UInt8

/-- Store one byte. -/
def set (m : Mem) (a : ℕ) (b : UInt8) : Mem := Function.update m a b

/-- The 16-bit value stored most significant byte first. -/
def be16 (m : Mem) (a : ℕ) : ℕ := 256 * (m a).toNat + (m (a + 1)).toNat

/-- The 16-bit value stored least significant byte first. -/
def le16 (m : Mem) (a : ℕ) : ℕ := (m a).toNat + 256 * (m (a + 1)).toNat

/-- The 32-bit value stored least significant byte first. -/
def le32 (m : Mem) (a : ℕ) : ℕ :=
  (m a).toNat + 256 * (m (a + 1)).toNat + 65536 * (m (a + 2)).toNat +
    16777216 * (m (a + 3)).toNat

def setBe16 (m : Mem) (a v : ℕ) : Mem :=
  set (set m a (UInt8.ofNat (v / 256))) (a + 1) (UInt8.ofNat v)

def setLe16 (m : Mem) (a v : ℕ) : Mem :=
  set (set m a (UInt8.ofNat v)) (a + 1) (UInt8.ofNat (v / 256))

def setLe32 (m : Mem) (a v : ℕ) : Mem :=
  set (set (set (set m a (UInt8.ofNat v)) (a + 1) (UInt8.ofNat (v / 256)))
    (a + 2) (UInt8.ofNat (v / 65536))) (a + 3) (UInt8.ofNat (v / 16777216))

/-- Copy `n` bytes from `src` to `dst`. All bytes are read before the first is written, also where
the blocks overlap, which C leaves open for `memcpy`. -/
def copy (m : Mem) (dst src n : ℕ) : Mem := fun a =>
  if dst ≤ a ∧ a < dst + n then m (src + (a - dst)) else m a

/-- Write a list of bytes at `a`. -/
def store (m : Mem) (a : ℕ) (bs : List UInt8) : Mem := fun i =>
  if a ≤ i then bs.getD (i - a) (m i) else m i

/-- The `n` bytes at `a`. -/
def load (m : Mem) (a n : ℕ) : List UInt8 := (List.range n).map fun i => m (a + i)

@[simp] theorem set_self (m : Mem) (a : ℕ) (b : UInt8) : set m a b a = b := by simp [set]

theorem set_of_ne (m : Mem) {a i : ℕ} (b : UInt8) (h : i ≠ a) : set m a b i = m i := by
  simp [set, h]

/-! ### Bounds -/

theorem toNat_lt (b : UInt8) : b.toNat < 256 := b.toNat_lt

theorem be16_lt (m : Mem) (a : ℕ) : be16 m a < 65536 := by
  have := toNat_lt (m a); have := toNat_lt (m (a + 1)); unfold be16; omega

theorem le16_lt (m : Mem) (a : ℕ) : le16 m a < 65536 := by
  have := toNat_lt (m a); have := toNat_lt (m (a + 1)); unfold le16; omega

theorem le32_lt (m : Mem) (a : ℕ) : le32 m a < 4294967296 := by
  have := toNat_lt (m a); have := toNat_lt (m (a + 1))
  have := toNat_lt (m (a + 2)); have := toNat_lt (m (a + 3))
  unfold le32; omega

/-- The two words of a field. -/
theorem le32_eq_words (m : Mem) (a : ℕ) : le32 m a = le16 m a + 65536 * le16 m (a + 2) := by
  simp only [le32, le16, Nat.add_assoc, Nat.reduceAdd]
  omega

/-- The last byte of a field is the high byte of its second word. -/
theorem le32_div (m : Mem) (a : ℕ) : le32 m a / 16777216 = le16 m (a + 2) / 256 := by
  have := le16_lt m a
  rw [le32_eq_words]
  omega

/-! ### A field depends on its own bytes -/

theorem be16_congr {m m' : Mem} {a a' : ℕ} (h : ∀ i < 2, m (a + i) = m' (a' + i)) :
    be16 m a = be16 m' a' := by
  have h0 := h 0 (by omega)
  have h1 := h 1 (by omega)
  simp only [Nat.add_zero] at h0
  simp only [be16, h0, h1]

theorem le16_congr {m m' : Mem} {a a' : ℕ} (h : ∀ i < 2, m (a + i) = m' (a' + i)) :
    le16 m a = le16 m' a' := by
  have h0 := h 0 (by omega)
  have h1 := h 1 (by omega)
  simp only [Nat.add_zero] at h0
  simp only [le16, h0, h1]

theorem le32_congr {m m' : Mem} {a a' : ℕ} (h : ∀ i < 4, m (a + i) = m' (a' + i)) :
    le32 m a = le32 m' a' := by
  have h0 := h 0 (by omega)
  have h1 := h 1 (by omega)
  have h2 := h 2 (by omega)
  have h3 := h 3 (by omega)
  simp only [Nat.add_zero] at h0
  simp only [le32, h0, h1, h2, h3]

/-! ### Reading back -/

theorem be16_setBe16 (m : Mem) (a v : ℕ) : be16 (setBe16 m a v) a = v % 65536 := by
  have h : set (set m a (UInt8.ofNat (v / 256))) (a + 1) (UInt8.ofNat v) a
      = UInt8.ofNat (v / 256) := by
    rw [set_of_ne _ _ (by omega), set_self]
  simp only [be16, setBe16, h, set_self, UInt8.toNat_ofNat']
  omega

theorem le16_setLe16 (m : Mem) (a v : ℕ) : le16 (setLe16 m a v) a = v % 65536 := by
  have h : set (set m a (UInt8.ofNat v)) (a + 1) (UInt8.ofNat (v / 256)) a
      = UInt8.ofNat v := by
    rw [set_of_ne _ _ (by omega), set_self]
  simp only [le16, setLe16, h, set_self, UInt8.toNat_ofNat']
  omega

theorem le32_setLe32 (m : Mem) (a v : ℕ) : le32 (setLe32 m a v) a = v % 4294967296 := by
  have h0 : setLe32 m a v a = UInt8.ofNat v := by
    rw [setLe32, set_of_ne _ _ (by omega), set_of_ne _ _ (by omega), set_of_ne _ _ (by omega),
      set_self]
  have h1 : setLe32 m a v (a + 1) = UInt8.ofNat (v / 256) := by
    rw [setLe32, set_of_ne _ _ (by omega), set_of_ne _ _ (by omega), set_self]
  have h2 : setLe32 m a v (a + 2) = UInt8.ofNat (v / 65536) := by
    rw [setLe32, set_of_ne _ _ (by omega), set_self]
  have h3 : setLe32 m a v (a + 3) = UInt8.ofNat (v / 16777216) := by
    rw [setLe32, set_self]
  simp only [le32, h0, h1, h2, h3, UInt8.toNat_ofNat']
  omega

/-- Four bytes of a number below 2^32 make the number. -/
theorem le32_of_bytes {m : Mem} {a v : ℕ} (hv : v < 4294967296)
    (h : ∀ o < 4, m (a + o) = UInt8.ofNat (v / 256 ^ o)) : le32 m a = v := by
  have h0 := h 0 (by omega)
  have h1 := h 1 (by omega)
  have h2 := h 2 (by omega)
  have h3 := h 3 (by omega)
  simp only [Nat.add_zero, Nat.pow_zero, Nat.div_one] at h0
  simp only [le32, h0, h1, h2, h3, UInt8.toNat_ofNat', Nat.reducePow]
  omega

theorem copy_inside (m : Mem) (dst src : ℕ) {n i : ℕ} (h : i < n) :
    copy m dst src n (dst + i) = m (src + i) := by
  have hc : dst ≤ dst + i ∧ dst + i < dst + n := ⟨by omega, by omega⟩
  simp only [copy, if_pos hc, Nat.add_sub_cancel_left]

theorem store_inside (m : Mem) (a : ℕ) {bs : List UInt8} {i : ℕ} (h : i < bs.length) :
    store m a bs (a + i) = bs[i] := by
  simp [store, h]

@[simp] theorem load_length (m : Mem) (a n : ℕ) : (load m a n).length = n := by simp [load]

theorem getElem_load (m : Mem) (a : ℕ) {n i : ℕ} (h : i < (load m a n).length) :
    (load m a n)[i] = m (a + i) := by
  simp [load]

theorem take_load (m : Mem) (a : ℕ) {n k : ℕ} (h : k ≤ n) : (load m a n).take k = load m a k := by
  apply List.ext_getElem
  · rw [List.length_take, load_length, load_length, Nat.min_eq_left h]
  · intro j h1 h2
    rw [List.getElem_take, getElem_load, getElem_load]

theorem load_eq {m : Mem} {a : ℕ} {bs : List UInt8}
    (h : ∀ i (hi : i < bs.length), m (a + i) = bs[i]) : load m a bs.length = bs := by
  apply List.ext_getElem
  · simp
  · intro i h1 h2
    rw [getElem_load, h i h2]

theorem load_store (m : Mem) (a : ℕ) (bs : List UInt8) : load (store m a bs) a bs.length = bs :=
  load_eq fun _ hi => store_inside m a hi

theorem load_congr {m m' : Mem} {a a' n : ℕ} (h : ∀ i < n, m (a + i) = m' (a' + i)) :
    load m a n = load m' a' n := by
  apply List.ext_getElem
  · simp
  · intro i h1 _
    rw [getElem_load, getElem_load, h i (by simpa using h1)]

/-- The last write counts. -/
theorem setLe16_setLe16 (m : Mem) (a v w : ℕ) : setLe16 (setLe16 m a v) a w = setLe16 m a w := by
  have hne : a ≠ a + 1 := by omega
  simp only [setLe16, set, Function.update_comm hne, Function.update_idem]

/-! ### Other bytes are unchanged -/

theorem setBe16_of_ne (m : Mem) {a i : ℕ} (v : ℕ) (h : i < a ∨ a + 2 ≤ i) :
    setBe16 m a v i = m i := by
  rw [setBe16, set_of_ne _ _ (by omega), set_of_ne _ _ (by omega)]

theorem setLe16_of_ne (m : Mem) {a i : ℕ} (v : ℕ) (h : i < a ∨ a + 2 ≤ i) :
    setLe16 m a v i = m i := by
  rw [setLe16, set_of_ne _ _ (by omega), set_of_ne _ _ (by omega)]

theorem setLe32_of_ne (m : Mem) {a i : ℕ} (v : ℕ) (h : i < a ∨ a + 4 ≤ i) :
    setLe32 m a v i = m i := by
  rw [setLe32, set_of_ne _ _ (by omega), set_of_ne _ _ (by omega), set_of_ne _ _ (by omega),
    set_of_ne _ _ (by omega)]

theorem store_of_ne (m : Mem) {a i : ℕ} {bs : List UInt8} (h : i < a ∨ a + bs.length ≤ i) :
    store m a bs i = m i := by
  by_cases hi : a ≤ i
  · have hlen : bs.length ≤ i - a := by omega
    rw [store, if_pos hi, List.getD_eq_getElem?_getD, List.getElem?_eq_none hlen,
      Option.getD_none]
  · rw [store, if_neg hi]

theorem copy_of_ne (m : Mem) {dst i n : ℕ} (src : ℕ) (h : i < dst ∨ dst + n ≤ i) :
    copy m dst src n i = m i := by
  have hc : ¬ (dst ≤ i ∧ i < dst + n) := by omega
  simp only [copy, if_neg hc]

/-! ### Fields that do not overlap -/

section Disjoint

variable (m : Mem) {a b : ℕ}

theorem be16_set_of_ne (v : UInt8) (h : b + 2 ≤ a ∨ a + 1 ≤ b) :
    be16 (set m a v) b = be16 m b :=
  be16_congr fun i hi => set_of_ne _ _ (by omega)

theorem be16_setBe16_of_ne (v : ℕ) (h : b + 2 ≤ a ∨ a + 2 ≤ b) :
    be16 (setBe16 m a v) b = be16 m b :=
  be16_congr fun i hi => setBe16_of_ne _ _ (by omega)

theorem be16_setLe16_of_ne (v : ℕ) (h : b + 2 ≤ a ∨ a + 2 ≤ b) :
    be16 (setLe16 m a v) b = be16 m b :=
  be16_congr fun i hi => setLe16_of_ne _ _ (by omega)

theorem be16_setLe32_of_ne (v : ℕ) (h : b + 2 ≤ a ∨ a + 4 ≤ b) :
    be16 (setLe32 m a v) b = be16 m b :=
  be16_congr fun i hi => setLe32_of_ne _ _ (by omega)

theorem be16_store_of_ne {bs : List UInt8} (h : b + 2 ≤ a ∨ a + bs.length ≤ b) :
    be16 (store m a bs) b = be16 m b :=
  be16_congr fun i hi => store_of_ne _ (by omega)

theorem le16_setLe32_of_ne (v : ℕ) (h : b + 2 ≤ a ∨ a + 4 ≤ b) :
    le16 (setLe32 m a v) b = le16 m b :=
  le16_congr fun i hi => setLe32_of_ne _ _ (by omega)

theorem le16_store_of_ne {bs : List UInt8} (h : b + 2 ≤ a ∨ a + bs.length ≤ b) :
    le16 (store m a bs) b = le16 m b :=
  le16_congr fun i hi => store_of_ne _ (by omega)

theorem le32_setBe16_of_ne (v : ℕ) (h : b + 4 ≤ a ∨ a + 2 ≤ b) :
    le32 (setBe16 m a v) b = le32 m b :=
  le32_congr fun i hi => setBe16_of_ne _ _ (by omega)

theorem le32_setLe16_of_ne (v : ℕ) (h : b + 4 ≤ a ∨ a + 2 ≤ b) :
    le32 (setLe16 m a v) b = le32 m b :=
  le32_congr fun i hi => setLe16_of_ne _ _ (by omega)

theorem le32_store_of_ne {bs : List UInt8} (h : b + 4 ≤ a ∨ a + bs.length ≤ b) :
    le32 (store m a bs) b = le32 m b :=
  le32_congr fun i hi => store_of_ne _ (by omega)

end Disjoint

/-! ### Blocks -/

/-- A 16-bit value, most significant byte first. -/
def be16Bytes (v : ℕ) : List UInt8 := [UInt8.ofNat (v / 256), UInt8.ofNat v]

theorem length_be16Bytes (v : ℕ) : (be16Bytes v).length = 2 := rfl

theorem load_add (m : Mem) (a j k : ℕ) : load m a (j + k) = load m a j ++ load m (a + j) k := by
  simp only [load, List.range_add, List.map_append, List.map_map, Function.comp_def,
    Nat.add_assoc]

/-- A block that starts with `xs`. -/
theorem load_append {m : Mem} {a : ℕ} {xs ys : List UInt8}
    (h : load m a (xs ++ ys).length = xs ++ ys) :
    load m a xs.length = xs ∧ load m (a + xs.length) ys.length = ys := by
  rw [List.length_append, load_add] at h
  exact List.append_inj h (load_length _ _ _)

theorem load_two (m : Mem) (a : ℕ) : load m a 2 = be16Bytes (be16 m a) := by
  have h0 := toNat_lt (m a)
  have h1 := toNat_lt (m (a + 1))
  have hhi : be16 m a / 256 = (m a).toNat := by unfold be16; omega
  have hlo : UInt8.ofNat (be16 m a) = m (a + 1) := by
    apply UInt8.toNat_inj.1
    rw [UInt8.toNat_ofNat']
    unfold be16
    omega
  rw [be16Bytes, hhi, hlo, UInt8.ofNat_toNat]
  rfl

theorem be16_of_load {m : Mem} {a v : ℕ} (hv : v < 65536) (h : load m a 2 = be16Bytes v) :
    be16 m a = v := by
  have hbytes : m a = UInt8.ofNat (v / 256) ∧ m (a + 1) = UInt8.ofNat v := by
    simpa [load, be16Bytes, List.range_succ] using h
  rw [be16, hbytes.1, hbytes.2, UInt8.toNat_ofNat', UInt8.toNat_ofNat']
  omega

/-! ### Memories that agree outside a set -/

/-- `m` and `m'` hold the same bytes at the addresses that are not in `S`. -/
def AgreeOff (S : ℕ → Prop) (m m' : Mem) : Prop := ∀ a, ¬ S a → m a = m' a

namespace AgreeOff

variable {S : ℕ → Prop} {m m' : Mem}

theorem refl (S : ℕ → Prop) (m : Mem) : AgreeOff S m m := fun _ _ => rfl

/-! The same write on both sides keeps the agreement. -/

theorem set (h : AgreeOff S m m') (a : ℕ) (b : UInt8) :
    AgreeOff S (Bytes.set m a b) (Bytes.set m' a b) := by
  intro x hx
  by_cases hxa : x = a
  · rw [hxa, set_self, set_self]
  · rw [set_of_ne _ _ hxa, set_of_ne _ _ hxa, h x hx]

theorem setBe16 (h : AgreeOff S m m') (a v : ℕ) :
    AgreeOff S (Bytes.setBe16 m a v) (Bytes.setBe16 m' a v) :=
  (h.set _ _).set _ _

theorem setLe16 (h : AgreeOff S m m') (a v : ℕ) :
    AgreeOff S (Bytes.setLe16 m a v) (Bytes.setLe16 m' a v) :=
  (h.set _ _).set _ _

theorem setLe32 (h : AgreeOff S m m') (a v : ℕ) :
    AgreeOff S (Bytes.setLe32 m a v) (Bytes.setLe32 m' a v) :=
  (((h.set _ _).set _ _).set _ _).set _ _

theorem store (h : AgreeOff S m m') (a : ℕ) (bs : List UInt8) :
    AgreeOff S (Bytes.store m a bs) (Bytes.store m' a bs) := by
  intro x hx
  simp only [Bytes.store, h x hx]

/-! A write into `S` on one side does. -/

theorem store_left (h : AgreeOff S m m') {a : ℕ} {bs : List UInt8}
    (hS : ∀ i < bs.length, S (a + i)) : AgreeOff S (Bytes.store m a bs) m' := by
  intro x hx
  by_cases hin : a ≤ x ∧ x < a + bs.length
  · obtain ⟨i, rfl⟩ := Nat.exists_eq_add_of_le hin.1
    exact absurd (hS i (by omega)) hx
  · rw [store_of_ne _ (by omega), h x hx]

theorem setLe16_left (h : AgreeOff S m m') {a v : ℕ} (h0 : S a) (h1 : S (a + 1)) :
    AgreeOff S (Bytes.setLe16 m a v) m' := by
  intro x hx
  have hx0 : x ≠ a := fun he => hx (he ▸ h0)
  have hx1 : x ≠ a + 1 := fun he => hx (he ▸ h1)
  rw [setLe16_of_ne _ _ (by omega), h x hx]

/-! A field outside `S` is read alike. -/

theorem be16 (h : AgreeOff S m m') {a : ℕ} (hS : ∀ i < 2, ¬ S (a + i)) :
    Bytes.be16 m a = Bytes.be16 m' a :=
  be16_congr fun i hi => h _ (hS i hi)

end AgreeOff

end Bytes
