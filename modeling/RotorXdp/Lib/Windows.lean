import RotorXdp.Lib.Bytes

/-!
# Windows of a memory

A program that reads and writes only between two bounds sees nothing of the rest of the memory, so
it may as well run on a memory that is zero everywhere else. `window lo hi m` is that memory. Reads
inside the window give the same, writes inside it commute with taking the window, and so does any
program that is made of such reads and writes: this is its locality, from which it follows that
programs in disjoint windows do not disturb one another.

* `window`: the part of a memory between two bounds;
* `window_eq_iff`: two memories have one window when they agree there;
* `be16_window`, `le16_window`, `le32_window`: reads;
* `set_window`, `store_window`, `copy_window` and the like: writes;
* `chunkWindow`: the window of the chunk that an address lies in.
-/

namespace Bytes

variable {lo hi a v : ℕ} {m m' : Mem}

/-- The memory between `lo` and `hi`, and zero elsewhere. -/
def window (lo hi : ℕ) (m : Mem) : Mem := fun a => if lo ≤ a ∧ a < hi then m a else 0

theorem window_inside (m : Mem) (h : lo ≤ a ∧ a < hi) : window lo hi m a = m a := if_pos h

theorem window_outside (m : Mem) (h : ¬ (lo ≤ a ∧ a < hi)) : window lo hi m a = 0 := if_neg h

theorem window_eq_iff :
    window lo hi m = window lo hi m' ↔ ∀ a, lo ≤ a → a < hi → m a = m' a := by
  constructor
  · intro h a hlo hhi
    rw [← window_inside m ⟨hlo, hhi⟩, h, window_inside m' ⟨hlo, hhi⟩]
  · intro h
    funext a
    by_cases ha : lo ≤ a ∧ a < hi
    · rw [window_inside m ha, window_inside m' ha, h a ha.1 ha.2]
    · rw [window_outside m ha, window_outside m' ha]

/-! ### Reads -/

theorem be16_window (m : Mem) (hlo : lo ≤ a) (hhi : a + 2 ≤ hi) :
    be16 (window lo hi m) a = be16 m a :=
  be16_congr fun i hi => window_inside m ⟨by omega, by omega⟩

theorem le16_window (m : Mem) (hlo : lo ≤ a) (hhi : a + 2 ≤ hi) :
    le16 (window lo hi m) a = le16 m a :=
  le16_congr fun i hi => window_inside m ⟨by omega, by omega⟩

theorem le32_window (m : Mem) (hlo : lo ≤ a) (hhi : a + 4 ≤ hi) :
    le32 (window lo hi m) a = le32 m a :=
  le32_congr fun i hi => window_inside m ⟨by omega, by omega⟩

/-! ### Writes -/

theorem set_window (m : Mem) (b : UInt8) (hlo : lo ≤ a) (hhi : a < hi) :
    set (window lo hi m) a b = window lo hi (set m a b) := by
  funext x
  by_cases hx : x = a
  · subst hx
    rw [set_self, window_inside _ ⟨hlo, hhi⟩, set_self]
  · rw [set_of_ne _ _ hx]
    by_cases hin : lo ≤ x ∧ x < hi
    · rw [window_inside _ hin, window_inside _ hin, set_of_ne _ _ hx]
    · rw [window_outside _ hin, window_outside _ hin]

theorem setBe16_window (m : Mem) (hlo : lo ≤ a) (hhi : a + 2 ≤ hi) :
    setBe16 (window lo hi m) a v = window lo hi (setBe16 m a v) := by
  unfold setBe16
  rw [set_window _ _ hlo (by omega), set_window _ _ (by omega) (by omega)]

theorem setLe16_window (m : Mem) (hlo : lo ≤ a) (hhi : a + 2 ≤ hi) :
    setLe16 (window lo hi m) a v = window lo hi (setLe16 m a v) := by
  unfold setLe16
  rw [set_window _ _ hlo (by omega), set_window _ _ (by omega) (by omega)]

theorem setLe32_window (m : Mem) (hlo : lo ≤ a) (hhi : a + 4 ≤ hi) :
    setLe32 (window lo hi m) a v = window lo hi (setLe32 m a v) := by
  unfold setLe32
  rw [set_window _ _ hlo (by omega), set_window _ _ (by omega) (by omega),
    set_window _ _ (by omega) (by omega), set_window _ _ (by omega) (by omega)]

theorem store_window (m : Mem) {bs : List UInt8} (hlo : lo ≤ a) (hhi : a + bs.length ≤ hi) :
    store (window lo hi m) a bs = window lo hi (store m a bs) := by
  funext x
  by_cases hx : a ≤ x ∧ x < a + bs.length
  · obtain ⟨i, rfl⟩ := Nat.exists_eq_add_of_le hx.1
    have hi : i < bs.length := by omega
    rw [store_inside _ _ hi, window_inside _ ⟨by omega, by omega⟩, store_inside _ _ hi]
  · rw [store_of_ne _ (by omega)]
    by_cases hin : lo ≤ x ∧ x < hi
    · rw [window_inside _ hin, window_inside _ hin, store_of_ne _ (by omega)]
    · rw [window_outside _ hin, window_outside _ hin]

theorem copy_window (m : Mem) {dst src n : ℕ} (hdst : lo ≤ dst ∧ dst + n ≤ hi)
    (hsrc : lo ≤ src ∧ src + n ≤ hi) :
    copy (window lo hi m) dst src n = window lo hi (copy m dst src n) := by
  funext x
  by_cases hx : dst ≤ x ∧ x < dst + n
  · obtain ⟨i, rfl⟩ := Nat.exists_eq_add_of_le hx.1
    have hi : i < n := by omega
    rw [copy_inside _ _ _ hi, window_inside _ ⟨by omega, by omega⟩,
      window_inside _ ⟨by omega, by omega⟩, copy_inside _ _ _ hi]
  · rw [copy_of_ne _ _ (by omega)]
    by_cases hin : lo ≤ x ∧ x < hi
    · rw [window_inside _ hin, window_inside _ hin, copy_of_ne _ _ (by omega)]
    · rw [window_outside _ hin, window_outside _ hin]

/-! ### Chunks -/

variable {c : ℕ}

/-- The window of the chunk of `c` bytes that `a` lies in. -/
def chunkWindow (c a : ℕ) (m : Mem) : Mem := window (a / c * c) (a / c * c + c) m

theorem mem_chunk (hc : 0 < c) {b : ℕ} : a / c * c ≤ b ∧ b < a / c * c + c ↔ b / c = a / c := by
  rw [Nat.div_eq_iff hc]
  omega

/-- Room behind `a` in its chunk. -/
theorem chunk_bounds {n : ℕ} (h : a % c + n ≤ c) : a / c * c ≤ a ∧ a + n ≤ a / c * c + c := by
  have hdiv := Nat.div_add_mod' a c
  omega

theorem chunkWindow_eq_iff (hc : 0 < c) :
    chunkWindow c a m = chunkWindow c a m' ↔ ∀ b, b / c = a / c → m b = m' b := by
  unfold chunkWindow
  rw [window_eq_iff]
  constructor
  · intro h b hb
    obtain ⟨hlo, hhi⟩ := (mem_chunk hc).2 hb
    exact h b hlo hhi
  · intro h b hlo hhi
    exact h b ((mem_chunk hc).1 ⟨hlo, hhi⟩)

end Bytes
