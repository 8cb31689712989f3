import RotorXdp.Lib.Bytes

/-!
# Parse functions with a cursor

A parse function looks at a block of memory from the cursor on, hands out a header and moves the
cursor behind it, or fails. `fixed` and `sized` are the two common kinds: a header of fixed size,
and one whose length is a field of its fixed part.

* `Guarded`: a parse function that stays between the cursor and the end of the data;
* `Collector`, `Collects`: the same for one that also collects values on its way;
* `Program`: parse functions called one after the other, where each call may depend on what the
  calls before it have returned and collected;
* `Program.congr`, `Program.inside`: such a program stays inside the data.
-/

namespace Cursor

open Bytes

/-- What a parse function returns, the header it hands out, and the cursor. -/
structure Parsed where
  ret : ℤ
  hdr : Option ℕ
  pos : ℕ
  deriving DecidableEq

/-- Memory, cursor and end of the data. -/
abbrev Parser := Mem → ℕ → ℕ → Parsed

/-- Failure leaves the cursor alone. -/
def fail (pos : ℕ) : Parsed := ⟨-1, none, pos⟩

/-- The memories hold the same bytes from `lo` up to `hi`. -/
def SameOn (m m' : Mem) (lo hi : ℕ) : Prop := ∀ a, lo ≤ a → a < hi → m a = m' a

theorem SameOn.mono {m m' : Mem} {lo hi lo' hi' : ℕ} (h : SameOn m m' lo hi) (hlo : lo ≤ lo')
    (hhi : hi' ≤ hi) : SameOn m m' lo' hi' :=
  fun a h1 h2 => h a (Nat.le_trans hlo h1) (Nat.lt_of_lt_of_le h2 hhi)

theorem SameOn.byte {m m' : Mem} {pos n o : ℕ} (h : SameOn m m' pos (pos + n)) (ho : o < n) :
    m (pos + o) = m' (pos + o) :=
  h _ (Nat.le_add_right _ _) (Nat.add_lt_add_left ho pos)

theorem SameOn.be16 {m m' : Mem} {pos n o : ℕ} (h : SameOn m m' pos (pos + n)) (ho : o + 2 ≤ n) :
    be16 m (pos + o) = be16 m' (pos + o) :=
  be16_congr fun i hi => by
    rw [Nat.add_assoc]
    exact h.byte (by omega)

/-- A value that is read from the first `size` bytes of a header. -/
def ReadsBelow {α : Type*} (size : ℕ) (f : Mem → ℕ → α) : Prop :=
  ∀ m m' pos, SameOn m m' pos (pos + size) → f m pos = f m' pos

/-! ### Guarded parse functions -/

/-- The parse function depends on the bytes between the cursor and the end of the data only, and
what it hands out is a header of at least `size` bytes between them. -/
structure Guarded (size : ℕ) (p : Parser) : Prop where
  congr : ∀ {m m' pos dataEnd}, SameOn m m' pos dataEnd → p m pos dataEnd = p m' pos dataEnd
  failed : ∀ {m pos dataEnd}, (p m pos dataEnd).hdr = none →
    (p m pos dataEnd).ret = -1 ∧ (p m pos dataEnd).pos = pos
  found : ∀ {m pos dataEnd q}, (p m pos dataEnd).hdr = some q →
    q = pos ∧ pos + size ≤ (p m pos dataEnd).pos ∧ (p m pos dataEnd).pos ≤ dataEnd

/-- The cursor moves forward, up to the end of the data. -/
theorem Guarded.moves {size : ℕ} {p : Parser} (h : Guarded size p) {m : Mem} {pos dataEnd : ℕ}
    (hpos : pos ≤ dataEnd) :
    pos ≤ (p m pos dataEnd).pos ∧ (p m pos dataEnd).pos ≤ dataEnd := by
  cases hhdr : (p m pos dataEnd).hdr with
  | none => rw [(h.failed hhdr).2]; exact ⟨Nat.le_refl pos, hpos⟩
  | some q =>
    obtain ⟨-, hsize, hend⟩ := h.found hhdr
    exact ⟨Nat.le_trans (Nat.le_add_right _ _) hsize, hend⟩

/-- A header of `size` bytes. -/
def fixed (size : ℕ) (ret : Mem → ℕ → ℤ) : Parser := fun m pos dataEnd =>
  if dataEnd < pos + size then fail pos else ⟨ret m pos, some pos, pos + size⟩

theorem fixed_guarded {size : ℕ} {ret : Mem → ℕ → ℤ} (hret : ReadsBelow size ret) :
    Guarded size (fixed size ret) := by
  constructor
  · intro m m' pos dataEnd h
    unfold fixed
    split
    · rfl
    · rename_i hfit
      rw [hret m m' pos (h.mono (Nat.le_refl _) (by omega))]
  · intro m pos dataEnd h
    unfold fixed at h ⊢
    split at h
    · rw [if_pos ‹_›]
      exact ⟨rfl, rfl⟩
    · exact absurd h (by simp)
  · intro m pos dataEnd q h
    unfold fixed at h ⊢
    split at h
    · exact absurd h (by simp [fail])
    · rename_i hfit
      rw [if_neg hfit]
      exact ⟨(Option.some.inj h).symm, Nat.le_refl _, Nat.le_of_not_lt hfit⟩

/-- A header of at least `size` bytes that says how long it is. -/
def sized (size : ℕ) (len : Mem → ℕ → ℕ) (ret : Mem → ℕ → ℤ) : Parser := fun m pos dataEnd =>
  if dataEnd < pos + size then fail pos
  else if len m pos < size then fail pos
  else if dataEnd < pos + len m pos then fail pos
  else ⟨ret m pos, some pos, pos + len m pos⟩

theorem sized_guarded {size : ℕ} {len : Mem → ℕ → ℕ} {ret : Mem → ℕ → ℤ}
    (hlen : ReadsBelow size len) (hret : ReadsBelow size ret) :
    Guarded size (sized size len ret) := by
  constructor
  · intro m m' pos dataEnd h
    unfold sized
    split
    · rfl
    · rename_i hfit
      have hsame := h.mono (Nat.le_refl pos) (show pos + size ≤ dataEnd by omega)
      rw [hlen m m' pos hsame, hret m m' pos hsame]
  · intro m pos dataEnd h
    unfold sized at h ⊢
    split_ifs at h ⊢ with h1 h2 h3
    · exact ⟨rfl, rfl⟩
    · exact ⟨rfl, rfl⟩
    · exact ⟨rfl, rfl⟩
  · intro m pos dataEnd q h
    unfold sized at h ⊢
    split_ifs at h ⊢ with h1 h2 h3
    · exact absurd h (by simp [fail])
    · exact absurd h (by simp [fail])
    · exact absurd h (by simp [fail])
    · exact ⟨(Option.some.inj h).symm, Nat.add_le_add_left (Nat.le_of_not_lt h2) pos,
        Nat.le_of_not_lt h3⟩

/-! ### Parse functions that collect values -/

/-- A parse function with a second result. -/
abbrev Collector (O : Type*) := Mem → ℕ → ℕ → Parsed × O

/-- What is collected depends on the bytes between the cursor and the end of the data only, too. -/
structure Collects {O : Type*} (size : ℕ) (c : Collector O) : Prop where
  guarded : Guarded size fun m pos dataEnd => (c m pos dataEnd).1
  congr : ∀ {m m' pos dataEnd}, SameOn m m' pos dataEnd → c m pos dataEnd = c m' pos dataEnd

/-- A parse function that collects nothing. -/
def silent {O : Type*} (p : Parser) (o : O) : Collector O := fun m pos dataEnd =>
  (p m pos dataEnd, o)

theorem Guarded.silent {O : Type*} {size : ℕ} {p : Parser} (h : Guarded size p) (o : O) :
    Collects size (silent p o) where
  guarded := h
  congr hsame := congrArg (·, o) (h.congr hsame)

/-! ### Programs -/

/-- Calls of the parse functions `H`, chosen by what has been returned and collected so far, and a
result. -/
inductive Program (H O R : Type*)
  | done (r : R)
  | call (h : H) (next : Parsed → O → Program H O R)

/-- A call that has been made. -/
structure Call (H O : Type*) where
  parser : H
  got : Parsed
  collected : O

namespace Program

variable {H O R : Type*}

/-- The calls of the program and its result, from a cursor on. -/
def run (parse : H → Collector O) (m : Mem) (dataEnd : ℕ) :
    Program H O R → ℕ → List (Call H O) × R
  | .done r, _ => ([], r)
  | .call h next, pos =>
    let (p, o) := parse h m pos dataEnd
    let (calls, r) := (next p o).run parse m dataEnd p.pos
    (⟨h, p, o⟩ :: calls, r)

variable {parse : H → Collector O} {size : H → ℕ}

/-- **A program depends on the bytes of the data only.** -/
theorem congr (hc : ∀ h, Collects (size h) (parse h)) (P : Program H O R) {m m' : Mem}
    {pos dataEnd : ℕ} (hpos : pos ≤ dataEnd) (h : SameOn m m' pos dataEnd) :
    P.run parse m dataEnd pos = P.run parse m' dataEnd pos := by
  induction P generalizing pos with
  | done r => rfl
  | call c next ih =>
    have hmoves := (hc c).guarded.moves (m := m') hpos
    simp only [run, (hc c).congr h]
    rw [ih _ _ hmoves.2 (h.mono hmoves.1 (Nat.le_refl _))]

/-- **What the calls of a program hand out lies in the data**, each header behind the ones before
it. -/
theorem inside (hc : ∀ h, Collects (size h) (parse h)) (P : Program H O R) (m : Mem)
    {pos dataEnd : ℕ} (hpos : pos ≤ dataEnd) :
    (∀ c ∈ (P.run parse m dataEnd pos).1, pos ≤ c.got.pos ∧ c.got.pos ≤ dataEnd ∧
      ∀ q, c.got.hdr = some q → pos ≤ q ∧ q + size c.parser ≤ c.got.pos) ∧
    (P.run parse m dataEnd pos).1.Pairwise fun c d =>
      c.got.pos ≤ d.got.pos ∧ ∀ q, d.got.hdr = some q → c.got.pos ≤ q := by
  induction P generalizing pos with
  | done r => exact ⟨fun c hc => absurd hc List.not_mem_nil, List.Pairwise.nil⟩
  | call c next ih =>
    obtain ⟨hle, hend⟩ := (hc c).guarded.moves (m := m) hpos
    obtain ⟨hall, hpair⟩ := ih (parse c m pos dataEnd).1 (parse c m pos dataEnd).2 hend
    simp only [run]
    refine ⟨fun d hd => ?_, List.Pairwise.cons (fun d hd => ?_) hpair⟩
    · rcases List.mem_cons.1 hd with rfl | hd
      · refine ⟨hle, hend, fun q hq => ?_⟩
        obtain ⟨rfl, hsize, -⟩ := (hc c).guarded.found hq
        exact ⟨Nat.le_refl _, hsize⟩
      · obtain ⟨h1, h2, h3⟩ := hall d hd
        exact ⟨Nat.le_trans hle h1, h2, fun q hq =>
          ⟨Nat.le_trans hle (h3 q hq).1, (h3 q hq).2⟩⟩
    · obtain ⟨h1, -, h3⟩ := hall d hd
      exact ⟨h1, fun q hq => (h3 q hq).1⟩

end Program

end Cursor
