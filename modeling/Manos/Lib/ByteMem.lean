import Mathlib.Algebra.Group.Nat.Defs
import Mathlib.Tactic.Common

/-!
# Byte memories

A byte memory maps every address to a byte.  Words are read and written as four bytes in
little-endian order.  The lemmas say what a read finds after a write: the word written at
the same place, and what was there before at any place the write does not touch.
-/

/-- A byte memory. -/
abbrev ByteMem : Type := Nat → BitVec 8

namespace ByteMem

/-- The memory `m` with the byte `b` at `a`. -/
def write (m : ByteMem) (a : Nat) (b : BitVec 8) : ByteMem :=
  fun x => if x = a then b else m x

/-- The memory `m` with the `n` bytes from `a` on equal to `b`. -/
def fill (m : ByteMem) (a n : Nat) (b : BitVec 8) : ByteMem :=
  fun x => if a ≤ x ∧ x < a + n then b else m x

/-- The word at `a`. -/
def load32 (m : ByteMem) (a : Nat) : Nat :=
  (m a).toNat + 2 ^ 8 * (m (a + 1)).toNat + 2 ^ 16 * (m (a + 2)).toNat
    + 2 ^ 24 * (m (a + 3)).toNat

/-- The memory `m` with the word `w` at `a`. -/
def store32 (m : ByteMem) (a w : Nat) : ByteMem :=
  fun x =>
    if x = a then .ofNat 8 w
    else if x = a + 1 then .ofNat 8 (w / 2 ^ 8)
    else if x = a + 2 then .ofNat 8 (w / 2 ^ 16)
    else if x = a + 3 then .ofNat 8 (w / 2 ^ 24)
    else m x

/-- The memory `m` with the double word `w` at `a`. -/
def store64 (m : ByteMem) (a w : Nat) : ByteMem :=
  store32 (store32 m a w) (a + 4) (w / 2 ^ 32)

/-! ### Reading bytes -/

theorem write_apply (m : ByteMem) (a : Nat) (b : BitVec 8) (x : Nat) :
  write m a b x = if x = a then b else m x
  := rfl

theorem fill_apply (m : ByteMem) (a n : Nat) (b : BitVec 8) (x : Nat) :
  fill m a n b x = if a ≤ x ∧ x < a + n then b else m x
  := rfl

@[simp]
theorem fill_zero (m : ByteMem) (a : Nat) (b : BitVec 8) :
  fill m a 0 b = m
  := by
  funext x
  rw [fill_apply, if_neg (by omega)]

/-- A word write leaves the bytes outside the word as they were. -/
theorem store32_apply_of_outside {m : ByteMem} {a w x : Nat} (h : x < a ∨ a + 4 ≤ x) :
  store32 m a w x = m x
  := by
  rw [store32, if_neg (by omega), if_neg (by omega), if_neg (by omega), if_neg (by omega)]

/-! ### Reading words -/

/-- A word depends on its four bytes only. -/
theorem load32_congr {m m' : ByteMem} {a : Nat} (h : ∀ x, a ≤ x → x < a + 4 → m' x = m x) :
  load32 m' a = load32 m a
  := by
  rw [load32, load32, h a (by omega) (by omega), h (a + 1) (by omega) (by omega),
    h (a + 2) (by omega) (by omega), h (a + 3) (by omega) (by omega)]

/-- The word just written. -/
theorem load32_store32 (m : ByteMem) (a w : Nat) :
  load32 (store32 m a w) a = w % 2 ^ 32
  := by
  have h0 : store32 m a w a = .ofNat 8 w := by simp [store32]
  have h1 : store32 m a w (a + 1) = .ofNat 8 (w / 2 ^ 8) := by simp [store32]
  have h2 : store32 m a w (a + 2) = .ofNat 8 (w / 2 ^ 16) := by simp [store32]
  have h3 : store32 m a w (a + 3) = .ofNat 8 (w / 2 ^ 24) := by simp [store32]
  rw [load32, h0, h1, h2, h3]
  simp only [BitVec.toNat_ofNat]
  omega

/-- A word apart from the one written. -/
theorem load32_store32_of_apart {m : ByteMem} {a b w : Nat} (h : b + 4 ≤ a ∨ a + 4 ≤ b) :
  load32 (store32 m a w) b = load32 m b
  := by
  apply load32_congr
  intro x hx hx'
  apply store32_apply_of_outside
  omega

/-- A word no byte of which is written. -/
theorem load32_write_of_outside {m : ByteMem} {a x : Nat} {b : BitVec 8}
    (h : x < a ∨ a + 4 ≤ x) :
  load32 (write m x b) a = load32 m a
  := by
  apply load32_congr
  intro y hy hy'
  rw [write_apply, if_neg (by omega)]

/-- A word apart from a range that is filled. -/
theorem load32_fill_of_apart {m : ByteMem} {a n c : Nat} {b : BitVec 8}
    (h : c + 4 ≤ a ∨ a + n ≤ c) :
  load32 (fill m a n b) c = load32 m c
  := by
  apply load32_congr
  intro x hx hx'
  rw [fill_apply, if_neg (by omega)]

/-- Four equal bytes as a word. -/
theorem load32_of_bytes {m : ByteMem} {a : Nat} {b : BitVec 8}
    (h : ∀ x, a ≤ x → x < a + 4 → m x = b) :
  load32 m a = 0x01010101 * b.toNat
  := by
  rw [load32, h a (by omega) (by omega), h (a + 1) (by omega) (by omega),
    h (a + 2) (by omega) (by omega), h (a + 3) (by omega) (by omega)]
  omega

end ByteMem
