import Mathlib.Algebra.Group.Int.Defs
import Mathlib.Algebra.Group.Nat.Defs
import Mathlib.Tactic.Common

/-!
# Arithmetic of 32-bit words

Sums, differences and products of natural numbers taken modulo `2 ^ 32`, the order of
words read as signed numbers, and the facts under which they are those of `ℕ`.
-/

namespace Word32

/-- The sum of two words. -/
def add (a b : Nat) : Nat := (a + b) % 2 ^ 32

/-- The difference of two words. -/
def sub (a b : Nat) : Nat := (a + (2 ^ 32 - b % 2 ^ 32)) % 2 ^ 32

/-- The product of two words. -/
def mul (a b : Nat) : Nat := a * b % 2 ^ 32

/-- The word `a` read as a signed number. -/
def toSigned (a : Nat) : Int := if a < 2 ^ 31 then a else (a : Int) - 2 ^ 32

theorem mul_lt (a b : Nat) :
  mul a b < 2 ^ 32
  := Nat.mod_lt _ (by decide)

/-- A sum that does not overflow. -/
theorem add_of_lt {a b : Nat} (h : a + b < 2 ^ 32) :
  add a b = a + b
  := Nat.mod_eq_of_lt h

/-- A difference that does not underflow. -/
theorem sub_of_le {a b : Nat} (h : b ≤ a) (ha : a < 2 ^ 32) :
  sub a b = a - b
  := by
  rw [sub]
  omega

/-- A difference that underflows. -/
theorem sub_of_lt {a b : Nat} (h : a < b) (hb : b < 2 ^ 32) :
  sub a b = a + 2 ^ 32 - b
  := by
  rw [sub]
  omega

/-- On words of the upper half the signed order is the order of `ℕ`. -/
theorem toSigned_lt_of_upper {a b : Nat} (ha : 2 ^ 31 ≤ a) (hb : 2 ^ 31 ≤ b) :
  toSigned a < toSigned b ↔ a < b
  := by
  rw [toSigned, toSigned, if_neg (by omega), if_neg (by omega)]
  omega

end Word32
