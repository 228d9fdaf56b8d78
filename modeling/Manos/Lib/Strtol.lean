import Mathlib.Algebra.Group.Int.Defs
import Mathlib.Algebra.Group.Nat.Defs
import Mathlib.Data.Int.Notation
import Mathlib.Data.Nat.Notation
import Manos.Lib.CStr

/-!
# `strtol` on a memory that ends

The function `strtol` of the C library, on a list of bytes that need not have a zero in it.
Every byte it looks at must be in the list: there is no result when the text of the number
reaches the end of the list.
-/

namespace Strtol

/-- `isspace` -/
def isSpace (c : Byte) : Bool := c = 0x20 ∨ (0x09 ≤ c.toNat ∧ c.toNat ≤ 0x0d)

/-- The value of a digit or a letter. -/
def digitValue (c : Byte) : Option ℕ :=
  if 0x30 ≤ c.toNat ∧ c.toNat ≤ 0x39 then some (c.toNat - 0x30)
  else if 0x61 ≤ c.toNat ∧ c.toNat ≤ 0x7a then some (c.toNat - 0x61 + 10)
  else if 0x41 ≤ c.toNat ∧ c.toNat ≤ 0x5a then some (c.toNat - 0x41 + 10)
  else none

/-- Whether a byte is a digit in a base. -/
def isDigit (base : ℕ) (c : Byte) : Bool := (digitValue c).any (· < base)

/-- The text after the blanks. -/
def skipSpace : List Byte → Option (List Byte)
  | [] => none
  | c :: l => if isSpace c then skipSpace l else some (c :: l)

/-- The value of the digits at the start, after digits with the value `v`, and the text after
them. -/
def digits (base : ℕ) : ℕ → List Byte → Option (ℕ × List Byte)
  | _, [] => none
  | v, c :: l =>
      if isDigit base c then digits base (base * v + (digitValue c).getD 0) l
      else some (v, c :: l)

/-- The sign, as whether it is a minus, and the text after it. -/
def sign : List Byte → Bool × List Byte
  | [] => (false, [])
  | c :: l => if c = 0x2d then (true, l) else if c = 0x2b then (false, l) else (false, c :: l)

/--
The base of a number, and its digits: for the base 0 a prefix `0x` with a hexadecimal digit behind
it, or `0`, tells the base.
-/
def prefixOf (base : ℕ) (l : List Byte) : Option (ℕ × List Byte) :=
  if base ≠ 0 then some (base, l)
  else
    match l with
    | [] => none
    | c :: l =>
        if c ≠ 0x30 then some (10, c :: l)
        else
          match l with
          | [] => none
          | x :: l =>
              if x ≠ 0x78 ∧ x ≠ 0x58 then some (8, c :: x :: l)
              else
                match l with
                | [] => none
                | d :: l => if isDigit 16 d then some (16, d :: l) else some (8, c :: x :: d :: l)

/-- `strtol`: the value, which is kept within the bounds of a `long`, and the text after the
number, which is the whole text when there is no number. -/
def strtol (w base : ℕ) (l : List Byte) : Option (ℤ × List Byte) := do
  let (minus, l₁) := sign (← skipSpace l)
  let (base, l₂) ← prefixOf base l₁
  let (v, rest) ← digits base 0 l₂
  if rest.length = l₂.length then return (0, l)
  else return (if minus then max (-2 ^ (w - 1)) (-v) else min (2 ^ (w - 1) - 1) v, rest)

/-! ### The text after a number -/

theorem skipSpace_suffix {l l' : List Byte} (h : skipSpace l = some l') :
  l' <:+ l
  := by
  induction l with
  | nil => cases h
  | cons c l ih =>
      rw [skipSpace] at h
      split at h
      · apply (ih h).trans (List.suffix_cons c l)
      · cases h
        apply List.suffix_refl

theorem digits_suffix {base v n : ℕ} {l l' : List Byte} (h : digits base v l = some (n, l')) :
  l' <:+ l
  := by
  induction l generalizing v with
  | nil => cases h
  | cons c l ih =>
      rw [digits] at h
      split at h
      · apply (ih h).trans (List.suffix_cons c l)
      · cases h
        apply List.suffix_refl

theorem sign_suffix (l : List Byte) :
  (sign l).2 <:+ l
  := by
  cases l with
  | nil => apply List.suffix_refl
  | cons c l =>
      rw [sign]
      split
      · apply List.suffix_cons
      · split
        · apply List.suffix_cons
        · apply List.suffix_refl

theorem prefixOf_suffix {base base' : ℕ} {l l' : List Byte}
    (h : prefixOf base l = some (base', l')) :
  l' <:+ l
  := by
  unfold prefixOf at h
  split at h
  · cases h
    apply List.suffix_refl
  split at h
  · cases h
  · rename_i c l
    split at h
    · cases h
      apply List.suffix_refl
    split at h
    · cases h
    · rename_i x l
      split at h
      · cases h
        apply List.suffix_refl
      split at h
      · cases h
      · rename_i d l
        split at h
        · cases h
          apply (List.suffix_cons x _).trans (List.suffix_cons c _)
        · cases h
          apply List.suffix_refl

/-- The text after a number is a part of the text. -/
theorem strtol_suffix {w base : ℕ} {l l' : List Byte} {v : ℤ}
    (h : strtol w base l = some (v, l')) :
  l' <:+ l
  := by
  rw [strtol] at h
  obtain ⟨l₀, h₀, h⟩ := Option.bind_eq_some_iff.mp h
  obtain ⟨⟨base', l₂⟩, h₂, h⟩ := Option.bind_eq_some_iff.mp h
  obtain ⟨⟨n, rest⟩, h₃, h⟩ := Option.bind_eq_some_iff.mp h
  have hrest : rest <:+ l :=
    (((digits_suffix h₃).trans (prefixOf_suffix h₂)).trans (sign_suffix l₀)).trans
      (skipSpace_suffix h₀)
  simp only at h
  split at h
  · cases h
    apply List.suffix_refl
  · cases h
    apply hrest

/-! ### Texts that end -/

theorem skipSpace_of_zero {l : List Byte} (h : 0 ∈ l) :
  ∃ l', skipSpace l = some l' ∧ 0 ∈ l'
  := by
  induction l with
  | nil => cases h
  | cons c l ih =>
      rw [skipSpace]
      split
      · rename_i hc
        rcases List.mem_cons.mp h with rfl | h
        · exact absurd hc (by decide)
        · apply ih h
      · exact ⟨c :: l, rfl, h⟩

theorem sign_of_zero {l : List Byte} (h : 0 ∈ l) :
  0 ∈ (sign l).2
  := by
  cases l with
  | nil => cases h
  | cons c l =>
      rw [sign]
      split
      · rename_i hc
        rcases List.mem_cons.mp h with rfl | h
        · exact absurd hc (by decide)
        · apply h
      · split
        · rename_i hc
          rcases List.mem_cons.mp h with rfl | h
          · exact absurd hc (by decide)
          · apply h
        · apply h

theorem digits_of_zero (base v : ℕ) {l : List Byte} (h : 0 ∈ l) :
  (digits base v l).isSome
  := by
  induction l generalizing v with
  | nil => cases h
  | cons c l ih =>
      rw [digits]
      split
      · rename_i hc
        rcases List.mem_cons.mp h with rfl | h
        · exact absurd hc (by simp [isDigit, digitValue])
        · apply ih _ h
      · rfl

/-- A number in a C string ends in it. -/
theorem strtol_isSome (w : ℕ) {base : ℕ} (hbase : base ≠ 0) {l : List Byte} (h : 0 ∈ l) :
  (strtol w base l).isSome
  := by
  obtain ⟨l₀, h₀, hz⟩ := skipSpace_of_zero h
  obtain ⟨⟨v, rest⟩, hd⟩ := Option.isSome_iff_exists.mp
    (digits_of_zero base 0 (sign_of_zero hz))
  have hbase_eq : prefixOf base (sign l₀).2 = some (base, (sign l₀).2) := if_pos hbase
  simp only [strtol, h₀, Option.bind_eq_bind, Option.bind_some, hbase_eq, hd]
  split
  · rfl
  · rfl

end Strtol
