import Mathlib.Data.Nat.Digits.Lemmas
import Manos.Fmt.Pieces

/-!
# Rendering numbers

What `uintToStr` stores is read back as the number it was given: `numberValue` reads a text in
a base, and `IsNumeral` says that a text is a number without zeros at the front.
-/

namespace Fmt

/-- The value of the character of a digit, which is a lower-case letter from ten on. -/
def lowerDigit (c : Byte) : Option ℕ :=
  if 0x30 ≤ c.toNat ∧ c.toNat ≤ 0x39 then some (c.toNat - 0x30) -- '0' to '9'
  else if 0x61 ≤ c.toNat ∧ c.toNat ≤ 0x66 then some (c.toNat - 0x61 + 10) -- 'a' to 'f'
  else none

/-- The value `v` and then the digit `c`, in the base `b`. -/
def pushDigit (b v : ℕ) (c : Byte) : Option ℕ := do
  let r ← lowerDigit c
  if r < b then some (b * v + r) else none

/-- The number that a text is in the base `b`. -/
def numberValue (b : ℕ) (s : List Byte) : Option ℕ := s.foldlM (pushDigit b) 0

/-- The text `s` is the number `i` in the base `b`, and starts with a zero only if it is a
single one for the number zero. -/
structure IsNumeral (b i : ℕ) (s : List Byte) : Prop where
  ne_nil : s ≠ []
  value : numberValue b s = some i
  no_zero : s.head? = some 0x30 → i = 0 ∧ s = [0x30]

variable {b i : ℕ}

theorem lowerDigit_digit {r : ℕ} (hr : r < 16) :
  lowerDigit (digit r) = some r
  := by
  have h : ∀ r < 16, lowerDigit (digit r) = some r := by decide
  exact h r hr

theorem pushDigit_digit {r : ℕ} (hb : b ≤ 16) (hr : r < b) (v : ℕ) :
  pushDigit b v (digit r) = some (b * v + r)
  := by
  rw [pushDigit, lowerDigit_digit (Nat.lt_of_lt_of_le hr hb)]
  exact if_pos hr

/-- The digits are read from the front. -/
theorem foldlM_digit (hb : b ≤ 16) {l : List ℕ} (hl : ∀ r ∈ l, r < b) (v : ℕ) :
  (l.map digit).foldlM (pushDigit b) v = some (l.foldl (fun v r => b * v + r) v)
  := by
  induction l generalizing v with
  | nil => rfl
  | cons r l ih =>
      rw [List.map_cons, List.foldlM_cons, pushDigit_digit hb (hl r List.mem_cons_self)]
      apply ih
      intro a ha
      apply hl a
      exact List.mem_cons_of_mem r ha

theorem numberValue_numeral (hb₂ : 2 ≤ b) (hb : b ≤ 16) (i : ℕ) :
  numberValue b (numeral b i) = some i
  := by
  rw [numberValue, numeral]
  split
  case isTrue hi =>
    rw [hi, List.foldlM_cons, pushDigit_digit hb (by omega)]
    rfl
  case isFalse =>
    have hlt : ∀ r ∈ (Nat.digits b i).reverse, r < b := by
      intro r hr
      exact Nat.digits_lt_base hb₂ (List.mem_reverse.mp hr)
    have hfold : (Nat.digits b i).foldr (fun r v => b * v + r) 0
        = Nat.ofDigits b (Nat.digits b i) := by
      rw [Nat.ofDigits_eq_foldr]
      simp only [Nat.cast_id, Nat.add_comm]
    rw [foldlM_digit hb hlt, List.foldl_reverse, hfold, Nat.ofDigits_digits]

theorem digit_eq_zero_iff {r : ℕ} (hr : r < 16) :
  digit r = 0x30 ↔ r = 0
  := by
  have h : ∀ r < 16, digit r = 0x30 ↔ r = 0 := by decide
  exact h r hr

/-- The first digit of a number is its highest one. -/
theorem head_numeral (hb₂ : 2 ≤ b) (hb : b ≤ 16) (h : (numeral b i).head? = some 0x30) :
  i = 0
  := by
  rw [numeral] at h
  split at h
  case isTrue hi => exact hi
  case isFalse hi =>
    exfalso
    have hne := Nat.digits_ne_nil_iff_ne_zero (b := b).mpr hi
    have hlast := Nat.getLast_digit_ne_zero b hi
    have hlt := Nat.digits_lt_base hb₂ (List.getLast_mem hne)
    rw [List.head?_map, List.head?_reverse, List.getLast?_eq_some_getLast hne, Option.map_some,
      Option.some_inj, digit_eq_zero_iff (by omega)] at h
    exact hlast h

theorem isNumeral_numeral (hb₂ : 2 ≤ b) (hb : b ≤ 16) (i : ℕ) :
  IsNumeral b i (numeral b i)
  := by
  refine ⟨numeral_ne_nil b i, numberValue_numeral hb₂ hb i, ?_⟩
  intro h
  have hi := head_numeral hb₂ hb h
  refine ⟨hi, ?_⟩
  rw [numeral, if_pos hi]
  rfl

/-- A number of the argument list is stored at the end of the bytes that `uintToStr` is given,
as many bytes as it returns, and nothing else of the buffer changes. -/
theorem uintToStr_numeral {buf : List Byte} {n : ℕ} (hex : Bool) (i : BitVec 32) (hn : 10 ≤ n)
    (hbuf : n ≤ buf.length) :
  ∃ r s, uintToStr buf n hex i.toNat = (r, buf.take (n - r) ++ s ++ buf.drop n) ∧
    s.length = r ∧ 1 ≤ r ∧ r ≤ n ∧ IsNumeral (base hex) i.toNat s
  := by
  have hlen := length_numeral hex i.toNat
  have hle := digitCount_le hex i
  have hr : (numeral (base hex) i.toNat).length ≤ n := by omega
  refine ⟨(numeral (base hex) i.toNat).length, numeral (base hex) i.toNat, ?_, rfl, ?_, hr, ?_⟩
  · exact uintToStr_eq hr hbuf
  · exact List.length_pos_iff.mpr (numeral_ne_nil _ _)
  · exact isNumeral_numeral (two_le_base hex) (base_le hex) i.toNat

/-- The number `255` in hexadecimal, in a buffer of ten bytes and one more. -/
theorem uintToStr_numeral_ff :
  uintToStr (.replicate 11 0) 10 true 255
      = (2, [0, 0, 0, 0, 0, 0, 0, 0, 0x66, 0x66, 0]) ∧
    ∃ r s, uintToStr (.replicate 11 0) 10 true 255
      = (r, (List.replicate 11 0).take (10 - r) ++ s ++ (List.replicate 11 0).drop 10) ∧
      s.length = r ∧ 1 ≤ r ∧ r ≤ 10 ∧ IsNumeral (base true) 255 s
  := ⟨by decide, uintToStr_numeral true 255 (by decide) (by decide)⟩

end Fmt
