import Mathlib.Data.Nat.Digits.Lemmas
import Manos.Fmt.Code

/-!
# Numerals

What `uintToStr` stores: the digits of a number at the end of the bytes that it is given, and
nothing before them.
-/

namespace Fmt

/-- The character of a digit, a lower-case letter from ten on. -/
def digit (r : ℕ) : Byte := if r < 10 then .ofNat 8 (0x30 + r) else .ofNat 8 (0x61 + (r - 10))

/-- A number in a base, without zeros at the front. -/
def numeral (b i : ℕ) : List Byte :=
  if i = 0 then [digit 0] else (Nat.digits b i).reverse.map digit

section

variable {hex : Bool} {i n x : ℕ} {l : List Byte}

theorem two_le_base (hex : Bool) :
  2 ≤ base hex
  := by
  cases hex <;> decide

theorem digitChar_eq (hex : Bool) {r : ℕ} (hr : r < base hex) :
  digitChar hex r = digit r
  := by
  cases hex with
  | false =>
      have h : ∀ r < 10, digitChar false r = digit r := by decide
      exact h r hr
  | true =>
      have h : ∀ r < 16, digitChar true r = digit r := by decide
      exact h r hr

theorem numeral_ne_nil (b i : ℕ) :
  numeral b i ≠ []
  := by
  rw [numeral]
  split
  case isTrue => exact List.cons_ne_nil _ _
  case isFalse h =>
    rw [Ne, List.map_eq_nil_iff, List.reverse_eq_nil_iff]
    exact Nat.digits_ne_nil_iff_ne_zero.mpr h

theorem base_le (hex : Bool) :
  base hex ≤ 16
  := by
  cases hex <;> decide

/-- The characters of a number are those of digits. -/
theorem exists_digit_of_mem_numeral {b : Byte} (h : b ∈ numeral (base hex) i) :
  ∃ r < 16, b = digit r
  := by
  rw [numeral] at h
  split at h
  · exact ⟨0, by decide, List.mem_singleton.mp h⟩
  · obtain ⟨r, hr, rfl⟩ := List.mem_map.mp h
    have hlt := Nat.digits_lt_base (two_le_base hex) (List.mem_reverse.mp hr)
    exact ⟨r, Nat.lt_of_lt_of_le hlt (base_le hex), rfl⟩

theorem zero_notMem_numeral (hex : Bool) (i : ℕ) :
  0 ∉ numeral (base hex) i
  := by
  intro h
  have hne : ∀ r < 16, (0 : Byte) ≠ digit r := by decide
  obtain ⟨r, hr, heq⟩ := exists_digit_of_mem_numeral h
  exact hne r hr heq

/-- The loop stores the digits from the last one on. -/
theorem uintLoop_eq (hx : (Nat.digits (base hex) i).length ≤ x) (hl : x ≤ l.length) :
  uintLoop hex x i l = (x - (Nat.digits (base hex) i).length,
    l.take (x - (Nat.digits (base hex) i).length) ++ (Nat.digits (base hex) i).reverse.map digit
      ++ l.drop x)
  := by
  induction x generalizing i l with
  | zero =>
      rw [List.eq_nil_of_length_eq_zero (Nat.le_zero.mp hx)]
      rfl
  | succ x ih =>
      by_cases hi : i = 0
      · rw [uintLoop, if_pos hi, hi, Nat.digits_zero]
        simp
      · have hbase := two_le_base hex
        have hdigits := Nat.digits_def' hbase (Nat.pos_of_ne_zero hi)
        have hmod : i % base hex < base hex := Nat.mod_lt i (by omega)
        rw [hdigits, List.length_cons] at hx ⊢
        have hset : x ≤ (l.set x (digitChar hex (i % base hex))).length := by
          rw [List.length_set]
          omega
        have hdrop : (l.set x (digitChar hex (i % base hex))).drop x
            = digit (i % base hex) :: l.drop (x + 1) := by
          rw [List.drop_set, if_neg (Nat.lt_irrefl x), Nat.sub_self, List.drop_eq_getElem_cons hl,
            List.set_cons_zero, digitChar_eq hex hmod]
        rw [uintLoop, if_neg hi, ih (by omega) hset, hdrop, List.take_set_of_le (by omega),
          Nat.add_sub_add_right, List.reverse_cons, List.map_append, List.append_assoc,
          List.append_assoc, List.append_assoc]
        rfl

/-- A number is stored at the end of the first `n` bytes. -/
theorem uintToStr_eq (hn : (numeral (base hex) i).length ≤ n) (hl : n ≤ l.length) :
  uintToStr l n hex i = ((numeral (base hex) i).length,
    l.take (n - (numeral (base hex) i).length) ++ numeral (base hex) i ++ l.drop n)
  := by
  have hpos := List.length_pos_iff.mpr (numeral_ne_nil (base hex) i)
  rw [uintToStr, if_neg (by omega)]
  by_cases hi : i = 0
  · obtain ⟨n, rfl⟩ := Nat.exists_eq_add_of_le' (Nat.le_trans hpos hn)
    have hlt : n < l.length := hl
    rw [if_pos hi, numeral, if_pos hi, List.length_singleton, Nat.add_sub_cancel,
      List.set_eq_take_append_cons_drop, if_pos hlt, List.append_assoc]
    rfl
  · have hnumeral : numeral (base hex) i = (Nat.digits (base hex) i).reverse.map digit :=
      if_neg hi
    rw [hnumeral, List.length_map, List.length_reverse] at hn ⊢
    rw [if_neg hi, uintLoop_eq hn hl, Nat.sub_sub_self hn]

end

end Fmt
