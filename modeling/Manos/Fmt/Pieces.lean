import Mathlib.Algebra.GroupWithZero.Nat
import Mathlib.Data.List.GetD
import Manos.Fmt.Numerals

/-!
# What a format asks for

A format with its arguments is a list of pieces: characters, numbers and strings.  Each of
them has a length, which does not depend on the buffer; what it leaves in `intBuf` for the
numbers after it is described by how many characters from the end are not zero.
-/

namespace Fmt

open Exec

/-- A part of a format with its argument. -/
inductive Piece where
  | char (b : Byte)
  | blank (zero : Bool)
  | number (zero : Bool) (width : Nat) (hex : Bool) (i : BitVec 32)
  | string (zero : Bool) (width : Nat) (s : List Byte)

/-- What of a string is printed. -/
def Hole.cut (h : Hole) (s : List Byte) : List Byte :=
  match h.precision with
  | some precision => s.take precision
  | none => s

/-- The format `c` with the arguments `ap` consists of the pieces. -/
inductive Consists : List Byte → List Arg → List Piece → Prop
  | done {ap : List Arg} : Consists [] ap []
  | char {b : Byte} {c : List Byte} {ap : List Arg} {ps : List Piece} (hb : b ≠ percent)
      (h : Consists c ap ps) : Consists (b :: c) ap (.char b :: ps)
  | percent {c : List Byte} {ap : List Arg} {ps : List Piece} (h : Consists c ap ps) :
      Consists (percent :: percent :: c) ap (.char percent :: ps)
  | blank {x : List Byte} {ap : List Arg} {ps : List Piece} (hx : x.head? ≠ some percent)
      (hc : (parseHole x).conv = none) (h : Consists (parseHole x).rest ap ps) :
      Consists (percent :: x) ap (.blank (parseHole x).zero :: ps)
  | number {x : List Byte} {i : BitVec 32} {hex : Bool} {ap : List Arg} {ps : List Piece}
      (hx : x.head? ≠ some percent) (hc : (parseHole x).conv = some (.number hex))
      (h : Consists (parseHole x).rest ap ps) :
      Consists (percent :: x) (.number i :: ap)
        (.number (parseHole x).zero (parseHole x).width hex i :: ps)
  | string {x mem : List Byte} {ap : List Arg} {ps : List Piece}
      (hx : x.head? ≠ some percent) (hc : (parseHole x).conv = some .string)
      (h : Consists (parseHole x).rest ap ps) :
      Consists (percent :: x) (.string mem :: ap)
        (.string (parseHole x).zero (parseHole x).width ((parseHole x).cut (cstr mem)) :: ps)

/-- The number of the digits of a number. -/
def digitCount (hex : Bool) (i : Nat) : Nat :=
  max 1 (Nat.digits (base hex) i).length

/-- The number of the characters that a piece asks for. -/
def Piece.length : Piece → Nat
  | .char _ => 1
  | .blank _ => 0
  | .number _ width hex i => max (digitCount hex i.toNat) width
  | .string _ width s => max s.length width

/-- The number of the characters that the pieces ask for. -/
def textLength (ps : List Piece) : Nat :=
  (ps.map Piece.length).sum

/-- The width of a number is not larger than `intBuf`. -/
def Piece.Fits : Piece → Prop
  | .number _ width _ _ => width ≤ intBufSize
  | _ => True

/-- The number of the characters at the end of `intBuf` after a piece if there were `m`
before it. -/
def Piece.filled (m : Nat) : Piece → Nat
  | .char _ => m
  | .blank zero => if zero then intBufSize else m
  | .number zero _ hex i => max (if zero then intBufSize else m) (digitCount hex i.toNat)
  | .string zero _ _ => if zero then intBufSize else m

/-- The width of a number is not larger than the number of the characters in `intBuf`. -/
def Piece.Shown (m : Nat) : Piece → Prop
  | .number zero width hex i => width ≤ (Piece.number zero width hex i).filled m
  | _ => True

/-- The widths of the numbers are not larger than what is in `intBuf` when they are printed. -/
def Shown : Nat → List Piece → Prop
  | _, [] => True
  | m, q :: ps => q.Shown m ∧ Shown (q.filled m) ps

/-! ### `intBuf` -/

variable {l : List Byte} {m : Nat} {hex : Bool}

/-- `intBuf` has `m` characters at the end that are not zero, and zeros before them. -/
structure IntBuf (l : List Byte) (m : Nat) : Prop where
  length : l.length = intBufSize + 1
  le : m ≤ intBufSize
  ne_zero : ∀ j, j < intBufSize → (l.getD j 0 ≠ 0 ↔ intBufSize ≤ j + m)

theorem intBuf_start :
  IntBuf (.replicate (intBufSize + 1) 0) 0
  := by
  refine ⟨List.length_replicate, Nat.zero_le _, fun j hj => ?_⟩
  rw [List.getD_replicate _ (Nat.lt_succ_of_lt hj)]
  constructor
  · intro h
    exact absurd rfl h
  · intro h
    omega

/-- The flag `'0'` fills `intBuf`. -/
theorem IntBuf.zero (h : IntBuf l m) :
  IntBuf (.replicate intBufSize 0x30 ++ l.drop intBufSize) intBufSize
  := by
  refine ⟨?_, Nat.le_refl _, fun j hj => ?_⟩
  · rw [List.length_append, List.length_replicate, List.length_drop, h.length,
      Nat.add_sub_cancel_left]
  · rw [List.getD_append _ _ _ _ (by rwa [List.length_replicate]), List.getD_replicate _ hj]
    constructor
    · intro
      exact Nat.le_add_left _ _
    · intro
      decide

/-- A number of the argument list has at most ten digits. -/
theorem length_digits_le (hex : Bool) (i : BitVec 32) :
  (Nat.digits (base hex) i.toNat).length ≤ 10
  := by
  have hlt : i.toNat < base hex ^ 10 := by
    refine Nat.lt_of_lt_of_le i.isLt ?_
    cases hex <;> decide
  exact (Nat.digits_length_le_iff (two_le_base hex) _).mpr hlt

theorem digitCount_le (hex : Bool) (i : BitVec 32) :
  digitCount hex i.toNat ≤ 10
  := Nat.max_le.mpr ⟨by decide, length_digits_le hex i⟩

theorem length_numeral (hex : Bool) (i : ℕ) :
  (numeral (base hex) i).length = digitCount hex i
  := by
  rw [numeral, digitCount]
  split
  case isTrue h => rw [h, Nat.digits_zero, List.length_singleton, List.length_nil, Nat.max_zero]
  case isFalse h =>
    have hpos := List.length_pos_iff.mpr (Nat.digits_ne_nil_iff_ne_zero (b := base hex).mpr h)
    rw [List.length_map, List.length_reverse, Nat.max_eq_right hpos]

/-- `uintToStr` stores the digits at the end of `intBuf`. -/
theorem IntBuf.uintToStr (h : IntBuf l m) (hex : Bool) (i : BitVec 32) :
  (Fmt.uintToStr l intBufSize hex i.toNat).1 = digitCount hex i.toNat ∧
    IntBuf (Fmt.uintToStr l intBufSize hex i.toNat).2 (max m (digitCount hex i.toNat))
  := by
  have hle := digitCount_le hex i
  have hlen := length_numeral hex i.toNat
  have hl := h.length
  have hm := h.le
  have hsize : intBufSize = 20 := rfl
  rw [uintToStr_eq (by omega) (by omega)]
  refine ⟨hlen, ?_, Nat.max_le.mpr ⟨hm, by omega⟩, fun j hj => ?_⟩
  · rw [List.length_append, List.length_append, List.length_take, List.length_drop]
    omega
  · have htake : (l.take (intBufSize - (numeral (base hex) i.toNat).length)).length
        = intBufSize - (numeral (base hex) i.toNat).length := by
      rw [List.length_take]
      omega
    rw [List.getD_append _ _ _ _ (by rw [List.length_append, htake]; omega)]
    by_cases hj' : j < intBufSize - (numeral (base hex) i.toNat).length
    · have hold := h.ne_zero j hj
      rw [List.getD_append _ _ _ _ (by rwa [htake]), List.getD_eq_getElem?_getD,
        List.getElem?_take_of_lt hj', ← List.getD_eq_getElem?_getD, hold]
      omega
    · have hdigit : j - (intBufSize - (numeral (base hex) i.toNat).length)
          < (numeral (base hex) i.toNat).length := by omega
      rw [List.getD_append_right _ _ _ _ (by rw [htake]; omega), htake,
        List.getD_eq_getElem _ _ hdigit]
      constructor
      · intro _
        omega
      · intro _ hzero
        exact zero_notMem_numeral hex _ (hzero ▸ List.getElem_mem hdigit)

/-- What is copied from `intBuf` has a zero exactly when it is longer than what was stored. -/
theorem IntBuf.slice (h : IntBuf l m) {bytes : Nat} (hb : bytes ≤ intBufSize) :
  ((l.drop (intBufSize - bytes)).take bytes).length = bytes ∧
    (0 ∉ (l.drop (intBufSize - bytes)).take bytes ↔ bytes ≤ m)
  := by
  have hlen : ((l.drop (intBufSize - bytes)).take bytes).length = bytes := by
    rw [List.length_take, List.length_drop, h.length]
    omega
  refine ⟨hlen, ?_⟩
  have hget : ∀ k, k < bytes → ((l.drop (intBufSize - bytes)).take bytes)[k]? =
      l[intBufSize - bytes + k]? := by
    intro k hk
    rw [List.getElem?_take_of_lt hk, List.getElem?_drop]
  constructor
  · intro h₀
    by_contra hm
    have hj : intBufSize - bytes < l.length := by
      rw [h.length]
      omega
    have hzero : l.getD (intBufSize - bytes) 0 = 0 := by
      by_contra hne
      have := (h.ne_zero _ (by omega)).mp hne
      omega
    apply h₀
    refine List.mem_iff_getElem?.mpr ⟨0, ?_⟩
    rw [hget 0 (by omega), Nat.add_zero, List.getElem?_eq_getElem hj]
    rw [List.getD_eq_getElem _ _ hj] at hzero
    rw [hzero]
  · intro hm hmem
    obtain ⟨k, hk⟩ := List.mem_iff_getElem?.mp hmem
    have hkb : k < bytes := by
      have := (List.getElem?_eq_some_iff.mp hk).1
      omega
    rw [hget k hkb] at hk
    have hne := (h.ne_zero (intBufSize - bytes + k) (by omega)).mpr (by omega)
    rw [List.getD_eq_getElem?_getD, hk] at hne
    exact hne rfl

end Fmt
