import Manos.Fmt.Bounds
import Manos.Fmt.Text

/-!
# What a format prints

What each piece of a format prints is determined by what the pieces before it left in `intBuf`.
With a limit that is large enough and without a limit the formatter prints the same; which pieces
it comes to depends on the count `n`, which it looks at before each turn of its loop.
-/

namespace Fmt

open Exec

/-! ### Pieces -/

/-- `intBuf` after the flag of a hole. -/
def flagged (zero : Bool) (intBuf : List Byte) : List Byte :=
  if zero = true then .replicate intBufSize 0x30 ++ intBuf.drop intBufSize else intBuf

/-- What a piece prints. -/
def Piece.text (intBuf : List Byte) : Piece → List Byte
  | .char b => [b]
  | .blank _ => []
  | .number zero width hex i =>
      let r := uintToStr (flagged zero intBuf) intBufSize hex i.toNat
      (r.2.drop (intBufSize - max r.1 width)).take (max r.1 width)
  | .string _ width s => .replicate (width - s.length) 0x20 ++ s

/-- `intBuf` after a piece. -/
def Piece.intBuf (intBuf : List Byte) : Piece → List Byte
  | .char _ => intBuf
  | .blank zero => flagged zero intBuf
  | .number zero _ hex i => (uintToStr (flagged zero intBuf) intBufSize hex i.toNat).2
  | .string zero _ _ => flagged zero intBuf

/-- What pieces print. -/
def printed (intBuf : List Byte) : List Piece → List Byte
  | [] => []
  | a :: ps => a.text intBuf ++ printed (a.intBuf intBuf) ps

/-- A turn of the loop ends behind a `"%%"` and behind a hole. -/
def Piece.endsTurn : Piece → Bool
  | .char b => b = percent
  | _ => true

/-- The pieces that the loop comes to when the count is `n`, at the start of a turn or in one. -/
def reached : Bool → ℕ → List Piece → List Piece
  | _, _, [] => []
  | start, n, a :: ps =>
      if start = true ∧ n = 0 then [] else a :: reached a.endsTurn (subWord n a.length) ps

section

variable {intBuf : List Byte} {a : Piece} {ps : List Piece} {zero : Bool}

theorem length_flagged (h : intBuf.length = intBufSize + 1) :
  (flagged zero intBuf).length = intBufSize + 1
  := by
  rw [flagged]
  split
  · rw [List.length_append, List.length_replicate, List.length_drop, h, Nat.add_sub_cancel_left]
  · exact h

theorem numeral_length_le (hex : Bool) (i : BitVec 32) :
  (numeral (base hex) i.toNat).length ≤ intBufSize
  := by
  rw [length_numeral]
  exact Nat.le_trans (digitCount_le hex i) (by decide)

/-- A number is stored behind what is left in `intBuf`. -/
theorem uintToStr_flagged (h : intBuf.length = intBufSize + 1) (hex : Bool) (i : BitVec 32) :
  uintToStr (flagged zero intBuf) intBufSize hex i.toNat
    = (digitCount hex i.toNat, (flagged zero intBuf).take (intBufSize - digitCount hex i.toNat)
      ++ numeral (base hex) i.toNat ++ (flagged zero intBuf).drop intBufSize)
  := by
  have hle : intBufSize ≤ (flagged zero intBuf).length := by
    rw [length_flagged h]
    exact Nat.le_succ _
  rw [uintToStr_eq (numeral_length_le hex i) hle, length_numeral]

theorem length_intBuf (h : intBuf.length = intBufSize + 1) :
  (a.intBuf intBuf).length = intBufSize + 1
  := by
  cases a with
  | char b => exact h
  | blank zero => exact length_flagged h
  | string zero width s => exact length_flagged h
  | number zero width hex i =>
      have hle := numeral_length_le hex i
      rw [length_numeral] at hle
      rw [Piece.intBuf, uintToStr_flagged h, List.length_append, List.length_append,
        List.length_take, List.length_drop, length_flagged h, length_numeral]
      omega

theorem length_text (h : intBuf.length = intBufSize + 1) (hfits : a.Fits) :
  (a.text intBuf).length = a.length
  := by
  cases a with
  | char b => rfl
  | blank zero => rfl
  | string zero width s =>
      rw [Piece.text, List.length_append, List.length_replicate, Piece.length]
      omega
  | number zero width hex i =>
      have hlen := @length_intBuf intBuf (.number zero width hex i) h
      have hle := digitCount_le hex i
      have hwidth : width ≤ intBufSize := hfits
      rw [Piece.intBuf] at hlen
      rw [Piece.text, List.length_take, List.length_drop, hlen, uintToStr_flagged h, Piece.length]
      rw [intBufSize] at *
      omega

theorem length_printed (h : intBuf.length = intBufSize + 1) (hfits : ∀ q ∈ ps, q.Fits) :
  (printed intBuf ps).length = textLength ps
  := by
  induction ps generalizing intBuf with
  | nil => rfl
  | cons a ps ih =>
      rw [printed, List.length_append, length_text h (hfits a List.mem_cons_self),
        ih (length_intBuf h) fun q hq => hfits q (List.mem_cons_of_mem _ hq)]
      rfl

end

/-! ### Counting -/

section

variable {n x y : ℕ}

theorem subWord_lt (n x : ℕ) :
  subWord n x < 2 ^ 32
  := Nat.mod_lt _ (Nat.two_pow_pos 32)

theorem subWord_zero (hn : n < 2 ^ 32) :
  subWord n 0 = n
  := by
  rw [subWord]
  omega

theorem subWord_subWord (hn : n < 2 ^ 32) (h : x + y < 2 ^ 32) :
  subWord (subWord n x) y = subWord n (x + y)
  := by
  rw [subWord, subWord, subWord]
  omega

end

/-! ### States -/

section

variable {s q q' : Frame} {l l' : List Byte} {n n' : ℕ}

/-- The state after a piece was printed, when the arguments are `ap`. -/
def Frame.print (s : Frame) (a : Piece) (ap : List Arg) : Frame :=
  { s.wrote (a.text s.intBuf) (subWord s.n a.length) with intBuf := a.intBuf s.intBuf, ap := ap }

/-- The text `l` was stored behind what had been. -/
structure Wrote (s q : Frame) (l : List Byte) : Prop where
  text : q.text = s.text ++ l
  p : q.p = s.p + l.length
  size : q.size = s.size

theorem Wrote.refl :
  Wrote s s []
  := ⟨(List.append_nil _).symm, rfl, rfl⟩

theorem Wrote.trans (h : Wrote s q l) (h' : Wrote q q' l') :
  Wrote s q' (l ++ l')
  := by
  refine ⟨?_, ?_, h'.size.trans h.size⟩
  · rw [h'.text, h.text, List.append_assoc]
  · rw [h'.p, h.p, List.length_append, Nat.add_assoc]

theorem wrote_print (a : Piece) (ap : List Arg) :
  Wrote s (s.print a ap) (a.text s.intBuf)
  := ⟨map_overlay s.buf s.p _, rfl, rfl⟩

/-- There is room for the pieces, and if there is a limit it is larger than what they print. -/
structure Ready (useN : Bool) (s : Frame) (ps : List Piece) : Prop where
  intBuf : s.intBuf.length = intBufSize + 1
  fits : ∀ q ∈ ps, q.Fits
  room : s.p + textLength ps ≤ s.size
  size : s.size < 2 ^ 32
  n : s.n < 2 ^ 32
  space : useN = true → textLength ps < s.n

variable {useN : Bool} {a : Piece} {ps : List Piece} {ap : List Arg}

theorem Ready.length_text (h : Ready useN s (a :: ps)) :
  (a.text s.intBuf).length = a.length
  := Fmt.length_text h.intBuf (h.fits a List.mem_cons_self)

theorem Ready.print (h : Ready useN s (a :: ps)) :
  Ready useN (s.print a ap) ps
  := by
  have hroom := h.room
  have hsize := h.size
  rw [textLength_cons] at hroom
  refine ⟨length_intBuf h.intBuf, fun q hq => h.fits q (List.mem_cons_of_mem _ hq), ?_, hsize,
    subWord_lt _ _, ?_⟩
  · show s.p + (a.text s.intBuf).length + textLength ps ≤ s.size
    rw [h.length_text]
    omega
  · intro huse
    have hspace := h.space huse
    rw [textLength_cons] at hspace
    show textLength ps < subWord s.n a.length
    rw [subWord_of_le (by omega) h.n]
    omega

end

end Fmt
