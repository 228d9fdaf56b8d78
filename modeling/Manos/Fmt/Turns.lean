import Manos.Fmt.Printing

/-!
# Turns of the formatter

The formatter prints the pieces of its format that it comes to, with a limit that is larger than
what they print and without a limit.
-/

namespace Fmt

open Exec

variable {useN : Bool} {s q : Frame} {l c : List Byte} {b : Byte} {k n : ℕ} {ap : List Arg}
  {ps : List Piece}

/-! ### Characters -/

theorem takeSpace_wrote (k : ℕ) :
  takeSpace k (s.wrote l n) = .done () (s.wrote l (subWord n k))
  := rfl

theorem Frame.print_char :
  s.print (.char b) s.ap = s.wrote [b] (subWord s.n 1)
  := rfl

/-- A character is stored and the space for it taken. -/
theorem put_wrote {α : Type} (h : s.p < s.size) (f : Unit → Exec Frame α) :
  (put b >>= fun _ => takeSpace 1 >>= f) s = f () (s.wrote [b] (subWord s.n 1))
  := by
  have hput : put b s = .done () (s.wrote [b] s.n) := by
    rw [put_apply h, Frame.wrote, ← overlay_cons, overlay_nil]
    rfl
  rw [bind_done hput, bind_done (takeSpace_wrote 1)]

theorem literals_char (h : s.p < s.size) (hn : s.n ≠ 0 ∨ useN = false) (hb : b ≠ percent) :
  literals useN (b :: c) s = literals useN c (s.print (.char b) s.ap)
  := by
  rw [literals, bind_done (get_apply s), if_pos ⟨hn, hb⟩, put_wrote h, Frame.print_char]

/-- The loop that copies characters stops at once at a `'%'`. -/
theorem literals_percent :
  literals useN (percent :: c) s = .done (percent :: c) s
  := by
  rw [literals, bind_done (get_apply s), if_neg fun h => h.2 rfl, pure_apply]

theorem pad_wrote {width : ℕ} (hroom : s.p + width ≤ s.size) (hsize : s.size < 2 ^ 32)
    (hn : s.n < 2 ^ 32) (hspace : useN = true → width ≤ s.n) :
  pad useN width s = .done () (s.wrote (.replicate width 0x20) (subWord s.n width))
  := by
  induction width generalizing s with
  | zero =>
      rw [subWord_zero hn, List.replicate_zero, Frame.wrote_nil]
      rfl
  | succ width ih =>
      have hgo : s.n ≠ 0 ∨ useN = false := by
        cases useN with
        | false => exact .inr rfl
        | true =>
            have := hspace rfl
            exact .inl (by omega)
      have hrest : useN = true → width ≤ subWord s.n 1 := by
        intro huse
        have := hspace huse
        rw [subWord_of_le (by omega) hn]
        omega
      have hnext : (s.wrote [0x20] (subWord s.n 1)).p + width ≤ s.size := by
        show s.p + 1 + width ≤ s.size
        omega
      rw [pad, bind_done (get_apply s), if_pos hgo, put_wrote (by omega),
        ih hnext hsize (subWord_lt _ _) hrest, Frame.wrote_wrote, List.singleton_append,
        ← List.replicate_succ]
      show Outcome.done () (s.wrote _ (subWord (subWord s.n 1) width)) = _
      rw [subWord_subWord hn (by omega), Nat.add_comm 1]

/-! ### Holes -/

/-- The flag of a hole. -/
theorem zeroFlag_apply (zero : Bool) :
  when (zero = true) (modify fun s =>
      { s with intBuf := .replicate intBufSize 0x30 ++ s.intBuf.drop intBufSize }) s
    = .done () { s with intBuf := flagged zero s.intBuf }
  := by
  cases zero with
  | false => rfl
  | true => rfl

/-- Without a limit, or with one that is not smaller, all bytes are copied. -/
theorem clip_of_le {bytes : ℕ} (h : useN = true → bytes ≤ n) :
  clip useN bytes n = bytes
  := by
  rw [clip, if_neg]
  rintro ⟨huse, hlt⟩
  exact Nat.not_lt.mpr (h huse) hlt

theorem number_print {zero hex : Bool} {width : ℕ} {i : BitVec 32}
    (h : Ready useN s (.number zero width hex i :: ps)) (hap : s.ap = .number i :: ap) :
  number useN hex width { s with intBuf := flagged zero s.intBuf }
    = .done () (s.print (.number zero width hex i) ap)
  := by
  have hroom := h.room
  have hlen := h.length_text
  have hwidth : width ≤ intBufSize := h.fits _ List.mem_cons_self
  have hcount : max (digitCount hex i.toNat) width ≤ intBufSize :=
    Nat.max_le.mpr ⟨Nat.le_trans (digitCount_le hex i) (by decide), hwidth⟩
  have hvalue : (uintToStr (flagged zero s.intBuf) intBufSize hex i.toNat).1
      = digitCount hex i.toNat := by
    rw [uintToStr_flagged h.intBuf]
  have hclip : clip useN (max (digitCount hex i.toNat) width) s.n
      = max (digitCount hex i.toNat) width := by
    apply clip_of_le
    intro huse
    have hspace := h.space huse
    rw [textLength_cons, Piece.length] at hspace
    omega
  have htext : (Piece.number zero width hex i).text s.intBuf
      = ((uintToStr (flagged zero s.intBuf) intBufSize hex i.toNat).2.drop
        (intBufSize - max (digitCount hex i.toNat) width)).take
          (max (digitCount hex i.toNat) width) := by
    rw [Piece.text, hvalue]
  have hva : vaNumber { s with intBuf := flagged zero s.intBuf }
      = .done i.toNat { s with intBuf := flagged zero s.intBuf, ap := ap } := vaNumber_apply hap
  apply (bind_done hva).trans
  apply (bind_done (get_apply _)).trans
  apply (bind_done (modify_apply _ _)).trans
  dsimp only
  rw [hvalue, hclip]
  have hcopy : copyIntBuf (max (digitCount hex i.toNat) width)
        { s with intBuf := (Piece.number zero width hex i).intBuf s.intBuf, ap := ap }
      = .done () (Frame.wrote ((Piece.number zero width hex i).text s.intBuf) s.n
        { s with intBuf := (Piece.number zero width hex i).intBuf s.intBuf, ap := ap }) := by
    rw [copyIntBuf, bind_done (get_apply _), if_pos hcount, Piece.intBuf, ← htext, putAll_wrote]
    show s.p + _ ≤ s.size
    rw [textLength_cons] at hroom
    rw [hlen]
    omega
  apply (bind_done hcopy).trans
  rfl

/-- A string is stored behind its padding. -/
theorem string_print {h : Hole} {mem : List Byte}
    (hready : Ready useN s (.string h.zero h.width (h.cut (cstr mem)) :: ps))
    (hap : s.ap = .string mem :: ap) :
  string useN h { s with intBuf := flagged h.zero s.intBuf }
    = .done h.rest (s.print (.string h.zero h.width (h.cut (cstr mem))) ap)
  := by
  have hroom := hready.room
  have hsize := hready.size
  have hn := hready.n
  have hspace := hready.space
  rw [textLength_cons, Piece.length] at hroom hspace
  generalize hw : h.width - (h.cut (cstr mem)).length = width
  have hva : vaString { s with intBuf := flagged h.zero s.intBuf }
      = .done (cstr mem) { s with intBuf := flagged h.zero s.intBuf, ap := ap } :=
    vaString_apply hap
  have hpadding : when (h.width > (h.cut (cstr mem)).length)
        (pad useN (h.width - (h.cut (cstr mem)).length))
        { s with intBuf := flagged h.zero s.intBuf, ap := ap }
      = .done () (Frame.wrote (.replicate width 0x20) (subWord s.n width)
        { s with intBuf := flagged h.zero s.intBuf, ap := ap }) := by
    by_cases hlt : h.width > (h.cut (cstr mem)).length
    · rw [when_pos hlt, hw]
      apply pad_wrote
      · show s.p + width ≤ s.size
        omega
      · exact hsize
      · exact hn
      · intro huse
        have := hspace huse
        show width ≤ s.n
        omega
    · obtain rfl : width = 0 := by omega
      rw [when_neg hlt, subWord_zero hn]
      exact congrArg (Outcome.done ()) Frame.wrote_nil.symm
  apply (bind_done hva).trans
  rw [length_cut]
  apply (bind_done hpadding).trans
  apply (bind_done (get_apply _)).trans
  have hfull : ¬ (useN = true ∧ subWord s.n width = 0) := by
    rintro ⟨huse, hzero⟩
    have := hspace huse
    rw [subWord_of_le (by omega) hn] at hzero
    omega
  have hclip : clip useN (h.cut (cstr mem)).length (subWord s.n width)
      = (h.cut (cstr mem)).length := by
    apply clip_of_le
    intro huse
    have := hspace huse
    rw [subWord_of_le (by omega) hn]
    omega
  have hcut : (cstr mem).take (h.cut (cstr mem)).length = h.cut (cstr mem) := by
    rw [take_cut h _ (Nat.le_refl _), List.take_length]
  have hput : putAll (h.cut (cstr mem)) (Frame.wrote (.replicate width 0x20) (subWord s.n width)
        { s with intBuf := flagged h.zero s.intBuf, ap := ap })
      = .done () (Frame.wrote (.replicate width 0x20 ++ h.cut (cstr mem)) (subWord s.n width)
        { s with intBuf := flagged h.zero s.intBuf, ap := ap }) := by
    rw [putAll_wrote, Frame.wrote_wrote]
    · rfl
    · show s.p + (List.replicate width 0x20).length + (h.cut (cstr mem)).length ≤ s.size
      rw [List.length_replicate]
      omega
  have hcount : width + (h.cut (cstr mem)).length = max (h.cut (cstr mem)).length h.width := by
    omega
  apply (congrFun (if_neg hfull) _).trans
  show (putAll ((cstr mem).take (clip useN (h.cut (cstr mem)).length (subWord s.n width))) >>=
    fun _ => takeSpace (clip useN (h.cut (cstr mem)).length (subWord s.n width)) >>=
    fun _ => pure h.rest) _ = _
  rw [hclip, hcut]
  apply (bind_done hput).trans
  apply (bind_done (takeSpace_wrote _)).trans
  rw [subWord_subWord hn (by omega), hcount, pure_apply, Frame.print, Piece.text, hw]
  rfl

/-- A hole for a number. -/
theorem hole_number_print {x : List Byte} {hex : Bool} {i : BitVec 32}
    (hc : (parseHole x).conv = some (.number hex))
    (h : Ready useN s (.number (parseHole x).zero (parseHole x).width hex i :: ps))
    (hap : s.ap = .number i :: ap) :
  hole useN x s = .done (parseHole x).rest
    (s.print (.number (parseHole x).zero (parseHole x).width hex i) ap)
  := by
  rw [hole, bind_done (zeroFlag_apply _), hc]
  exact bind_done (number_print h hap)

/-- A hole for a string. -/
theorem hole_string_print {x mem : List Byte} (hc : (parseHole x).conv = some .string)
    (h : Ready useN s (.string (parseHole x).zero (parseHole x).width
      ((parseHole x).cut (cstr mem)) :: ps))
    (hap : s.ap = .string mem :: ap) :
  hole useN x s = .done (parseHole x).rest
    (s.print (.string (parseHole x).zero (parseHole x).width ((parseHole x).cut (cstr mem))) ap)
  := by
  rw [hole, bind_done (zeroFlag_apply _), hc]
  exact string_print h hap

/-- A hole without a conversion. -/
theorem hole_blank_print {x : List Byte} (hc : (parseHole x).conv = none) (hn : s.n < 2 ^ 32) :
  hole useN x s = .done (parseHole x).rest (s.print (.blank (parseHole x).zero) s.ap)
  := by
  rw [hole, bind_done (zeroFlag_apply _), hc, Frame.print, Piece.text, Piece.length,
    subWord_zero hn, Frame.wrote_nil]
  rfl

/-- A `"%%"`. -/
theorem directive_percent (h : s.p < s.size) :
  directive useN (percent :: percent :: c) s = .done c (s.print (.char percent) s.ap)
  := by
  rw [directive, if_pos rfl, if_pos List.head?_cons, put_wrote h, Frame.print_char]
  rfl

/-! ### The loop -/

/-- What a turn of the loop and the turns after it do, behind its test. -/
def turn (useN : Bool) (k : ℕ) (c : List Byte) : Exec Frame Unit :=
  literals useN c >>= fun x => directive useN x >>= fun c => fmtLoop useN k c

theorem turn_char (h : s.p < s.size) (hn : s.n ≠ 0 ∨ useN = false) (hb : b ≠ percent) :
  turn useN k (b :: c) s = turn useN k c (s.print (.char b) s.ap)
  := by
  rw [turn, turn, bind_apply, bind_apply, literals_char h hn hb]

theorem turn_percent {x : List Byte} (h : directive useN (percent :: x) s = .done c q) :
  turn useN k (percent :: x) s = fmtLoop useN k c q
  := by
  rw [turn, bind_done literals_percent, bind_done h]

theorem reached_of_ne (hn : n ≠ 0) (ps : List Piece) :
  reached true n ps = reached false n ps
  := by
  cases ps with
  | nil => rfl
  | cons a ps => rw [reached, reached, if_neg fun h => hn h.2, if_neg fun h => Bool.false_ne_true h.1]

theorem reached_zero (ps : List Piece) :
  reached true 0 ps = []
  := by
  cases ps with
  | nil => rfl
  | cons a ps => rw [reached, if_pos ⟨rfl, rfl⟩]

theorem reached_cons (n : ℕ) (a : Piece) (ps : List Piece) :
  reached false n (a :: ps) = a :: reached a.endsTurn (subWord n a.length) ps
  := by
  rw [reached, if_neg fun h => Bool.false_ne_true h.1]

/-- Before a turn the count decides whether there is another one. -/
theorem fmtLoop_wrote (hc : Consists c ap ps) (hk : c.length ≤ k)
    (h : ∀ k, c.length ≤ k + 1 → Returns s (turn useN (k + 1) c) fun _ q =>
      Wrote s q (printed s.intBuf (reached false s.n ps))) :
  Returns s (fmtLoop useN (k + 1) c) fun _ q =>
    Wrote s q (printed s.intBuf (reached true s.n ps))
  := by
  by_cases hn : s.n = 0
  · refine ⟨(), s, fmtLoop_end (.inl hn), ?_⟩
    rw [hn, reached_zero]
    exact .refl
  · rw [reached_of_ne hn]
    by_cases hnil : c = []
    · subst hnil
      cases hc
      exact ⟨(), s, fmtLoop_end (.inr rfl), .refl⟩
    · have hpos := List.length_pos_iff.mpr hnil
      obtain ⟨k, rfl⟩ := Nat.exists_eq_succ_of_ne_zero (Nat.ne_of_gt (Nat.lt_of_lt_of_le hpos hk))
      rw [fmtLoop]
      apply Returns.get
      rw [if_pos ⟨hn, hnil⟩]
      exact h k hk

/-- What a piece and the pieces behind it print. -/
theorem Wrote.print {a : Piece} (h : Wrote (s.print a ap) q
    (printed (a.intBuf s.intBuf) (reached a.endsTurn (subWord s.n a.length) ps))) :
  Wrote s q (printed s.intBuf (reached false s.n (a :: ps)))
  := by
  rw [reached_cons, printed]
  exact (wrote_print a ap).trans h

/-- A piece at the end of a turn is printed before the next turn. -/
theorem turn_wrote_percent {x : List Byte} {a : Piece} (hc : Consists c ap ps)
    (hend : a.endsTurn = true) (hk : c.length ≤ k)
    (hdirective : directive useN (percent :: x) s = .done c (s.print a ap))
    (h : ∀ k, c.length ≤ k + 1 → Returns (s.print a ap) (turn useN (k + 1) c) fun _ q =>
      Wrote (s.print a ap) q (printed (a.intBuf s.intBuf)
        (reached false (subWord s.n a.length) ps))) :
  Returns s (turn useN (k + 1) (percent :: x)) fun _ q =>
    Wrote s q (printed s.intBuf (reached false s.n (a :: ps)))
  := by
  rw [Returns, turn_percent hdirective]
  apply (fmtLoop_wrote hc hk h).mono
  intro _ q hq
  apply Wrote.print
  rw [hend]
  exact hq

/-- The formatter prints the pieces that it comes to. -/
theorem turn_wrote (hc : Consists c ap ps) (hap : s.ap = ap) (h : Ready useN s ps)
    (hk : c.length ≤ k + 1) :
  Returns s (turn useN (k + 1) c) fun _ q => Wrote s q (printed s.intBuf (reached false s.n ps))
  := by
  induction hc generalizing s k with
  | done =>
      have hliterals : literals useN [] s = .done [] s := rfl
      have hdirective : directive useN [] s = .done [] s := rfl
      refine ⟨(), s, ?_, .refl⟩
      rw [turn, bind_done hliterals, bind_done hdirective, fmtLoop_end (.inr rfl)]
  | @char b c ap ps hb hc ih =>
      have hroom := h.room
      rw [textLength_cons, Piece.length] at hroom
      have hn : s.n ≠ 0 ∨ useN = false := by
        cases useN with
        | false => exact .inr rfl
        | true => exact .inl (Nat.ne_of_gt (Nat.zero_lt_of_lt (h.space rfl)))
      have hend : Piece.endsTurn (.char b) = false := decide_eq_false hb
      rw [Returns, turn_char (by omega) hn hb]
      apply (ih (s := s.print (.char b) s.ap) hap h.print (Nat.le_of_succ_le hk)).mono
      intro _ q hq
      apply Wrote.print
      rw [hend]
      exact hq
  | @percent c ap ps hc ih =>
      have hroom := h.room
      rw [textLength_cons, Piece.length] at hroom
      rw [List.length_cons, List.length_cons] at hk
      have hdirective : directive useN (percent :: percent :: c) s = _ :=
        directive_percent (by omega)
      have hend : Piece.endsTurn (.char Fmt.percent) = true := rfl
      rw [hap] at hdirective
      exact turn_wrote_percent hc hend (by omega) hdirective fun k' hk' => ih rfl h.print hk'
  | @blank x ap ps hx hparse hc ih =>
      have hlen := (rest_suffix x).length_le
      rw [List.length_cons] at hk
      have hdirective : hole useN x s = _ := hole_blank_print hparse h.n
      rw [← directive_hole hx, hap] at hdirective
      exact turn_wrote_percent hc rfl (by omega) hdirective fun k' hk' => ih rfl h.print hk'
  | @number x i hex ap ps hx hparse hc ih =>
      have hlen := (rest_suffix x).length_le
      rw [List.length_cons] at hk
      have hdirective := hole_number_print hparse h hap
      rw [← directive_hole hx] at hdirective
      exact turn_wrote_percent hc rfl (by omega) hdirective fun k' hk' => ih rfl h.print hk'
  | @string x mem ap ps hx hparse hc ih =>
      have hlen := (rest_suffix x).length_le
      rw [List.length_cons] at hk
      have hdirective := hole_string_print hparse h hap
      rw [← directive_hole hx] at hdirective
      exact turn_wrote_percent hc rfl (by omega) hdirective fun k' hk' => ih rfl h.print hk'

end Fmt
